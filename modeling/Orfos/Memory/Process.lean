import Orfos.Memory.Spaces
import Orfos.Syscall.Handlers

/-!
# The memory of processes

What `Process::Process`, `fork` and `growMemory` of `kernel/process/process.cpp`,
`startUserInitProcess` of `kernel/process/user_init_proc.cpp` and `exec` of
`kernel/elf/exec.cpp` do to memory. Each of them is one step; between them processes store to
their memory, system calls copy to it, and the rest of the kernel takes pages and writes to the
pages it has taken.

The object of a process, the vectors in it and the contents of its trap frame and its kernel
stack belong to the rest of the kernel.
-/

namespace Orfos.Memory

open Orfos.Base PageTableEntry VirtualAddress

/-- The fields of `Process` that say where its memory is. -/
structure Process where
  pid : UInt64
  trapFrame : UInt64
  kernelStackPage : UInt64
  pageTable : UInt64
  memorySize : UInt64

/-- Physical memory, the page table of the kernel, the symbol `orfos_trampoline`, `nextPid`, the
processes and the file system. `tables` are the page tables that were made for processes, and
`taken` are pages of the rest of the kernel. -/
structure Kernel (φ : Type) where
  pages : State
  kernelPageTable : UInt64
  trampoline : UInt64
  nextPid : UInt64
  processes : List Process
  files : φ
  tables : List UInt64
  taken : List UInt64

variable {φ ι : Type}

/-- `Process::makePageTable`. -/
def makePageTable (trampoline trapFrame : UInt64) (s : State) : Except Halt (UInt64 × State) :=
  (New.allocate 8 s).bind fun (pt, s) ↦
    (PageTable.map pt TRAMPOLINE PAGE_SIZE trampoline (PTE_R ||| PTE_X).toUInt16
      (PageTable.construct pt s)).bind fun (_, s) ↦
        (PageTable.map pt TRAPFRAME PAGE_SIZE trapFrame (PTE_R ||| PTE_W).toUInt16 s).bind
          fun (_, s) ↦ .ok (pt, s)

/-- `Process::Process`. It leaves `memorySize` to its callers. -/
def Process.construct (k : Kernel φ) : Except Halt (Process × Kernel φ) :=
  let pid := k.nextPid
  (New.allocate 288 k.pages).bind fun (trapFrame, s) ↦
    (New.allocate (PAGE_SIZE * 2) s).bind fun (kernelStackPage, s) ↦
      let kernelStack := TRAMPOLINE - pid * 2 * PAGE_SIZE
      (makePageTable k.trampoline trapFrame s).bind fun (pageTable, s) ↦
        (PageTable.map k.kernelPageTable kernelStack PAGE_SIZE kernelStackPage
          (PTE_R ||| PTE_W).toUInt16 s).bind fun (_, s) ↦
            .ok (⟨pid, trapFrame, kernelStackPage, pageTable, 0⟩,
              { k with
                pages := s
                nextPid := k.nextPid + 1
                tables := pageTable :: k.tables
                taken := kernelStackPage :: trapFrame :: k.taken })

/-- `Process::growMemory`. The arguments of `deallocateUserVirtualMemory` are in the order of
the source. -/
def Process.growMemory (p : Process) (size : UInt64) (s : State) :
    Except Halt (Process × State) :=
  if size > p.memorySize then
    (allocateUserVirtualMemory p.pageTable p.memorySize size PTE_W s).map fun r ↦
      ({ p with memorySize := size }, r.2)
  else if size < p.memorySize then
    .ok ({ p with memorySize := size },
      (deallocateUserVirtualMemory p.pageTable size p.memorySize s).2)
  else .ok ({ p with memorySize := size }, s)

/-- `Process::fork` up to the copy of the memory. -/
def Process.fork (p : Process) (k : Kernel φ) : Except Halt (Kernel φ) :=
  (Process.construct k).bind fun (newProc, k) ↦
    (copyUserVirtualMemory p.pageTable newProc.pageTable p.memorySize k.pages).map fun s ↦
      { k with
        pages := s
        processes := k.processes ++ [{ newProc with memorySize := p.memorySize }] }

/-- `startUserInitProcess`, for the bytes from `beginUserInitCode` to `endUserInitCode`. -/
def startUserInitProcess (code : List UInt8) (k : Kernel φ) : Except Halt (Kernel φ) :=
  (Process.construct k).bind fun (proc, k) ↦
    (New.allocate PAGE_SIZE k.pages).bind fun (mem, s) ↦
      (PageTable.map proc.pageTable 0 PAGE_SIZE mem (PTE_W ||| PTE_R ||| PTE_X ||| PTE_U).toUInt16
        (s.setPage mem (memset (s.memory mem) 0 4096))).map fun (_, s) ↦
          { k with
            pages := s.fill mem 0 code
            processes := k.processes ++ [{ proc with memorySize := PAGE_SIZE }] }

/-! ### exec -/

/-- The file system as `exec` sees it: functions over a state of its own. `read` gives the bytes
that `Inode::read` copies. -/
structure Files (φ ι : Type) where
  openPath : Syscall.CString → Syscall.Op φ (Option ι)
  lock : ι → Syscall.Op φ Unit
  unlock : ι → Syscall.Op φ Unit
  put : ι → Syscall.Op φ Unit
  readElfHeader : ι → UInt32 → Syscall.Op φ (Int32 × Syscall.ElfHeader)
  readProgramHeader : ι → UInt32 → Syscall.Op φ (Int32 × Syscall.ProgramHeader)
  read : ι → (offset length : UInt32) → Syscall.Op φ (List UInt8)

/-- What `exec` works on beside the process. -/
structure World (φ : Type) where
  pages : State
  tables : List UInt64
  files : φ

/-- A function of `kernel/memory`, which halts with the kernel. -/
def onPages {α : Type} (m : State → Except Halt (α × State)) : Syscall.Op (World φ) α := fun w ↦
  match m w.pages with
  | .ok (a, s) => some (a, { w with pages := s })
  | .error _ => none

/-- A function of `kernel/fs`. -/
def onFiles {α : Type} (f : Syscall.Op φ α) : Syscall.Op (World φ) α := fun w ↦
  (f w.files).map fun (a, files) ↦ (a, { w with files := files })

/-- `Inode::read` to a kernel address at the start of a page. -/
def readPage (F : Files φ ι) (ip : ι) (dst : UInt64) (offset length : UInt32) :
    Syscall.Op (World φ) Int32 := fun w ↦
  (F.read ip offset length w.files).map fun (bytes, files) ↦
    (Int32.ofNat bytes.length,
      { w with pages := w.pages.fill dst 0 (bytes.take length.toNat), files := files })

/-- What `exec` calls, for a process with a trap frame. The other functions are not called. -/
def rest (F : Files φ ι) (trampoline trapFrame : UInt64) : Syscall.Rest (World φ) ι UInt64 where
  openPath path := onFiles (F.openPath path)
  create _ _ _ _ := fun _ ↦ none
  lock ip := onFiles (F.lock ip)
  unlock ip := onFiles (F.unlock ip)
  put ip := onFiles (F.put ip)
  truncate _ := fun _ ↦ none
  type _ _ := 0
  major _ _ := 0
  read ip _ dst offset length := readPage F ip dst offset length
  readElfHeader ip offset := onFiles (F.readElfHeader ip offset)
  readProgramHeader ip offset := onFiles (F.readProgramHeader ip offset)
  write _ _ _ _ _ := fun _ ↦ none
  deviceRead _ _ _ := fun _ ↦ none
  deviceWrite _ _ _ := fun _ ↦ none
  copyin _ _ := fun _ ↦ none
  copyinString _ _ _ := fun _ ↦ none
  copyout pageTable dst src := onPages (PageTable.copyout pageTable dst src)
  makePageTable := fun w ↦
    (onPages (makePageTable trampoline trapFrame) w).map fun (pt, w) ↦
      (pt, { w with tables := pt :: w.tables })
  deletePageTable _ := fun w ↦ some ((), w)
  walkAddress pageTable va := onPages fun s ↦ (PageTable.walkAddress pageTable va s).map (·, s)
  allocateUserVirtualMemory pageTable oldSize newSize xperm :=
    onPages (allocateUserVirtualMemory pageTable oldSize newSize xperm)
  clearUserVirtualMemory pageTable va :=
    onPages fun s ↦ (clearUserVirtualMemory pageTable va s).map ((), ·)

/-- The handler state in which a process calls `exec`. -/
def Process.enter (p : Process) (k : Kernel φ) : Syscall.Kernel (World φ) ι UInt64 where
  world := ⟨k.pages, k.tables, k.files⟩
  begun := 0
  ended := 0
  outstanding := 0
  files := fun _ ↦ ⟨.None, 0, false, false, none, 0, 0⟩
  openFiles := []
  cwd := none
  args := fun _ ↦ 0
  pageTable := p.pageTable
  memorySize := p.memorySize
  epc := 0
  sp := 0
  name := []

/-- `exec`: the process and the kernel after a call that returns. -/
def Process.exec (F : Files φ ι) (p : Process) (path : Syscall.CString)
    (argv : List Syscall.CString) (k : Kernel φ) : Option (Process × Kernel φ) :=
  let o := Syscall.Elf.exec (rest F k.trampoline p.trapFrame) path argv (p.enter k)
  o.value.map fun _ ↦
    ({ p with pageTable := o.state.pageTable, memorySize := o.state.memorySize },
      { k with
        pages := o.state.world.pages
        tables := o.state.world.tables
        files := o.state.world.files })

/-! ### Loads and stores of processes -/

/-- The entry that the hart finds for an address in user mode. -/
def Process.entry (p : Process) (va : UInt64) (s : State) : Option PageTableEntry :=
  match PageTable.walk p.pageTable va false s with
  | .ok (some pte, t) => if v (t.load pte) ∧ u (t.load pte) then some (t.load pte) else none
  | _ => none

/-- The byte of an address as a process sees it. -/
def Process.visible (p : Process) (va : UInt64) (s : State) : Option UInt8 :=
  (p.entry va s).map fun raw ↦ byteAt (s.memory (toPhysicalAddress raw)) (va.toNat % 4096)

/-- A store of a process. An address that it may not write to raises an exception instead. -/
def Process.store (p : Process) (va : UInt64) (b : UInt8) (s : State) : Option State :=
  (p.entry va s).bind fun raw ↦
    if raw &&& PTE_W ≠ 0 then some (s.fill (toPhysicalAddress raw) (va.toNat % 4096) [b])
    else none

/-! ### Runs -/

/-- What happens next. A process is given by its number. -/
inductive Happening where
  | init (code : List UInt8)
  | fork (i : Nat)
  | exec (i : Nat) (path : Syscall.CString) (argv : List Syscall.CString)
  | grow (i : Nat) (size : UInt64)
  | store (i : Nat) (va : UInt64) (b : UInt8)
  | copyout (i : Nat) (dst : UInt64) (src : List UInt8)
  | take
  | write (page : UInt64) (c : Contents)

/-- One step. The kernel stops at a failed assertion and when it is out of memory. -/
def Kernel.step (F : Files φ ι) (k : Kernel φ) : Happening → Option (Kernel φ)
  | .init code => (startUserInitProcess code k).toOption
  | .fork i => k.processes[i]?.bind fun p ↦ (p.fork k).toOption
  | .exec i path argv =>
    k.processes[i]?.bind fun p ↦ (p.exec F path argv k).map fun r ↦
      { r.2 with processes := r.2.processes.set i r.1 }
  | .grow i size =>
    k.processes[i]?.bind fun p ↦ (p.growMemory size k.pages).toOption.map fun r ↦
      { k with pages := r.2, processes := k.processes.set i r.1 }
  | .store i va b =>
    k.processes[i]?.bind fun p ↦ (p.store va b k.pages).map fun s ↦ { k with pages := s }
  | .copyout i dst src =>
    k.processes[i]?.bind fun p ↦ (PageTable.copyout p.pageTable dst src k.pages).toOption.map
      fun r ↦ { k with pages := r.2 }
  | .take =>
    (Page.allocate k.pages).toOption.map fun r ↦
      { k with pages := r.2, taken := r.1 :: k.taken }
  | .write page c => some { k with pages := k.pages.setPage page c }

/-- The rest of the kernel writes to its own pages only. -/
def Kernel.Own (k : Kernel φ) : Happening → Prop
  | .write page _ => page ∈ k.taken
  | _ => True

end Orfos.Memory
