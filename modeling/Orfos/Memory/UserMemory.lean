import Orfos.Memory.Mapping
import Orfos.Memory.New

/-!
# User memory

`kernel/memory/uvm.cpp`, the copies between user memory and the kernel of
`kernel/memory/page_table.cpp`, and `fetchString` and `getArgString` of `kernel/syscall/args.cpp`.
`Page::allocate` stops the kernel instead of returning `nullptr`. A buffer of the kernel that is
copied to is given by its bytes, whose number the function does not know.
-/

namespace Orfos.Memory

open Orfos.Base PageTableEntry VirtualAddress

/-- `deallocateUserVirtualMemory`: the size it returns, and the memory. -/
def deallocateUserVirtualMemory (pageTable oldSize newSize : UInt64) (s : State) :
    UInt64 × State :=
  if newSize ≥ oldSize then (oldSize, s)
  else if roundUp newSize < roundUp oldSize then
    let numPages := (roundUp oldSize - roundUp newSize) / PAGE_SIZE
    (newSize, PageTable.unmap pageTable (roundUp newSize) numPages true s)
  else (newSize, s)

/-- The loop of `allocateUserVirtualMemory` from an address. The fuel bounds the number of its
rounds. -/
def allocateUserFrom (pageTable oldSize newSize xperm : UInt64) :
    Nat → UInt64 → State → Except Halt (UInt64 × State)
  | 0, _, s => .ok (newSize, s)
  | fuel + 1, addr, s =>
    if addr < newSize then
      (Page.allocate s).bind fun (mem, s) ↦
        if mem = 0 then .ok (0, (deallocateUserVirtualMemory pageTable addr oldSize s).2)
        else
          (PageTable.map pageTable addr PAGE_SIZE mem (PTE_R ||| PTE_U ||| xperm).toUInt16 s).bind
            fun (res, s) ↦
              if ¬ res then
                (Page.free mem s).map fun s ↦
                  (0, (deallocateUserVirtualMemory pageTable addr oldSize s).2)
              else allocateUserFrom pageTable oldSize newSize xperm fuel (addr + PAGE_SIZE) s
    else .ok (newSize, s)

/-- `allocateUserVirtualMemory`. -/
def allocateUserVirtualMemory (pageTable oldSize newSize xperm : UInt64) (s : State) :
    Except Halt (UInt64 × State) :=
  if newSize < oldSize then .ok (oldSize, s)
  else
    allocateUserFrom pageTable (roundUp oldSize) newSize xperm (pageCount newSize)
      (roundUp oldSize) s

/-- `clearUserVirtualMemory`. -/
def clearUserVirtualMemory (pageTable va : UInt64) (s : State) : Except Halt State :=
  (PageTable.walk pageTable va false s).bind fun
    | (none, _) => .error (.assert "pte != nullptr")
    | (some pte, s) => .ok (s.store pte (s.load pte &&& ~~~ PTE_U))

/-- The loop of `copyUserVirtualMemory` from an address. -/
def copyUserFrom (oldTable newTable size : UInt64) : Nat → UInt64 → State → Except Halt State
  | 0, _, s => .ok s
  | fuel + 1, i, s =>
    if i < size then
      (PageTable.walk oldTable i false s).bind fun
        | (none, _) => .error (.assert "pte != nullptr")
        | (some pte, s) =>
          if ¬ v (s.load pte) then .error (.assert "pte->pte.v")
          else
            let pa := toPhysicalAddress (s.load pte)
            let flags := flags (s.load pte)
            (New.allocate PAGE_SIZE s).bind fun (mem, s) ↦
              (PageTable.map newTable i PAGE_SIZE mem flags (s.setPage mem (s.memory pa))).bind
                fun (_, s) ↦ copyUserFrom oldTable newTable size fuel (i + PAGE_SIZE) s
    else .ok s

/-- `copyUserVirtualMemory`. -/
def copyUserVirtualMemory (oldTable newTable size : UInt64) (s : State) : Except Halt State :=
  copyUserFrom oldTable newTable size (pageCount size) 0 s

/-- `memmove` of some bytes to a place in a page. -/
def State.fill (s : State) (page : UInt64) (offset : Nat) (bytes : List UInt8) : State :=
  s.setPage page (putBytes (s.memory page) offset bytes.length fun i ↦ bytes.getD i 0)

/-- `PageTable::copyout`. A round copies at least one byte, so `src.length` rounds are enough. -/
def PageTable.copyoutFrom (pageTable : UInt64) :
    Nat → UInt64 → List UInt8 → State → Except Halt (Bool × State)
  | _, _, [], s => .ok (true, s)
  | 0, _, _ :: _, s => .ok (false, s)
  | fuel + 1, dst, b :: src, s =>
    let va := roundDown dst
    (walkAddress pageTable va s).bind fun pa ↦
      if pa = 0 then .ok (false, s)
      else
        let offset := (dst - va).toNat
        let n := min (4096 - offset) (b :: src).length
        copyoutFrom pageTable fuel (va + PAGE_SIZE) ((b :: src).drop n)
          (s.fill pa offset ((b :: src).take n))

/-- `PageTable::copyout`. -/
def PageTable.copyout (pageTable dst : UInt64) (src : List UInt8) (s : State) :
    Except Halt (Bool × State) :=
  copyoutFrom pageTable src.length dst src s

/-- The bytes of the kernel behind a pointer. -/
abbrev Buffer := Nat → UInt8

/-- `memmove` to the place `dst` of a buffer from a place in a page. -/
def Buffer.fill (buf : Buffer) (dst : Nat) (page : Contents) (offset n : Nat) : Buffer := fun k ↦
  if dst ≤ k ∧ k < dst + n then byteAt page (offset + (k - dst)) else buf k

/-- The loop of `PageTable::copyin`. A round copies at least one byte, so `len` rounds are
enough. -/
def PageTable.copyinFrom (pageTable : UInt64) (s : State) :
    Nat → Buffer → Nat → UInt64 → UInt64 → Except Halt (Bool × Buffer)
  | 0, buf, _, _, len => .ok (len = 0, buf)
  | fuel + 1, buf, dst, src, len =>
    if len = 0 then .ok (true, buf)
    else
      let va := roundDown src
      (walkAddress pageTable va s).bind fun pa ↦
        if pa = 0 then .ok (false, buf)
        else
          let offset := src - va
          let n := if PAGE_SIZE - offset > len then len else PAGE_SIZE - offset
          copyinFrom pageTable s fuel (buf.fill dst (s.memory pa) offset.toNat n.toNat)
            (dst + n.toNat) (va + PAGE_SIZE) (len - n)

/-- `PageTable::copyin`. -/
def PageTable.copyin (pageTable : UInt64) (buf : Buffer) (src len : UInt64) (s : State) :
    Except Halt (Bool × Buffer) :=
  copyinFrom pageTable s len.toNat buf 0 src len

/-- The inner loop of `PageTable::copyinString`: `gotNull`, the buffer, and what is left of
`len`. -/
def PageTable.copyStringFrom (page : Contents) :
    Nat → Nat → Buffer → Nat → UInt64 → Bool × Buffer × Nat × UInt64
  | 0, _, buf, dst, len => (false, buf, dst, len)
  | n + 1, ptr, buf, dst, len =>
    if byteAt page ptr = 0 then (true, Function.update buf dst 0, dst, len)
    else
      copyStringFrom page n (ptr + 1) (Function.update buf dst (byteAt page ptr)) (dst + 1)
        (len - 1)

/-- The outer loop of `PageTable::copyinString`. A round takes at least one byte off `len` or finds
the end of the string, so `len` rounds are enough. -/
def PageTable.copyinStringFrom (pageTable : UInt64) (s : State) :
    Nat → Buffer → Nat → UInt64 → UInt64 → Except Halt (Bool × Buffer)
  | 0, buf, _, _, _ => .ok (false, buf)
  | fuel + 1, buf, dst, src, len =>
    if len = 0 then .ok (false, buf)
    else
      let va := roundDown src
      (walkAddress pageTable va s).bind fun pa ↦
        if pa = 0 then .ok (false, buf)
        else
          let offset := src - va
          let n := if PAGE_SIZE - offset > len then len else PAGE_SIZE - offset
          let (gotNull, buf, dst, len) :=
            copyStringFrom (s.memory pa) n.toNat offset.toNat buf dst len
          if gotNull then .ok (true, buf)
          else copyinStringFrom pageTable s fuel buf dst (va + PAGE_SIZE) len

/-- `PageTable::copyinString`. -/
def PageTable.copyinString (pageTable : UInt64) (buf : Buffer) (src len : UInt64) (s : State) :
    Except Halt (Bool × Buffer) :=
  copyinStringFrom pageTable s len.toNat buf 0 src len

/-- `strlen` of a buffer of which `n` bytes may be read. It is `none` if it reads more. -/
def strlen (buf : Buffer) : Nat → Nat → Option Nat
  | 0, _ => none
  | n + 1, k => if buf k = 0 then some k else strlen buf n (k + 1)

/-- `fetchString` into a buffer of `length` bytes, for the page table of the process. The result
is `none` if it reads behind the buffer. -/
def fetchString (pageTable address : UInt64) (buf : Buffer) (length : UInt64) (s : State) :
    Except Halt (Option Int32 × Buffer) :=
  (PageTable.copyinString pageTable buf address length s).map fun
    | (false, buf) => (some (-1), buf)
    | (true, buf) => ((strlen buf length.toNat 0).map Int32.ofNat, buf)

end Orfos.Memory
