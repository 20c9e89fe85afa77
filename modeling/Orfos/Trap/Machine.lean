import Orfos.Trap.Vectors

/-!
# Processes on several harts

User code, traps and the kernel's way through them: `userTrap` and `returnUserTrap`
(`kernel/ie/user_trap.cpp`), `which` (`kernel/ie/cause.cpp`), `syscall`
(`kernel/syscall/syscall.cpp`) and the copy of the trap frame in `Process::fork`
(`kernel/process/process.cpp`), on any number of harts. The code of the trampoline goes instruction
by instruction. `Cpu::current().process` (`kernel/process/cpu.cpp`) is two loads, of the number of
the hart and of its process, and the thread may be switched out between them.

The C++ code around it is free: it may change the registers but `tp`, which no compiled function
uses, and the memory but trap frames, and may be switched out and in on any hart. The timer
interrupts in machine mode are left out, which `orfos_timerVector` hides.
-/

namespace Orfos.Trap

open Orfos.Base.Riscv
open Orfos.Memory (TRAMPOLINE PAGE_SIZE)
open TrapFrame

/-- The addresses of the code, and the kernel's page table. -/
structure Symbols where
  orfos_trampoline : UInt64
  orfos_userVector : UInt64
  orfos_returnUser : UInt64
  orfos_kernelVector : UInt64
  userTrap : UInt64
  kernelSatp : UInt64

/-- The fields of a process that its traps need. -/
structure Process where
  trapFrame : UInt64
  /-- `pageTable->makeSatp()` -/
  satp : UInt64
  kernelStack : UInt64

/-- What a thread looks up its process for. -/
inductive Task where
  | syscall | returnUserTrap
  deriving DecidableEq

/-- Where the thread of a process is in the kernel. -/
inductive Pc where
  /-- at the start of `userTrap` -/
  | userTrap
  /-- before `Cpu::current()` reads `tp` -/
  | current (k : Task)
  /-- before the load of `cpus[cpu].process` -/
  | process (cpu : UInt64) (k : Task)
  /-- the process is found -/
  | found (proc : Nat) (k : Task)
  /-- the function of a system call runs -/
  | handler (proc : Nat)

/-- What a hart executes. The processes in it are those whose thread it is. -/
inductive Work where
  | scheduler
  | user (p : Nat)
  | block (p : Nat) (rest : List Instr)
  | kernel (p : Nat) (pc : Pc)
  /-- `lib::panic` for a cause that `which` does not expect -/
  | panic
  /-- a page fault in the kernel, code that is none, a failed assertion, a null pointer -/
  | fault

/-- A hart and what it executes. -/
structure Core where
  hart : Hart
  work : Work

/-- The machine. -/
structure System where
  memory : UInt64 → UInt64
  walk : Walk
  core : UInt64 → Core
  /-- `cpus[hart].process` -/
  process : UInt64 → Option Nat
  table : Nat → Option Process
  /-- threads that are switched out -/
  parked : Nat → Option Pc

/-- `Cause` -/
inductive Cause where
  | Unexpected | Plic | Timer
  deriving DecidableEq

/-- `which` -/
def which (scause : UInt64) : Cause :=
  if scause &&& 0x8000000000000000 ≠ 0 ∧ scause &&& 0xff = 9 then .Plic
  else if scause = 0x8000000000000001 then .Timer
  else .Unexpected

/-- The keys in `syscallMap`. -/
def syscalls : List UInt64 := [1, 2, 3, 5, 7, 15, 16, 17, 21]

/-- `x` is a field of the trap frame at `f`. -/
def InFrame (f x : UInt64) : Prop := x - f < size

instance (f : UInt64) : DecidablePred (InFrame f) := fun x ↦ inferInstanceAs (Decidable (x - f < size))

/-- What a process sees of itself. -/
structure View where
  regs : Reg → UInt64
  pc : UInt64

/-- What the process of a hart in user mode sees. -/
def view (hart : Hart) : View := ⟨hart.regs, hart.pc⟩

/-- User code has run on a hart. -/
def resume (hart : Hart) (v : View) : Hart := { hart with regs := v.regs, pc := v.pc }

/-- C++ code has run on a hart. It leaves `tp` alone, and a nested trap restores what it changes but
for the registers that say where and why the last trap was. -/
structure Goes (hart hart' : Hart) : Prop where
  tp : hart'.regs .tp = hart.regs .tp
  mode : hart'.mode = hart.mode
  stvec : hart'.csr .stvec = hart.csr .stvec
  satp : hart'.csr .satp = hart.csr .satp

/-- The hart executes C++ code, behind the start of `userTrap`. -/
def Work.Free : Work → Prop
  | .scheduler => True
  | .kernel _ pc => pc ≠ .userTrap
  | _ => False

namespace Symbols

variable (sym : Symbols)

/-- `TRAMPOLINE` and the offset of `orfos_userVector` -/
def trampolineUserVector : UInt64 := TRAMPOLINE + (sym.orfos_userVector - sym.orfos_trampoline)

/-- `TRAMPOLINE` and the offset of `orfos_returnUser` -/
def trampolineReturnUser : UInt64 := TRAMPOLINE + (sym.orfos_returnUser - sym.orfos_trampoline)

/-- A trap of user code starts what `stvec` points to. -/
def enter (p : Nat) (hart : Hart) : Work :=
  if hart.pc = sym.trampolineUserVector then .block p userVector else .fault

/-- What a hart executes behind a block. -/
def leave (p : Nat) (hart : Hart) : Work :=
  if hart.mode = .user then .user p
  else if hart.pc = sym.userTrap then .kernel p .userTrap
  else .fault

end Symbols

namespace System

variable (sym : Symbols) (s : System)

/-- Store a field of a trap frame. -/
def store (f x value : UInt64) : System :=
  { s with memory := Function.update s.memory (f + x) value }

/-- A hart goes on. -/
def setCore (h : UInt64) (c : Core) : System := { s with core := Function.update s.core h c }

/-- A hart executes something else. -/
def setWork (h : UInt64) (w : Work) : System := s.setCore h ⟨(s.core h).hart, w⟩

/-- One instruction of a block. -/
def instruction (h : UInt64) (p : Nat) (i : Instr) (is : List Instr) : System :=
  match i.exec s.walk ⟨(s.core h).hart, s.memory⟩ with
  | some m => { s.setCore h ⟨m.hart, .block p is⟩ with memory := m.memory }
  | none => s.setWork h .fault

/-- `userTrap` up to the call in its branch. `epc` is behind the instruction in a system call and in
a store page fault. -/
def userTrap (h : UInt64) (p : Nat) : System :=
  let hart := (s.core h).hart
  let sstatus := hart.csr .sstatus
  let scause := hart.csr .scause
  if sstatus &&& SPP ≠ 0 then s.setWork h .fault
  else
    match s.process (hart.regs .tp) with
    | none => s.setWork h .fault
    | some q =>
      match s.table q with
      | none => s.setWork h .fault
      | some proc =>
        let hart := hart.setCsr .stvec sym.orfos_kernelVector
        let enabled := hart.setCsr .sstatus (sstatus ||| SIE)
        if scause = 0x08 then
          (s.store proc.trapFrame epc (hart.csr .sepc + 4)).setCore h
            ⟨enabled, .kernel p (.current .syscall)⟩
        else if scause = 0x0F then
          (s.store proc.trapFrame epc (hart.csr .sepc + 4)).setCore h
            ⟨enabled, .kernel p (.current .returnUserTrap)⟩
        else if which scause = .Unexpected then
          (s.store proc.trapFrame epc (hart.csr .sepc)).setCore h ⟨hart, .panic⟩
        else
          (s.store proc.trapFrame epc (hart.csr .sepc)).setCore h
            ⟨hart, .kernel p (.current .returnUserTrap)⟩

/-- The second load of `Cpu::current().process`. `syscall` returns without a process. -/
def lookup (h : UInt64) (p : Nat) (cpu : UInt64) (k : Task) : System :=
  match s.process cpu, k with
  | some q, _ => s.setWork h (.kernel p (.found q k))
  | none, .syscall => s.setWork h (.kernel p (.current .returnUserTrap))
  | none, .returnUserTrap => s.setWork h .fault

/-- The process asks for a system call that is none. -/
def unknown (q : Nat) : Bool :=
  match s.table q with
  | none => false
  | some proc => s.memory (proc.trapFrame + offset .a7) ∉ syscalls

/-- `syscall`, for the process that was found. -/
def syscall (h : UInt64) (p q : Nat) : System :=
  match s.table q with
  | none => s.setWork h .fault
  | some proc =>
    if s.unknown q then
      (s.store proc.trapFrame (offset .a0) (-1)).setWork h (.kernel p (.current .returnUserTrap))
    else s.setWork h (.kernel p (.handler q))

/-- Store a field of the trap frame of a process, and go on. -/
def assign (h : UInt64) (q : Nat) (field value : UInt64) (w : Work) : System :=
  match s.table q with
  | none => s.setWork h .fault
  | some proc => (s.store proc.trapFrame field value).setWork h w

/-- `returnUserTrap`, for the process that was found, up to the jump into the trampoline. -/
def returnUserTrap (h : UInt64) (q : Nat) : System :=
  match s.table q with
  | none => s.setWork h .fault
  | some proc =>
    let f := proc.trapFrame
    let hart := (s.core h).hart
    let sstatus := withBits (hart.csr .sstatus) SIE 0
    let s := (((s.store f kernel_satp (hart.csr .satp)).store f kernel_sp
      (proc.kernelStack + PAGE_SIZE)).store f kernel_trap sym.userTrap).store f kernel_hartid
      (hart.regs .tp)
    let hart := ((hart.setCsr .stvec sym.trampolineUserVector).setCsr .sstatus
      (withBits (withBits sstatus SPP 0) SPIE SPIE)).setCsr .sepc (s.memory (f + epc))
    s.setCore h ⟨{ hart.set .a0 proc.satp with pc := sym.trampolineReturnUser },
      .block q returnUser⟩

/-- The trap frame of a child: its parent's, with 0 in `a0`. -/
def copyFrame (f g : UInt64) : System :=
  { s with memory := fun x ↦ if InFrame g x then
      if x = g + offset .a0 then 0 else s.memory (f + (x - g)) else s.memory x }

/-- A supervisor interrupt while the hart is in the kernel: `orfos_kernelVector` hides it, if `stvec`
points there. -/
def interrupt (h : UInt64) : System :=
  if (s.core h).hart.csr .stvec = sym.orfos_kernelVector then s else s.setWork h .fault

/-- The C++ code has run: no trap frame has changed, nor where one is mapped, and no user can reach
one. -/
structure Spares (memory : UInt64 → UInt64) (walk : Walk) : Prop where
  kept : ∀ p proc x, s.table p = some proc → InFrame proc.trapFrame x → memory x = s.memory x
  mapped : ∀ p proc x mode satp a, s.table p = some proc → InFrame proc.trapFrame x →
    s.walk mode satp a = some x → walk mode satp a = some x
  hidden : ∀ p proc x satp a, s.table p = some proc → InFrame proc.trapFrame x →
    walk .user satp a ≠ some x

/-- What `Process::Process` makes for a child: a trap frame of its own in a page table of its own. -/
structure Fresh (child : Process) : Prop where
  framed : Framed s.walk child.satp child.trapFrame
  apart : ∀ p proc x, s.table p = some proc → InFrame proc.trapFrame x →
    ¬ InFrame child.trapFrame x
  hidden : ∀ x satp a, InFrame child.trapFrame x → s.walk .user satp a ≠ some x

end System

/-- What a step means to the processes. -/
inductive Act where
  | none
  /-- User code runs. -/
  | compute (p : Nat) (v v' : View)
  /-- `epc` moves behind the instruction. -/
  | skip (p : Nat)
  | assign (p : Nat) (r : Reg) (x : UInt64)
  | jump (p : Nat) (pc : UInt64)
  | fork (p child : Nat)

namespace System

variable (sym : Symbols)

/-- The steps of the machine. -/
inductive Step (s : System) : Act → System → Prop where
  /-- User code changes its registers and the memory it can reach. -/
  | compute (h : UInt64) (p : Nat) (v : View) (memory : UInt64 → UInt64)
    (work : (s.core h).work = .user p)
    (reach : ∀ x, memory x ≠ s.memory x → ∃ a, s.walk .user ((s.core h).hart.csr .satp) a = some x) :
    Step s (.compute p (view (s.core h).hart) v)
      { s.setCore h ⟨resume (s.core h).hart v, .user p⟩ with memory := memory }
  | trap (h : UInt64) (p : Nat) (cause tval : UInt64) (work : (s.core h).work = .user p) :
    Step s .none (s.setCore h ⟨(s.core h).hart.trap cause tval,
      sym.enter p ((s.core h).hart.trap cause tval)⟩)
  | instruction (h : UInt64) (p : Nat) (i : Instr) (is : List Instr)
    (work : (s.core h).work = .block p (i :: is)) : Step s .none (s.instruction h p i is)
  | arrive (h : UInt64) (p : Nat) (work : (s.core h).work = .block p []) :
    Step s .none (s.setWork h (sym.leave p (s.core h).hart))
  | interrupt (h : UInt64) (mode : (s.core h).hart.mode = .supervisor)
    (enabled : (s.core h).hart.csr .sstatus &&& SIE ≠ 0) : Step s .none (s.interrupt sym h)
  | userTrap (h : UInt64) (p : Nat) (work : (s.core h).work = .kernel p .userTrap) :
    Step s (if (s.core h).hart.csr .scause = 0x08 ∨ (s.core h).hart.csr .scause = 0x0F then .skip p
      else .none) (s.userTrap sym h p)
  | current (h : UInt64) (p : Nat) (k : Task) (work : (s.core h).work = .kernel p (.current k)) :
    Step s .none (s.setWork h (.kernel p (.process ((s.core h).hart.regs .tp) k)))
  | lookup (h : UInt64) (p : Nat) (cpu : UInt64) (k : Task)
    (work : (s.core h).work = .kernel p (.process cpu k)) : Step s .none (s.lookup h p cpu k)
  | syscall (h : UInt64) (p q : Nat) (work : (s.core h).work = .kernel p (.found q .syscall)) :
    Step s (if s.unknown q then .assign p .a0 (-1) else .none) (s.syscall h p q)
  /-- The function of a system call sets a register of its process. -/
  | assign (h : UInt64) (p q : Nat) (r : Reg) (x : UInt64)
    (work : (s.core h).work = .kernel p (.handler q)) :
    Step s (.assign p r x) (s.assign h q (offset r) x (.kernel p (.handler q)))
  /-- `exec` sets `epc`. -/
  | jump (h : UInt64) (p q : Nat) (x : UInt64) (work : (s.core h).work = .kernel p (.handler q)) :
    Step s (.jump p x) (s.assign h q epc x (.kernel p (.handler q)))
  /-- `exec` replaces the page table, by one of `makePageTable`. -/
  | replace (h : UInt64) (p q : Nat) (proc : Process) (satp : UInt64)
    (work : (s.core h).work = .kernel p (.handler q)) (here : s.table q = some proc)
    (framed : Framed s.walk satp proc.trapFrame) :
    Step s .none { s with table := Function.update s.table q (some { proc with satp := satp }) }
  /-- `fork` makes a child with a copy of the trap frame, which starts in `returnFork`. -/
  | fork (h : UInt64) (p q c : Nat) (proc child : Process)
    (work : (s.core h).work = .kernel p (.handler q)) (here : s.table q = some proc)
    (new : s.table c = none) (fresh : s.Fresh child) :
    Step s (.fork p c) { s.copyFrame proc.trapFrame child.trapFrame with
      table := Function.update s.table c (some child)
      parked := Function.update s.parked c (some (.current .returnUserTrap)) }
  /-- The function of a system call returns. -/
  | finish (h : UInt64) (p q : Nat) (x : UInt64) (work : (s.core h).work = .kernel p (.handler q)) :
    Step s (.assign p .a0 x)
      (s.assign h q (offset .a0) x (.kernel p (.current .returnUserTrap)))
  | returnUserTrap (h : UInt64) (p q : Nat)
    (work : (s.core h).work = .kernel p (.found q .returnUserTrap)) :
    Step s .none (s.returnUserTrap sym h q)
  /-- C++ code runs, in the scheduler or for a process. -/
  | kernel (h : UInt64) (hart : Hart) (memory : UInt64 → UInt64) (walk : Walk)
    (work : (s.core h).work.Free) (runs : Goes (s.core h).hart hart) (spares : s.Spares memory walk) :
    Step s .none
      { s.setCore h ⟨hart, (s.core h).work⟩ with memory := memory, walk := walk }
  /-- A thread is switched out: it yields in an interrupt, or sleeps. -/
  | park (h : UInt64) (p : Nat) (pc : Pc) (work : (s.core h).work = .kernel p pc)
    (free : pc ≠ .userTrap) :
    Step s .none { s.setWork h .scheduler with
      process := Function.update s.process h none
      parked := Function.update s.parked p (some pc) }
  /-- The scheduler switches a thread in. -/
  | resume (h : UInt64) (p : Nat) (pc : Pc) (work : (s.core h).work = .scheduler)
    (parked : s.parked p = some pc) :
    Step s .none { s.setWork h (.kernel p pc) with
      process := Function.update s.process h (some p)
      parked := Function.update s.parked p none }

end System
end Orfos.Trap
