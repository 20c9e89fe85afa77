import Orfos.Base.Guarded
import Orfos.Lib.HashTable

/-!
# Processes, harts and the scheduler

The scheduler (`kernel/process/scheduler.cpp`), `yield`, `sleep` and `wakeup`
(`kernel/process/sleep.cpp`) and `fork`, `exit` and `wait` (`kernel/process/process.cpp`) as
one step relation. A step of a hart acquires or releases a spin lock, or is one access
between such operations. The code that a thread still has to execute is a list of steps;
each hart has a thread for `Scheduler::run` and each process has one for its kernel stack.
`switchContext` changes the thread that the hart executes, and the code of the other thread
is its saved context.

Processes, harts and locks are numbers; memory of a deleted object is never reused
(`kernel/lib/new.cpp`). A loop over the list of a channel visits the processes that were in
the list when the loop started, since the list is never freed and only grows at its end. A
failed assertion leaves the hart without a step, as `panic` does.
-/

namespace Orfos.Sched

open Orfos.Lib

/-- `ProcessState`, `kernel/process/process.h`. -/
inductive ProcessState where
  | Used | Sleeping | Ready | Running | Zombie
  deriving DecidableEq, Repr

/-- A `Process` object. -/
abbrev Proc : Type := Nat

/-- A hart, by `tp`. -/
abbrev Hart : Type := Nat

/-- The address that a process sleeps on. -/
inductive Chan where
  | null
  | process (p : Proc)
  | object (n : Nat)
  deriving DecidableEq, Repr

/-- The spin locks: `Scheduler::mutex`, `Process::mutex`, `waitMutex`, and the locks that are
passed to `sleep` or held around `wakeup`. -/
inductive Lock where
  | sched
  | process (p : Proc)
  | wait
  | condition (m : Nat)
  deriving DecidableEq, Repr

/-- A flow of control: `Scheduler::run` on a hart, or the kernel side of a process. -/
inductive Thread where
  | sched (h : Hart)
  | proc (p : Proc)
  deriving DecidableEq, Repr

/-- The call of `registerProcess` that an enrolment belongs to. -/
inductive Site where
  | fork | reschedule | wakeup | run | requeue
  deriving DecidableEq, Repr

/-- One step of the code. -/
inductive Instr where
  | lock (l : Lock)
  | unlock (l : Lock)
  | enroll (site : Site) (p : Proc)
  | remove (p : Proc)
  | reschedule
  | switchBack (p : Proc)
  | restore (h : Hart) (interruptEnabled : Bool)
  | iterate (c : Chan)
  | wake (c : Chan) (p : Proc)
  | erase (c : Chan)
  | enable
  | pop
  | check (p : Proc)
  | kill (p : Proc)
  | markRunning (p : Proc)
  | switchTo (p : Proc)
  | clearProcess
  | markReady (p : Proc)
  | markSleeping (p : Proc)
  | setChan (p : Proc) (c : Chan)
  | addChild (p q : Proc)
  | forkReady (q : Proc)
  | reparent (p : Proc)
  | setParent (q : Proc)
  | wakeParent (p : Proc)
  | markZombie (p : Proc) (status : Int)
  | waitLoop (p : Proc)
  | scanChildren (p : Proc) (i : Nat)
  | testChild (p : Proc) (i : Nat) (q : Proc)
  | returnFork
  | user
  | critical (m : Nat)
  | sret
  | panic
  deriving DecidableEq, Repr

/-- The fields of a `Process` that the scheduling code uses. -/
structure Process where
  state : ProcessState
  chan : Chan
  parent : Option Proc
  children : List Proc
  exitStatus : Int

/-- `Cpu`, `kernel/process/cpu.h`, with the `SIE` bit and the executed thread of the hart. -/
structure Cpu where
  process : Option Proc
  numLocks : Nat
  interruptEnabled : Bool
  sie : Bool
  current : Thread

/-- The whole machine. -/
structure State where
  process : Proc → Process
  holder : Lock → Option Hart
  readyQueue : List Proc
  sleepTable : Table Chan (List Proc)
  cpu : Hart → Cpu
  code : Thread → List Instr
  next : Proc
  initProc : Proc

/-- What the code of a process does next, and the trap handlers. -/
inductive Event where
  | go
  | lock (m : Nat)
  | leave
  | yield
  | sleep (c : Chan)
  | wakeup (c : Chan)
  | fork
  | exit (status : Int)
  | wait
  | copyout (ok : Bool)
  | timer
  | device (m : Nat) (c : Chan)
  deriving DecidableEq, Repr

open Instr

/-- `Scheduler::registerProcess`. -/
def registerProcess (site : Site) (p : Proc) : List Instr :=
  [lock .sched, enroll site p, unlock .sched]

/-- `Scheduler::unregisterProcess`. -/
def unregisterProcess (p : Proc) : List Instr :=
  [lock .sched, remove p, unlock .sched]

/-- `yield` of a hart that runs process `p`. -/
def yield (p : Proc) : List Instr :=
  [lock (.process p)] ++ unregisterProcess p ++ [markReady p, reschedule, unlock (.process p)]

/-- `sleep` of a hart that runs process `p`. -/
def sleep (p : Proc) (c : Chan) (m : Lock) : List Instr :=
  [lock (.process p), unlock m, setChan p c, markSleeping p, reschedule,
    setChan p .null, unlock (.process p), lock m]

/-- A round of the loop in `Scheduler::wakeup`. -/
def wakeRound (c : Chan) (p : Proc) : List Instr :=
  [lock (.process p), wake c p, unlock .sched] ++ registerProcess .wakeup p ++
    [lock .sched, unlock (.process p)]

/-- `Scheduler::wakeup`. -/
def wakeup (c : Chan) : List Instr :=
  [lock .sched, iterate c, erase c, unlock .sched]

/-- The inner loop of `Scheduler::run`. -/
def scan : List Instr := [lock .sched, pop]

/-- `Scheduler::run`. -/
def run : List Instr := enable :: scan

/-- `Scheduler::run` after the switch back from process `p`. -/
def afterSwitch (p : Proc) : List Instr :=
  [clearProcess, unlock (.process p)] ++ registerProcess .run p ++ scan

/-- `Scheduler::run` with a popped process that it has seen `Ready`. -/
def dispatch (p : Proc) : List Instr :=
  [lock (.process p), markRunning p, switchTo p] ++ afterSwitch p

/-- The part of `Process::fork` that other code can see, for the child `q`. -/
def fork (p q : Proc) : List Instr :=
  [lock .wait, addChild p q, unlock .wait, lock (.process q), forkReady q,
    unlock (.process q)] ++ registerProcess .fork q

/-- `Process::exit` once the files are closed. -/
def exit (p : Proc) (status : Int) : List Instr :=
  [lock .wait, reparent p, wakeParent p, lock (.process p), markZombie p status,
    unlock .wait, reschedule, panic]

/-- A round of the loop in `Process::reparent`. -/
def reparentRound (initProc q : Proc) : List Instr :=
  [lock (.process q), setParent q] ++ wakeup (.process initProc) ++ [unlock (.process q)]

/-- `Process::wait`. -/
def wait (p : Proc) : List Instr := [lock .wait, waitLoop p]

/-- `SpinMutex::push`. -/
def Cpu.push (c : Cpu) : Cpu :=
  { c with
    interruptEnabled := if c.numLocks = 0 then c.sie else c.interruptEnabled
    sie := false
    numLocks := c.numLocks + 1 }

/-- `SpinMutex::pop`. -/
def Cpu.pop (c : Cpu) : Cpu :=
  { c with
    numLocks := c.numLocks - 1
    sie := c.sie || (c.numLocks - 1 == 0 && c.interruptEnabled) }

namespace State

/-- Change the fields of a process. -/
def setProcess (s : State) (p : Proc) (f : Process → Process) : State :=
  { s with process := Function.update s.process p (f (s.process p)) }

/-- Change `Process::state`. -/
def setState (s : State) (p : Proc) (st : ProcessState) : State :=
  s.setProcess p fun x ↦ { x with state := st }

/-- Change the fields of a hart. -/
def setCpu (s : State) (h : Hart) (f : Cpu → Cpu) : State :=
  { s with cpu := Function.update s.cpu h (f (s.cpu h)) }

/-- Change the code that a thread still has to execute. -/
def setCode (s : State) (t : Thread) (k : List Instr) : State :=
  { s with code := Function.update s.code t k }

/-- The processes in the list of a channel. -/
def sleepers (s : State) (c : Chan) : List Proc := (s.sleepTable.lookup c).getD []

/-- `SpinMutex::lock`, once the lock is free. -/
def acquire (s : State) (h : Hart) (l : Lock) : State :=
  { s with holder := Function.update s.holder l (some h) }.setCpu h Cpu.push

/-- `SpinMutex::unlock`. -/
def release (s : State) (h : Hart) (l : Lock) : State :=
  { s with holder := Function.update s.holder l none }.setCpu h Cpu.pop

/-- The `switch` of `registerProcess`. -/
def enroll (s : State) (p : Proc) : State :=
  match (s.process p).state with
  | .Used | .Running | .Zombie => s
  | .Ready => { s with readyQueue := s.readyQueue ++ [p] }
  | .Sleeping =>
    { s with sleepTable :=
        (s.sleepTable.touch (s.process p).chan).update (s.process p).chan (· ++ [p]) }

end State

/-- A step other than a free choice: the state after it, and the code it unfolds to. -/
@[simp] def exec (s : State) (h : Hart) : Instr → Option (State × List Instr)
  | .lock l => if s.holder l = none then some (s.acquire h l, []) else none
  | .unlock l => if s.holder l = some h then some (s.release h l, []) else none
  | .enroll _ p => some (s.enroll p, [])
  | .remove p => some ({ s with readyQueue := s.readyQueue.filter (· ≠ p) }, [])
  | .reschedule =>
    match (s.cpu h).process with
    | none => none
    | some p =>
      if s.holder (.process p) = some h ∧ (s.cpu h).numLocks = 1 ∧
          (s.process p).state ≠ .Running ∧ (s.cpu h).sie = false then
        some (s, registerProcess .reschedule p ++
          [switchBack p, restore h (s.cpu h).interruptEnabled])
      else none
  | .switchBack _ => some (s.setCpu h fun c ↦ { c with current := .sched h }, [])
  -- `cpu` is the `Cpu` of the hart that called `reschedule`
  | .restore h' flag => some (s.setCpu h' fun c ↦ { c with interruptEnabled := flag }, [])
  | .iterate c =>
    some ({ s with sleepTable := s.sleepTable.touch c },
      (s.sleepers c).flatMap (wakeRound c))
  | .wake _ p => some (s.setState p .Ready, [])
  | .erase c => some ({ s with sleepTable := s.sleepTable.erase c }, [])
  | .enable => some (s.setCpu h fun c ↦ { c with sie := true }, [])
  | .pop =>
    match s.readyQueue with
    | [] => some (s, unlock .sched :: run)
    | p :: ps => some ({ s with readyQueue := ps }, [unlock .sched, check p])
  | .check p =>
    match (s.process p).state with
    | .Ready => some (s, dispatch p)
    | .Zombie => some (s, kill p :: run)
    | .Used | .Sleeping | .Running => some (s, registerProcess .requeue p ++ run)
  | .kill p => if (s.process p).state = .Zombie then some (s, []) else none
  | .markRunning p => some (s.setState p .Running, [])
  | .switchTo p => some (s.setCpu h fun c ↦ { c with process := some p, current := .proc p }, [])
  | .clearProcess => some (s.setCpu h fun c ↦ { c with process := none }, [])
  | .markReady p => some (s.setState p .Ready, [])
  | .markSleeping p => some (s.setState p .Sleeping, [])
  | .setChan p c => some (s.setProcess p fun x ↦ { x with chan := c }, [])
  | .addChild p q =>
    some ((s.setProcess q fun x ↦ { x with parent := some p }).setProcess p
      fun x ↦ { x with children := x.children ++ [q] }, [])
  | .forkReady q => some (s.setState q .Ready, [])
  | .reparent p => some (s, (s.process p).children.flatMap (reparentRound s.initProc))
  | .setParent q => some (s.setProcess q fun x ↦ { x with parent := some s.initProc }, [])
  | .wakeParent p =>
    some (s, wakeup (match (s.process p).parent with | none => .null | some q => .process q))
  | .markZombie p status =>
    some (s.setProcess p fun x ↦ { x with exitStatus := status, state := .Zombie }, [])
  | .waitLoop p =>
    if (s.process p).children = [] then some (s, [unlock .wait]) else some (s, [scanChildren p 0])
  | .scanChildren p i =>
    match (s.process p).children[i]? with
    | some q => some (s, [lock (.process q), testChild p i q])
    | none => some (s, sleep p (.process p) .wait ++ [waitLoop p])
  | .testChild p i q =>
    if (s.process q).state = .Zombie then none
    else some (s, [unlock (.process q), scanChildren p (i + 1)])
  | .returnFork =>
    match (s.cpu h).process with
    | none => none
    | some p => some (s, [unlock (.process p)])
  | .sret => some (s.setCpu h fun c ↦ { c with sie := true }, [])
  | .user | .critical _ | .panic => none

/-- What the code of process `p` may do next outside the scheduling code, what it may do
while it holds a condition lock, and the two ends of `wait` for a zombie child. -/
@[simp] def choose (s : State) (h : Hart) (p : Proc) : Instr → Event → Option (State × List Instr)
  | .user, .lock m =>
    some (s.setCpu h fun c ↦ { c with sie := true },
      [lock (.condition m), critical m, user])
  | .user, .yield => some (s.setCpu h fun c ↦ { c with sie := false }, yield p ++ [user])
  | .user, .wakeup c => some (s.setCpu h fun c ↦ { c with sie := true }, wakeup c ++ [user])
  | .user, .fork =>
    some ({ s.setCpu h fun c ↦ { c with sie := true } with next := s.next + 1 },
      fork p s.next ++ [user])
  | .user, .exit status =>
    some (s.setCpu h fun c ↦ { c with sie := true }, exit p status ++ [user])
  | .user, .wait => some (s.setCpu h fun c ↦ { c with sie := true }, wait p ++ [user])
  | .critical m, .sleep c => some (s, sleep p c (.condition m) ++ [critical m])
  | .critical m, .wakeup c => some (s, wakeup c ++ [critical m])
  | .critical m, .leave => some (s, [unlock (.condition m)])
  | .testChild p i q, .copyout ok =>
    if (s.process q).state = .Zombie then
      some (if ok then s.setProcess p fun x ↦ { x with children := x.children.eraseIdx i } else s,
        [unlock (.process q), unlock .wait])
    else none
  | _, _ => none

/-- The handler of an interrupt. A hart without a process ignores the timer. -/
def handler (s : State) (h : Hart) : Event → Option (List Instr)
  | .timer =>
    match (s.cpu h).process with
    | none => some []
    | some p => some (yield p)
  | .device m c => some ([lock (.condition m)] ++ wakeup c ++ [unlock (.condition m)])
  | _ => none

/-- The first step of the code of a thread, which may be a free choice. -/
def unfold (s : State) (h : Hart) (i : Instr) : Event → Option (State × List Instr)
  | .go => exec s h i
  | e => (s.cpu h).process.bind fun p ↦ choose s h p i e

/-- One step of a hart: an interrupt, or the first step of the code of its thread. -/
def step (s : State) (e : Hart × Event) : Option State :=
  match handler s e.1 e.2 with
  | some k =>
    if (s.cpu e.1).sie then
      some ((s.setCpu e.1 fun c ↦ { c with sie := false }).setCode (s.cpu e.1).current
        (k ++ sret :: s.code (s.cpu e.1).current))
    else none
  | none =>
    match s.code (s.cpu e.1).current with
    | [] => none
    | i :: k => (unfold s e.1 i e.2).map fun r ↦ r.1.setCode (s.cpu e.1).current (r.2 ++ k)

/-- The machine when `n` harts enter `Scheduler::run`, with process 0 as `initProc`. -/
def boot (n : Nat) (bucket : Chan → Nat) : State where
  process p := ⟨if p = 0 then .Ready else .Used, .null, none, [], 0⟩
  holder _ := none
  readyQueue := [0]
  sleepTable := Table.empty bucket
  cpu h := ⟨none, 0, false, false, .sched h⟩
  code
    | .sched h => if h < n then run else []
    | .proc _ => [returnFork, user]
  next := 1
  initProc := 0

end Orfos.Sched
