import Orfos.Base.Guarded
import Orfos.Sched.Machine

/-!
# Sleep locks

`SleepMutex` (`kernel/mutex/sleep_mutex.cpp`) for any number of processes that call `lock` and
`unlock` on one mutex, with the `sleep` that `lock` calls (`kernel/process/sleep.cpp`) written
out. A step is one access between two operations on a spin lock. The scheduler appears as two
kinds of steps: some `wakeup` marks a `Sleeping` process `Ready`, and `run` dispatches a
`Ready` one. `proc->mutex`, which `sleep` holds across the switch, is taken by the process and
by the scheduler only and orders none of the steps below.
-/

namespace Orfos.Mutex

open Orfos.Base Orfos.Sched

/-- The next step of a process in `SleepMutex::lock`, `unlock` or the `sleep` inside `lock`. -/
inductive Place where
  | outside
  | lockAcquire
  | lockTest
  | sleepUnlock
  | sleepChan
  | sleepMark
  | sleepSwitch
  | sleepReturn
  | sleepLock
  | lockTake
  | unlockAcquire
  | unlockClear
  | release
  deriving DecidableEq, Repr

/-- `SleepMutex`, and the processes. `chan p` says whether `Process::chan` is the mutex, and
`holder` is the process whose hart holds `SleepMutex::mutex`. -/
structure SleepMutex where
  locked : Bool
  pid : Nat
  holder : Option Proc
  place : Proc → Place
  state : Proc → ProcessState
  chan : Proc → Bool

/-- What happens next. -/
inductive Action where
  | lock
  | unlock
  | go
  | wakeup
  | dispatch
  deriving DecidableEq, Repr

namespace SleepMutex

/-- Move a process on. -/
def goto (s : SleepMutex) (p : Proc) (l : Place) : SleepMutex :=
  { s with place := Function.update s.place p l }

/-- `SpinMutex::lock` of the inner mutex, once it is free. -/
def acquire (s : SleepMutex) (p : Proc) (l : Place) : Option SleepMutex :=
  if s.holder = none then some ({ s with holder := some p }.goto p l) else none

/-- The next step of a process in the code. -/
def go (s : SleepMutex) (p : Proc) : Option SleepMutex :=
  match s.place p with
  | .outside => none
  | .lockAcquire => s.acquire p .lockTest
  | .lockTest => some (s.goto p (if s.locked then .sleepUnlock else .lockTake))
  | .sleepUnlock => some ({ s with holder := none }.goto p .sleepChan)
  | .sleepChan => some ({ s with chan := Function.update s.chan p true }.goto p .sleepMark)
  | .sleepMark =>
    some ({ s with state := Function.update s.state p .Sleeping }.goto p .sleepSwitch)
  | .sleepSwitch => if s.state p = .Running then some (s.goto p .sleepReturn) else none
  | .sleepReturn => some ({ s with chan := Function.update s.chan p false }.goto p .sleepLock)
  | .sleepLock => s.acquire p .lockTest
  | .lockTake => some ({ s with locked := true, pid := p + 1 }.goto p .release)
  | .unlockAcquire => s.acquire p .unlockClear
  -- `unlock` calls no `wakeup`
  | .unlockClear => some ({ s with locked := false, pid := 0 }.goto p .release)
  | .release => some ({ s with holder := none }.goto p .outside)

/-- One step of a process or of the scheduler. -/
def step (s : SleepMutex) (e : Proc × Action) : Option SleepMutex :=
  match e.2 with
  | .lock => if s.place e.1 = .outside then some (s.goto e.1 .lockAcquire) else none
  | .unlock => if s.place e.1 = .outside then some (s.goto e.1 .unlockAcquire) else none
  | .go => s.go e.1
  | .wakeup =>
    if s.state e.1 = .Sleeping then
      some { s with state := Function.update s.state e.1 .Ready }
    else none
  | .dispatch =>
    if s.state e.1 = .Ready then
      some { s with state := Function.update s.state e.1 .Running }
    else none

/-- A free mutex, and running processes that do not use it yet. -/
def initial : SleepMutex where
  locked := false
  pid := 0
  holder := none
  place _ := .outside
  state _ := .Running
  chan _ := false

/-- A process has found the mutex locked and has not been marked `Ready` since. -/
def Waiting (s : SleepMutex) (p : Proc) : Prop :=
  s.place p = .sleepUnlock ∨ s.place p = .sleepChan ∨ s.place p = .sleepMark ∨
    s.place p = .sleepSwitch ∧ s.state p = .Sleeping

instance (s : SleepMutex) (p : Proc) : Decidable (s.Waiting p) :=
  inferInstanceAs (Decidable (_ ∨ _ ∨ _ ∨ _))

/-- `unlock` clears the flag only while nobody waits. -/
def Uncontended (s : SleepMutex) (e : Proc × Action) : Prop :=
  e.2 = .go → s.place e.1 = .unlockClear → ∀ q, ¬ s.Waiting q

/-- While nobody is in a critical section of the mutex, a process that sleeps on it sleeps
on a locked mutex. -/
def NoneStranded (s : SleepMutex) : Prop :=
  s.holder = none → ∀ p, s.state p = .Sleeping → s.chan p = true → s.locked = true

/-- A waiting process waits for a locked mutex, and a `Sleeping` process is in `sleep`. -/
structure Inv (s : SleepMutex) : Prop where
  waiting : ∀ p, s.Waiting p → s.locked = true
  sleeping : ∀ p, s.state p = .Sleeping → s.place p = .sleepSwitch

variable {s u : SleepMutex} {p : Proc} {l : Place}

/-- A step of one process keeps the invariant if that process is accounted for and the flag
stays set while others wait. -/
private theorem Inv.of_others (hs : Inv s)
    (hothers : ∀ q, q ≠ p → u.place q = s.place q ∧ u.state q = s.state q)
    (hlocked : ∀ q, s.Waiting q → u.locked = true) (hwaiting : u.Waiting p → u.locked = true)
    (hsleeping : u.state p = .Sleeping → u.place p = .sleepSwitch) : Inv u := by
  refine ⟨fun q hq ↦ ?_, fun q hq ↦ ?_⟩
  · by_cases hqp : q = p
    · subst q
      exact hwaiting hq
    · obtain ⟨hplace, hstate⟩ := hothers q hqp
      rw [Waiting, hplace, hstate] at hq
      exact hlocked q hq
  · by_cases hqp : q = p
    · subst q
      exact hsleeping hq
    · obtain ⟨hplace, hstate⟩ := hothers q hqp
      rw [hplace]
      exact hs.sleeping q (hstate ▸ hq)

/-- A process outside the switch of `sleep` is not `Sleeping`. -/
private theorem Inv.awake (hs : Inv s) (hl : s.place p = l) (hne : l ≠ .sleepSwitch) :
    s.state p ≠ .Sleeping :=
  fun h ↦ hne (hl.symm.trans (hs.sleeping p h))

/-- A step of the code keeps the invariant. -/
private theorem Inv.go (hs : Inv s) (hc : s.place p = .unlockClear → ∀ q, ¬ s.Waiting q)
    (hu : s.go p = some u) : Inv u := by
  have hothers : ∀ q, q ≠ p → u.place q = s.place q ∧ u.state q = s.state q := by
    intro q hq
    unfold SleepMutex.go acquire at hu
    split at hu <;> (try split at hu) <;> cases hu <;> simp [goto, hq]
  refine hs.of_others hothers (fun q hq ↦ ?_) (fun hw ↦ ?_) fun hsl ↦ ?_
  · have hlocked := hs.waiting q hq
    unfold SleepMutex.go acquire at hu
    split at hu
    case h_12 hplace => exact absurd hq (hc hplace q)
    all_goals (try split at hu) <;> cases hu <;> first | exact hlocked | rfl
  · unfold SleepMutex.go acquire at hu
    split at hu
    case h_3 hplace =>
      -- the process waits exactly if it has seen the flag set
      cases hu
      by_cases hl : s.locked = true
      · exact hl
      · simp [goto, Waiting, hl] at hw
    case h_4 hplace =>
      cases hu
      exact hs.waiting p (.inl hplace)
    case h_5 hplace =>
      cases hu
      exact hs.waiting p (.inr (.inl hplace))
    case h_6 hplace =>
      cases hu
      exact hs.waiting p (.inr (.inr (.inl hplace)))
    all_goals (try split at hu) <;> cases hu <;> simp [goto, Waiting] at hw
  · unfold SleepMutex.go acquire at hu
    split at hu
    case h_6 hplace =>
      cases hu
      simp [goto]
    case h_7 hplace =>
      split at hu
      · next hrun =>
        cases hu
        rw [goto] at hsl
        rw [hrun] at hsl
        cases hsl
      · cases hu
    all_goals
      next hplace =>
      exfalso
      refine hs.awake hplace (by simp) ?_
      (try split at hu) <;> cases hu <;> exact hsl

/-- Every step keeps the invariant if `unlock` clears the flag only while nobody waits. -/
theorem Inv.step {e : Proc × Action} (hs : Inv s) (hc : Uncontended s e)
    (hu : s.step e = some u) : Inv u := by
  obtain ⟨p, a⟩ := e
  cases a with
  | go => exact hs.go (hc rfl) hu
  | lock =>
    simp only [SleepMutex.step] at hu
    split at hu
    · next hplace =>
      cases hu
      refine hs.of_others (p := p) (fun q hq ↦ by simp [goto, hq]) hs.waiting ?_ ?_
      · simp [goto, Waiting]
      · exact fun h ↦ absurd h (hs.awake hplace (by simp))
    · cases hu
  | unlock =>
    simp only [SleepMutex.step] at hu
    split at hu
    · next hplace =>
      cases hu
      refine hs.of_others (p := p) (fun q hq ↦ by simp [goto, hq]) hs.waiting ?_ ?_
      · simp [goto, Waiting]
      · exact fun h ↦ absurd h (hs.awake hplace (by simp))
    · cases hu
  | wakeup =>
    simp only [SleepMutex.step] at hu
    split at hu
    · next hstate =>
      cases hu
      refine hs.of_others (p := p) (fun q hq ↦ by simp [hq]) hs.waiting ?_ ?_
      · simp [Waiting, hs.sleeping p hstate]
      · simp
    · cases hu
  | dispatch =>
    simp only [SleepMutex.step] at hu
    split at hu
    · cases hu
      refine hs.of_others (p := p) (fun q hq ↦ by simp [hq]) hs.waiting ?_ ?_
      · intro hw
        refine hs.waiting p (hw.imp id (.imp id (.imp id fun h ↦ ?_)))
        simp at h
      · simp
    · cases hu

/-- No process is stranded on a free mutex, in any run in which `unlock` clears the flag only
while no process waits for the mutex. -/
theorem none_stranded_of_uncontended (hrun : Run step Uncontended initial s) :
    NoneStranded s := by
  have hs : Inv s := hrun.invariant ⟨fun p hp ↦ by simp [initial, Waiting] at hp,
    fun p hp ↦ by simp [initial] at hp⟩ fun _ _ _ hs hc hu ↦ hs.step hc hu
  intro _ p hp _
  exact hs.waiting p (.inr (.inr (.inr ⟨hs.sleeping p hp, hp⟩)))

/-- The steps of a process that takes the free mutex. -/
def locks (p : Proc) : List (Proc × Action) := (p, .lock) :: List.replicate 4 (p, .go)

/-- The steps of a process that finds the mutex locked and goes to sleep. -/
def waits (p : Proc) : List (Proc × Action) := (p, .lock) :: List.replicate 5 (p, .go)

/-- The steps of a process that gives the mutex back. -/
def unlocks (p : Proc) : List (Proc × Action) := (p, .unlock) :: List.replicate 3 (p, .go)

/-- No step of the list clears the flag. -/
private def Keeps (s : SleepMutex) (e : Proc × Action) : Prop := s.place e.1 ≠ .unlockClear

private instance (s : SleepMutex) (e : Proc × Action) : Decidable (Keeps s e) :=
  inferInstanceAs (Decidable (_ ≠ _))

/-- Process 1 sleeps on the mutex that process 0 has taken. -/
theorem none_stranded_while_held :
    ∃ s, Run step Uncontended initial s ∧ s.holder = none ∧ s.state 1 = .Sleeping ∧
      s.chan 1 = true ∧ s.locked = true ∧ NoneStranded s := by
  have hkeeps : Run step Keeps initial (final step initial (locks 0 ++ waits 1)) :=
    run_final (by decide) (by decide)
  have hrun : Run step Uncontended initial _ :=
    hkeeps.mono fun _ _ h _ hplace ↦ absurd hplace h
  exact ⟨_, hrun, by decide, by decide, by decide, by decide, none_stranded_of_uncontended hrun⟩

/-- Process 0 unlocks the mutex that process 1 sleeps on. Nobody wakes process 1. -/
theorem stranded_after_unlock :
    ∃ s, Run step (fun _ _ ↦ True) initial s ∧ ¬ NoneStranded s := by
  have hrun : Run step (fun _ _ ↦ True) initial
      (final step initial (locks 0 ++ waits 1 ++ unlocks 0)) :=
    run_final (by decide) (by decide)
  refine ⟨_, hrun, fun h ↦ ?_⟩
  exact absurd (h (by decide) 1 (by decide) (by decide)) (by decide)

end SleepMutex
end Orfos.Mutex
