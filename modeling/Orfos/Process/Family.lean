import Orfos.Base.Guarded
import Orfos.Sched.Machine

/-!
# Parents and children

`fork`, `exit` and `wait` of `kernel/process/process.cpp` and the system call around `wait`.
The fields that relate processes are accessed under `waitMutex` only, so a step is one critical
section of it: the one of `fork`, the one of `exit`, and a round of the loop of `wait`, which
gives the lock back while it sleeps. The scheduler moves a process between the other states at
any time. Pids do not wrap around.

The children that `wait` has removed and what its calls have returned are kept as a history.
-/

namespace Orfos.Family

open Orfos.Base
open Orfos.Sched (Proc ProcessState)

/-- The fields of a `Process` that `fork`, `exit` and `wait` use. -/
structure Process where
  pid : Nat
  parent : Option Proc
  children : List Proc
  state : ProcessState
  exitStatus : Int32

/-- A call of the system call `wait` that has returned: the processes before and after the last
round of its loop, whether `copyout` was called and failed, what it copied, and the result. -/
structure Return where
  caller : Proc
  address : UInt64
  before : Proc → Process
  after : Proc → Process
  copyoutFailed : Bool
  copied : Option Int32
  value : Int

/-- The processes below `next`. `waiting` gives the argument of a process inside `wait`. -/
structure State where
  process : Proc → Process
  next : Nat
  nextPid : Nat
  waiting : Proc → Option UInt64
  reaped : List Proc
  returns : List Return

/-- `initProc`. -/
abbrev initProc : Proc := 0

/-- What happens next. `round` carries whether a `copyout` would succeed. -/
inductive Event where
  | fork
  | exit (status : Int32)
  | wait (address : UInt64)
  | round (ok : Bool)
  | schedule (state : ProcessState)
  deriving DecidableEq

namespace State

/-- Change the fields of a process. -/
def setProcess (s : State) (p : Proc) (f : Process → Process) : State :=
  { s with process := Function.update s.process p (f (s.process p)) }

/-- `Process::fork`. -/
def fork (s : State) (p : Proc) : State :=
  let q := s.next
  { s.setProcess q fun _ ↦ ⟨s.nextPid, some p, [], .Ready, 0⟩ with
    next := s.next + 1
    nextPid := s.nextPid + 1 }.setProcess p fun x ↦ { x with children := x.children ++ [q] }

/-- `Process::reparent`. It leaves the list of children alone. -/
def reparent (s : State) (p : Proc) : State :=
  { s with process := fun c ↦
      if c ∈ (s.process p).children then { s.process c with parent := some initProc }
      else s.process c }

/-- `Process::exit`. -/
def exit (s : State) (p : Proc) (status : Int32) : State :=
  (s.reparent p).setProcess p fun x ↦ { x with exitStatus := status, state := .Zombie }

/-- The `for` loop of `Process::wait`: the first `Zombie`, with the children before and after
it. -/
def findZombie (s : State) : List Proc → Option (List Proc × Proc × List Proc)
  | [] => none
  | c :: cs =>
    if (s.process c).state = .Zombie then some ([], c, cs)
    else (s.findZombie cs).map fun r ↦ (c :: r.1, r.2)

end State

/-- A `return` of `Process::wait`, whose result is a `bool`. -/
def returnBool (n : Int) : Bool := n ≠ 0

/-- The system call `wait`, `kernel/syscall/wait.cpp`. -/
def syscall (result : Bool) : Int := if result then 0 else -1

namespace State

/-- A call of process `p` returns. -/
def finish (s u : State) (p : Proc) (address : UInt64) (copyoutFailed : Bool)
    (copied : Option Int32) (result : Bool) : State :=
  { u with
    waiting := Function.update u.waiting p none
    returns := u.returns ++
      [⟨p, address, s.process, u.process, copyoutFailed, copied, syscall result⟩] }

/-- `children.erase` in `Process::wait`, which leaves `rest`. -/
def reap (s : State) (p c : Proc) (rest : List Proc) : State :=
  { s.setProcess p fun x ↦ { x with children := rest } with reaped := s.reaped ++ [c] }

/-- A round of the loop of `Process::wait`. -/
def round (s : State) (p : Proc) (address : UInt64) (ok : Bool) : State :=
  if (s.process p).children = [] then
    finish s s p address false none (returnBool (-1))
  else
    match s.findZombie (s.process p).children with
    | none => s
    | some (l, c, r) =>
      if address ≠ 0 ∧ ¬ ok then
        finish s s p address true none (returnBool (-1))
      else
        -- `child` is a reference to the slot of the vector that `erase` has moved the next
        -- pointer into; the slot of the last one keeps its pointer
        let slot := r.headD c
        finish s (s.reap p c (l ++ r)) p address false
          (if address ≠ 0 then some (s.process c).exitStatus else none)
          (returnBool (s.process slot).pid)

end State

/-- One step. A process acts while it is no `Zombie`, and inside `wait` only by rounds. -/
def step (s : State) (e : Proc × Event) : Option State :=
  if e.1 < s.next ∧ (s.process e.1).state ≠ .Zombie then
    match s.waiting e.1, e.2 with
    | none, .fork => some (s.fork e.1)
    | none, .exit status => some (s.exit e.1 status)
    | none, .wait address =>
      some { s with waiting := Function.update s.waiting e.1 (some address) }
    | some address, .round ok => some (s.round e.1 address ok)
    | _, .schedule st =>
      if st ≠ .Zombie then some (s.setProcess e.1 fun x ↦ { x with state := st }) else none
    | _, _ => none
  else none

/-- The initial process alone. -/
def initial : State where
  process p := ⟨if p = initProc then 1 else 0, none, [], .Used, 0⟩
  next := 1
  nextPid := 2
  waiting _ := none
  reaped := []
  returns := []

/-- What the caller of `wait` may expect: a call that reports success has removed one child, a
`Zombie`, and reports its pid and status, and a call without children or with a failed `copyout`
reports a failure and removes none. -/
structure Return.Meets (x : Return) : Prop where
  success : x.value ≠ -1 → ∃ l c r, (x.before x.caller).children = l ++ c :: r ∧
    (x.after x.caller).children = l ++ r ∧ (x.before c).state = .Zombie ∧
    x.value = (x.before c).pid ∧ (x.address ≠ 0 → x.copied = some (x.before c).exitStatus)
  failure : (x.before x.caller).children = [] ∨ x.copyoutFailed = true →
    x.value = -1 ∧ (x.after x.caller).children = (x.before x.caller).children

/-- The child lists and the parent pointers agree, and an exited process is the parent of none
that is still to be reaped. -/
def Consistent (s : State) : Prop :=
  (∀ c p, (s.process p).children.count c = 1 ↔
    (s.process c).parent = some p ∧ c ∉ s.reaped) ∧
  ∀ c p, p ≠ initProc → (s.process p).state = .Zombie → (s.process c).parent = some p →
    c ∈ s.reaped

/-- A process other than `initProc` exits only without children. -/
def childless (s : State) (e : Proc × Event) : Bool :=
  match e.2 with
  | .exit _ => (s.process e.1).children = [] ∨ e.1 = initProc
  | _ => true

section

variable {s u : State} {p c : Proc} {l r : List Proc} {address : UInt64} {ok : Bool}

theorem findZombie_some {cs : List Proc} (h : s.findZombie cs = some (l, c, r)) :
    cs = l ++ c :: r ∧ (s.process c).state = .Zombie := by
  induction cs generalizing l with
  | nil => cases h
  | cons x cs ih =>
    unfold State.findZombie at h
    split at h
    · next hx =>
      cases h
      exact ⟨rfl, hx⟩
    · obtain ⟨⟨l', c', r'⟩, hr, heq⟩ := Option.map_eq_some_iff.mp h
      cases heq
      obtain ⟨rfl, hz⟩ := ih hr
      exact ⟨rfl, hz⟩

/-- What a round of `wait` can do: it sleeps, it fails, or it takes out a `Zombie`. -/
theorem round_cases (s : State) (p : Proc) (address : UInt64) (ok : Bool) :
    s.round p address ok = s ∨
    (∃ failed, ((s.process p).children = [] ∨ failed = true) ∧
      s.round p address ok = State.finish s s p address failed none true) ∨
    ∃ l c r copied, (s.process p).children = l ++ c :: r ∧ (s.process c).state = .Zombie ∧
      s.round p address ok =
        State.finish s (s.reap p c (l ++ r)) p address false copied
          (returnBool (s.process (r.headD c)).pid) := by
  unfold State.round
  split
  · next hc => exact .inr (.inl ⟨false, .inl hc, rfl⟩)
  · split
    · exact .inl rfl
    · next l c r hz =>
      obtain ⟨hc, hzombie⟩ := findZombie_some hz
      split
      · exact .inr (.inl ⟨true, .inr rfl, rfl⟩)
      · exact .inr (.inr ⟨l, c, r, _, hc, hzombie, rfl⟩)

/-- What a step can do. -/
theorem step_cases {e : Event} (hu : step s (p, e) = some u) :
    p < s.next ∧ (s.process p).state ≠ .Zombie ∧
    (u = s.fork p ∨ (∃ status, e = .exit status ∧ u = s.exit p status) ∨
      (∃ w, u = { s with waiting := w }) ∨ (∃ address ok, u = s.round p address ok) ∨
      ∃ st, st ≠ .Zombie ∧ u = s.setProcess p fun x ↦ { x with state := st }) := by
  unfold step at hu
  split at hu
  · next hp =>
    refine ⟨hp.1, hp.2, ?_⟩
    split at hu
    · cases hu
      exact .inl rfl
    · next he =>
      cases hu
      exact .inr (.inl ⟨_, he, rfl⟩)
    · cases hu
      exact .inr (.inr (.inl ⟨_, rfl⟩))
    · cases hu
      exact .inr (.inr (.inr (.inl ⟨_, _, rfl⟩)))
    · split at hu
      · next hst =>
        cases hu
        exact .inr (.inr (.inr (.inr ⟨_, hst, rfl⟩)))
      · cases hu
    · cases hu
  · cases hu

section Fields

theorem process_setProcess (s : State) (p c : Proc) (f : Process → Process) :
    (s.setProcess p f).process c = if c = p then f (s.process p) else s.process c :=
  Function.update_apply ..

theorem process_fork (hp : p < s.next) (c : Proc) :
    (s.fork p).process c =
      if c = p then { s.process p with children := (s.process p).children ++ [s.next] }
      else if c = s.next then ⟨s.nextPid, some p, [], .Ready, 0⟩ else s.process c := by
  have hne : p ≠ s.next := Nat.ne_of_lt hp
  simp [State.fork, process_setProcess, hne]

theorem process_exit (status : Int32) (c : Proc) :
    ((s.exit p status).process c).pid = (s.process c).pid ∧
    ((s.exit p status).process c).children = (s.process c).children ∧
    ((s.exit p status).process c).parent =
      (if c ∈ (s.process p).children then some initProc else (s.process c).parent) ∧
    ((s.exit p status).process c).state = if c = p then .Zombie else (s.process c).state := by
  by_cases hc : c = p
  · subst hc
    by_cases hm : c ∈ (s.process c).children <;>
      simp [State.exit, State.reparent, State.setProcess, hm]
  · by_cases hm : c ∈ (s.process p).children <;>
      simp [State.exit, State.reparent, State.setProcess, hc, hm]

theorem process_reap (rest : List Proc) (q : Proc) :
    (s.reap p c rest).process q =
      if q = p then { s.process p with children := rest } else s.process q :=
  Function.update_apply ..

end Fields

/-- Every process has a pid, and children are processes. -/
structure Numbered (s : State) : Prop where
  pid : ∀ c < s.next, 0 < (s.process c).pid
  next : 0 < s.nextPid
  child : ∀ p, ∀ c ∈ (s.process p).children, c < s.next

/-- Every step keeps the numbering. -/
theorem Numbered.step {e : Proc × Event} (hs : Numbered s) (hu : step s e = some u) :
    Numbered u := by
  obtain ⟨p, e⟩ := e
  obtain ⟨hp, -, rfl | ⟨status, -, rfl⟩ | ⟨w, rfl⟩ | ⟨address, ok, rfl⟩ | ⟨st, -, rfl⟩⟩ :=
    step_cases hu
  · refine ⟨fun c hc ↦ ?_, Nat.succ_pos _, fun q c hc ↦ ?_⟩
    · rw [process_fork hp]
      split
      · exact hs.pid p hp
      · split
        · exact hs.next
        · next hne => exact hs.pid c (Nat.lt_of_le_of_ne (Nat.le_of_lt_succ hc) hne)
    · rw [process_fork hp] at hc
      split at hc
      · rcases List.mem_append.mp hc with hc | hc
        · exact Nat.lt_succ_of_lt (hs.child p c hc)
        · exact List.mem_singleton.mp hc ▸ Nat.lt_succ_self _
      · split at hc
        · cases hc
        · exact Nat.lt_succ_of_lt (hs.child q c hc)
  · refine ⟨fun c hc ↦ ?_, hs.next, fun q c hc ↦ ?_⟩
    · rw [(process_exit status c).1]
      exact hs.pid c hc
    · rw [(process_exit status q).2.1] at hc
      exact hs.child q c hc
  · exact ⟨hs.pid, hs.next, hs.child⟩
  · rcases round_cases s p address ok with heq | ⟨failed, -, heq⟩ | ⟨l, c, r, copied, hc, -, heq⟩
    · rwa [heq]
    · rw [heq]
      exact ⟨hs.pid, hs.next, hs.child⟩
    · rw [heq]
      refine ⟨fun x hx ↦ ?_, hs.next, fun q x hx ↦ ?_⟩
      · change 0 < ((s.reap p c (l ++ r)).process x).pid
        rw [process_reap]
        split
        · exact hs.pid p hp
        · exact hs.pid x hx
      · change x ∈ ((s.reap p c (l ++ r)).process q).children at hx
        rw [process_reap] at hx
        split at hx
        · refine hs.child p x ?_
          rw [hc]
          rcases List.mem_append.mp hx with hx | hx
          · exact List.mem_append_left _ hx
          · exact List.mem_append_right _ (List.mem_cons_of_mem _ hx)
        · exact hs.child q x hx
  · refine ⟨fun c hc ↦ ?_, hs.next, fun q c hc ↦ ?_⟩
    · rw [process_setProcess]
      split
      · exact hs.pid p hp
      · exact hs.pid c hc
    · rw [process_setProcess] at hc
      split at hc
      · exact hs.child p c hc
      · exact hs.child q c hc

theorem Numbered.initial : Numbered initial := by
  refine ⟨fun c hc ↦ ?_, by decide, fun p c hc ↦ by cases hc⟩
  obtain rfl : c = 0 := Nat.lt_one_iff.mp hc
  decide

/-- Any process of the list of children has a pid. -/
theorem Numbered.pid_pos (hs : Numbered s) (hc : c ∈ (s.process p).children) :
    0 < (s.process c).pid :=
  hs.pid c (hs.child p c hc)

/-- A call of `wait` that fails reports success. -/
theorem not_meets_of_failed {x : Return}
    (hx : (x.before x.caller).children = [] ∨ x.copyoutFailed = true) (hv : x.value = 0) :
    ¬ x.Meets := by
  intro hm
  have := (hm.failure hx).1
  omega

/-- A call of `wait` that has taken out a child reports no pid. -/
theorem not_meets_of_zero {x : Return}
    (hx : ∀ c ∈ (x.before x.caller).children, 0 < (x.before c).pid) (hv : x.value = 0) :
    ¬ x.Meets := by
  intro hm
  obtain ⟨l, c, r, hc, -, -, hpid, -⟩ := hm.success (by omega)
  have := hx c (hc ▸ List.mem_append_right _ List.mem_cons_self)
  omega

/-- No round of `wait` returns what its caller may expect. -/
theorem Numbered.not_meets_step {e : Proc × Event} (hs : Numbered s)
    (hreturns : ∀ x ∈ s.returns, ¬ x.Meets) (hu : Family.step s e = some u) :
    ∀ x ∈ u.returns, ¬ x.Meets := by
  obtain ⟨p, e⟩ := e
  obtain ⟨hp, -, rfl | ⟨status, -, rfl⟩ | ⟨w, rfl⟩ | ⟨address, ok, rfl⟩ | ⟨st, -, rfl⟩⟩ :=
    step_cases hu
  · exact hreturns
  · exact hreturns
  · exact hreturns
  · intro x hx
    rcases round_cases s p address ok with heq | ⟨failed, hf, heq⟩ | ⟨l, c, r, copied, hc, -, heq⟩
    · exact hreturns x (heq ▸ hx)
    · rw [heq] at hx
      rcases List.mem_append.mp hx with hx | hx
      · exact hreturns x hx
      · obtain rfl := List.mem_singleton.mp hx
        exact not_meets_of_failed hf rfl
    · rw [heq] at hx
      rcases List.mem_append.mp hx with hx | hx
      · exact hreturns x hx
      · obtain rfl := List.mem_singleton.mp hx
        have hslot : r.headD c ∈ (s.process p).children := by
          rw [hc]
          cases r <;> simp
        have hpid := hs.pid_pos hslot
        refine not_meets_of_zero (fun c' hc' ↦ hs.pid_pos hc') ?_
        have htrue : returnBool (s.process (r.headD c)).pid = true := by
          simp only [returnBool, decide_eq_true_eq]
          omega
        simp only [htrue, syscall, if_true]
  · exact hreturns

/-- No call of `wait` that returns keeps its contract: the result is 0 whether or not a child
was taken out. -/
theorem not_meets_of_run {x : Return} (hrun : Run step (fun _ _ ↦ True) initial s)
    (hx : x ∈ s.returns) : ¬ x.Meets := by
  have hs := hrun.invariant (I := fun s ↦ Numbered s ∧ ∀ x ∈ s.returns, ¬ x.Meets)
    ⟨Numbered.initial, fun x hx ↦ by cases hx⟩
    fun _ _ _ hs _ hu ↦ ⟨hs.1.step hu, hs.1.not_meets_step hs.2 hu⟩
  exact hs.2 x hx

/-- The initial process forks a child, which exits with status 7, and waits for it. -/
def reunion : List (Proc × Event) := [(0, .fork), (1, .exit 7), (0, .wait 64), (0, .round true)]

/-- The child is gone and its status is copied, but its pid is not reported. -/
theorem not_meets_after_reunion : ∃ s x, Run step (fun _ _ ↦ True) initial s ∧ x ∈ s.returns ∧
    s.reaped = [1] ∧ x.copied = some 7 ∧ x.value = 0 ∧ ¬ x.Meets := by
  have hrun : Run step (fun _ _ ↦ True) initial (final step initial reunion) :=
    run_final (by decide) (by decide)
  have hx : (final step initial reunion).returns.head (by decide) ∈
      (final step initial reunion).returns := List.head_mem _
  exact ⟨_, _, hrun, hx, by decide, by decide, by decide, not_meets_of_run hrun hx⟩

/-- A process without children calls `wait`, which reports success. -/
theorem not_meets_alone :
    ∃ s, Run step (fun _ _ ↦ True) initial s ∧ ¬ ∀ x ∈ s.returns, x.Meets := by
  have hrun : Run step (fun _ _ ↦ True) initial
      (final step initial [(0, .wait 0), (0, .round true)]) :=
    run_final (by decide) (by decide)
  refine ⟨_, hrun, fun hall ↦ ?_⟩
  have hx := hall _ (List.head_mem (by decide))
  exact absurd (hx.failure (.inl (by decide))).1 (by decide)

/-- The lists of children and the parent pointers agree. Nothing is known to be the parent or
the child of a process that does not exist yet. -/
structure Kin (s : State) : Prop where
  mem : ∀ c p, c ∈ (s.process p).children ↔ (s.process c).parent = some p ∧ c ∉ s.reaped
  nodup : ∀ p, (s.process p).children.Nodup
  exited : ∀ p, p ≠ initProc → (s.process p).state = .Zombie → (s.process p).children = []
  fresh : ∀ c, s.next ≤ c → (s.process c).parent = none ∧ (s.process c).children = []
  reaped : ∀ c ∈ s.reaped, c < s.next

theorem Kin.fork (hs : Kin s) (hp : p < s.next) (hlive : (s.process p).state ≠ .Zombie) :
    Kin (s.fork p) := by
  have hnew : ∀ q, s.next ∉ (s.process q).children := by
    intro q hq
    have hpar := ((hs.mem _ q).mp hq).1
    rw [(hs.fresh s.next (Nat.le_refl _)).1] at hpar
    cases hpar
  have hreaped : s.next ∉ s.reaped := fun h ↦ Nat.lt_irrefl _ (hs.reaped _ h)
  have hpar : ∀ c, ((s.fork p).process c).parent =
      if c = s.next then some p else (s.process c).parent := by
    intro c
    rw [process_fork hp]
    by_cases hcp : c = p
    · subst hcp
      rw [if_pos rfl, if_neg (Nat.ne_of_lt hp)]
    · rw [if_neg hcp]
      split <;> rfl
  have hch : ∀ q, ((s.fork p).process q).children =
      if q = p then (s.process p).children ++ [s.next] else (s.process q).children := by
    intro q
    rw [process_fork hp]
    by_cases hqp : q = p
    · rw [if_pos hqp, if_pos hqp]
    · rw [if_neg hqp, if_neg hqp]
      split
      · next hq => rw [hq, (hs.fresh s.next (Nat.le_refl _)).2]
      · rfl
  refine ⟨fun c q ↦ ?_, fun q ↦ ?_, fun q hq hz ↦ ?_, fun c hc ↦ ?_, fun c hc ↦ ?_⟩
  · rw [hch, hpar]
    change _ ↔ _ ∧ c ∉ s.reaped
    by_cases hc : c = s.next
    · subst hc
      rw [if_pos rfl]
      by_cases hq : q = p
      · simp [hq, hreaped]
      · simp [hq, hnew q, Ne.symm hq]
    · rw [if_neg hc, ← hs.mem c q]
      by_cases hq : q = p
      · simp [hq, hc]
      · simp [hq]
  · rw [hch]
    split
    · exact List.nodup_append.mpr ⟨hs.nodup p, List.nodup_singleton _, by
        rintro a ha b hb rfl
        exact hnew p (List.mem_singleton.mp hb ▸ ha)⟩
    · exact hs.nodup q
  · rw [hch]
    rw [process_fork hp] at hz
    split at hz
    · exact absurd hz hlive
    · next hqp =>
      rw [if_neg hqp]
      split at hz
      · next hq => rw [hq, (hs.fresh s.next (Nat.le_refl _)).2]
      · exact hs.exited q hq hz
  · change s.next + 1 ≤ c at hc
    have hne : c ≠ s.next := Nat.ne_of_gt hc
    have hcp : c ≠ p := Nat.ne_of_gt (Nat.lt_trans hp hc)
    rw [hpar, hch, if_neg hne, if_neg hcp]
    exact hs.fresh c (Nat.le_of_succ_le hc)
  · exact Nat.lt_succ_of_lt (hs.reaped c hc)

/-- `exit` of a process without children, or of `initProc`. -/
theorem Kin.exit {status : Int32} (hs : Kin s) (hp : p < s.next)
    (hc : (s.process p).children = [] ∨ p = initProc) : Kin (s.exit p status) := by
  have hpar : ∀ c, ((s.exit p status).process c).parent = (s.process c).parent := by
    intro c
    rw [(process_exit status c).2.2.1]
    split
    · next hm =>
      rcases hc with hc | rfl
      · rw [hc] at hm
        cases hm
      · exact ((hs.mem c initProc).mp hm).1.symm
    · rfl
  have hch : ∀ q, ((s.exit p status).process q).children = (s.process q).children :=
    fun q ↦ (process_exit status q).2.1
  refine ⟨fun c q ↦ ?_, fun q ↦ ?_, fun q hq hz ↦ ?_, fun c hc' ↦ ?_, hs.reaped⟩
  · rw [hch, hpar]
    exact hs.mem c q
  · rw [hch]
    exact hs.nodup q
  · rw [hch]
    rw [(process_exit status q).2.2.2] at hz
    split at hz
    · next hqp =>
      subst hqp
      exact hc.resolve_right hq
    · exact hs.exited q hq hz
  · rw [hch, hpar]
    exact hs.fresh c hc'

/-- `wait` takes a child out of the list. -/
theorem Kin.reap {l r : List Proc} (hs : Kin s) (hp : p < s.next)
    (hlive : (s.process p).state ≠ .Zombie) (hc : (s.process p).children = l ++ c :: r) :
    Kin (s.reap p c (l ++ r)) := by
  have hnodup : c ∉ l ++ r ∧ (l ++ r).Nodup := by
    have h := hs.nodup p
    rw [hc] at h
    exact List.nodup_cons.mp (List.perm_middle.nodup_iff.mp h)
  have hmem : ∀ x, x ∈ (s.process p).children ↔ x = c ∨ x ∈ l ++ r := by
    intro x
    rw [hc, List.perm_middle.mem_iff, List.mem_cons]
  have hchild := (hs.mem c p).mp ((hmem c).mpr (.inl rfl))
  have hpar : ∀ x, ((s.reap p c (l ++ r)).process x).parent = (s.process x).parent := by
    intro x
    rw [process_reap]
    split
    · next h => rw [h]
    · rfl
  refine ⟨fun x q ↦ ?_, fun q ↦ ?_, fun q hq hz ↦ ?_, fun x hx ↦ ?_, fun x hx ↦ ?_⟩
  · rw [hpar, process_reap]
    change _ ↔ _ ∧ x ∉ s.reaped ++ [c]
    rw [List.mem_append, List.mem_singleton, not_or]
    by_cases hq : q = p
    · subst hq
      rw [if_pos rfl, ← and_assoc, ← hs.mem x q, hmem x]
      constructor
      · intro hx
        refine ⟨.inr hx, ?_⟩
        rintro rfl
        exact hnodup.1 hx
      · rintro ⟨h | h, hne⟩
        · exact absurd h hne
        · exact h
    · rw [if_neg hq, hs.mem x q]
      refine ⟨fun h ↦ ⟨h.1, h.2, ?_⟩, fun h ↦ ⟨h.1, h.2.1⟩⟩
      rintro rfl
      rw [hchild.1] at h
      exact hq (Option.some.inj h.1).symm
  · rw [process_reap]
    split
    · exact hnodup.2
    · exact hs.nodup q
  · rw [process_reap] at hz ⊢
    split at hz
    · exact absurd hz hlive
    · next hqp =>
      rw [if_neg hqp]
      exact hs.exited q hq hz
  · have hxp : x ≠ p := Nat.ne_of_gt (Nat.lt_of_lt_of_le hp hx)
    rw [process_reap, if_neg hxp]
    exact hs.fresh x hx
  · rcases List.mem_append.mp hx with hx | hx
    · exact hs.reaped x hx
    · rw [List.mem_singleton.mp hx]
      by_contra hge
      have hnone := (hs.fresh c (Nat.le_of_not_lt hge)).1
      rw [hchild.1] at hnone
      cases hnone

/-- The scheduler moves a process between the states other than `Zombie`. -/
theorem Kin.schedule {st : ProcessState} (hs : Kin s) (hst : st ≠ .Zombie) :
    Kin (s.setProcess p fun x ↦ { x with state := st }) := by
  have hsame : ∀ q, ((s.setProcess p fun x ↦ { x with state := st }).process q).parent =
      (s.process q).parent ∧ ((s.setProcess p fun x ↦ { x with state := st }).process q).children =
      (s.process q).children := by
    intro q
    rw [process_setProcess]
    split
    · next h =>
      rw [h]
      exact ⟨rfl, rfl⟩
    · exact ⟨rfl, rfl⟩
  refine ⟨fun c q ↦ ?_, fun q ↦ ?_, fun q hq hz ↦ ?_, fun c hc ↦ ?_, hs.reaped⟩
  · rw [(hsame q).2, (hsame c).1]
    exact hs.mem c q
  · rw [(hsame q).2]
    exact hs.nodup q
  · rw [(hsame q).2]
    rw [process_setProcess] at hz
    split at hz
    · exact absurd hz hst
    · exact hs.exited q hq hz
  · rw [(hsame c).1, (hsame c).2]
    exact hs.fresh c hc

/-- Every step keeps the family in order if no other process than `initProc` exits with
children. -/
theorem Kin.step {e : Proc × Event} (hs : Kin s) (hc : childless s e)
    (hu : Family.step s e = some u) : Kin u := by
  obtain ⟨p, e⟩ := e
  obtain ⟨hp, hlive, rfl | ⟨status, rfl, rfl⟩ | ⟨w, rfl⟩ | ⟨address, ok, rfl⟩ | ⟨st, hst, rfl⟩⟩ :=
    step_cases hu
  · exact hs.fork hp hlive
  · exact hs.exit hp (by simpa [childless] using hc)
  · exact ⟨hs.mem, hs.nodup, hs.exited, hs.fresh, hs.reaped⟩
  · rcases round_cases s p address ok with heq | ⟨failed, -, heq⟩ | ⟨l, c, r, copied, hch, -, heq⟩
    · rwa [heq]
    · rw [heq]
      exact ⟨hs.mem, hs.nodup, hs.exited, hs.fresh, hs.reaped⟩
    · rw [heq]
      obtain ⟨h₁, h₂, h₃, h₄, h₅⟩ := hs.reap hp hlive hch
      exact ⟨h₁, h₂, h₃, h₄, h₅⟩
  · exact hs.schedule hst

/-- The process tree is consistent in every run in which no process but `initProc` exits while it
has children. -/
theorem consistent_of_childless (hrun : Run step (fun s e ↦ childless s e) initial s) :
    Consistent s := by
  have hs : Kin s := by
    refine hrun.invariant ⟨fun c p ↦ ?_, fun p ↦ List.nodup_nil, fun p _ hz ↦ rfl,
      fun c _ ↦ ⟨rfl, rfl⟩, fun c hc ↦ by cases hc⟩ fun _ _ _ hs hc hu ↦ hs.step hc hu
    simp [initial]
  refine ⟨fun c p ↦ ?_, fun c p hp hz hpar ↦ ?_⟩
  · rw [← hs.mem c p]
    refine ⟨fun h ↦ List.count_pos_iff.mp (by omega), fun h ↦ ?_⟩
    exact List.count_eq_one_of_mem (hs.nodup p) h
  · by_contra hr
    have hm := (hs.mem c p).mpr ⟨hpar, hr⟩
    rw [hs.exited p hp hz] at hm
    cases hm

/-- Nothing exits with children in the reunion. -/
theorem consistent_after_reunion :
    ∃ s, Run step (fun s e ↦ childless s e) initial s ∧ s.reaped = [1] ∧ Consistent s := by
  have hrun : Run step (fun s e ↦ childless s e) initial (final step initial reunion) :=
    run_final (by decide) (by decide)
  exact ⟨_, hrun, by decide, consistent_of_childless hrun⟩

/-- The child of the initial process exits while it has a child of its own. -/
theorem orphan_in_no_list :
    ∃ s, Run step (fun _ _ ↦ True) initial s ∧ ¬ Consistent s := by
  have hrun : Run step (fun _ _ ↦ True) initial
      (final step initial [(0, .fork), (1, .fork), (1, .exit 0)]) :=
    run_final (by decide) (by decide)
  refine ⟨_, hrun, fun h ↦ ?_⟩
  exact absurd ((h.1 2 0).mpr ⟨by decide, by decide⟩) (by decide)

end
end Orfos.Family
