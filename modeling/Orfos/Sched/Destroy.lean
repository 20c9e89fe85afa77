import Orfos.Sched.Ledger
import Orfos.Sched.Presence

/-!
# Destruction of processes

`Scheduler::run` deletes a process that it takes from the ready queue as a `Zombie`, while
`Process::wait` takes a `Zombie` out of the list of its parent. The machine is run together
with the list of the deletions so far. A process that is enrolled nowhere when it becomes a
`Zombie` is never enrolled again, and then the scheduler never meets it.
-/

namespace Orfos.Sched

open Orfos.Base Instr

/-- The machine, and the processes deleted so far, each with the state it was deleted in. -/
structure History where
  state : State
  deleted : List (Proc × State)

/-- One step of a hart; `kill` is the deletion. -/
def History.step (x : History) (e : Hart × Event) : Option History :=
  (Sched.step x.state e).map fun u ↦
    { state := u
      deleted := match executes x.state e with
        | some (.kill p) => x.deleted ++ [(p, x.state)]
        | _ => x.deleted }

/-- Every process was deleted at most once, as a `Zombie`, and while it was in no list of
children, not in the ready queue and in no list of the sleep table. -/
def History.Safe (x : History) : Prop :=
  (x.deleted.map Prod.fst).Nodup ∧
    ∀ d ∈ x.deleted, (d.2.process d.1).state = .Zombie ∧
      (∀ q, d.1 ∉ (d.2.process q).children) ∧ d.1 ∉ d.2.readyQueue ∧
      ∀ c, d.1 ∉ d.2.sleepers c

/-- The steps that a thread has before it once it has taken a process from the ready queue or
from the list of a channel. -/
def handles (p : Proc) : Instr → Bool
  | .check q | .kill q | .markRunning q | .switchTo q | .wake _ q => q = p
  | _ => false

/-- A process is not enrolled, and no thread has taken it from where it was. -/
structure Detached (s : State) (p : Proc) : Prop where
  queue : p ∉ s.readyQueue
  list : ∀ c, p ∉ s.sleepers c
  thread : ∀ t, ∀ i ∈ s.code t, handles p i = false

/-- A process becomes a `Zombie` only while it is enrolled nowhere. -/
def LastSeen (s : State) (e : Hart × Event) : Prop :=
  ∀ p status, executes s e = some (markZombie p status) → Detached s p

/-- A `Zombie` is enrolled nowhere. -/
def Buried (s : State) : Prop := ∀ p, (s.process p).state = .Zombie → Detached s p

section

variable {s : State} {h : Hart} {p : Proc} {i j : Instr} {k : List Instr} {e : Event}
  {r : State × List Instr}

/-- New code handles a process that the step has found in the queue or in a list, or that it
handles itself. -/
theorem handles_unfold (hr : unfold s h i e = some r) (hp : r.2.any (handles p)) :
    p ∈ s.readyQueue ∨ (∃ c, p ∈ s.sleepers c) ∨ handles p i := by
  unfold unfold at hr
  split at hr
  · cases i <;> simp only [exec] at hr <;> (try split at hr) <;> (try split at hr) <;> cases hr
    case h_1.iterate.refl c =>
      right
      left
      refine ⟨c, ?_⟩
      simpa [List.any_flatMap, wakeRound, registerProcess, handles] using hp
    case h_1.reparent.refl q =>
      simp [List.any_flatMap, reparentRound, wakeup, handles] at hp
    all_goals
      simp [handles, registerProcess, run, scan, dispatch, afterSwitch, sleep, wakeup] at hp <;>
        simp_all [handles]
  · obtain ⟨q, -, hr⟩ := Option.bind_eq_some_iff.mp hr
    unfold choose at hr
    split at hr <;> (try split at hr) <;> cases hr
    all_goals
      simp [handles, registerProcess, unregisterProcess, yield, wakeup, fork, exit, wait, sleep]
        at hp

/-- A detached process stays detached unless it is registered as `Ready` or `Sleeping`. -/
theorem Detached.code (hd : Detached s p) (hcode : s.code (s.cpu h).current = i :: k)
    (hr : unfold s h i e = some r)
    (hp : ∀ site, i = enroll site p →
      (s.process p).state ≠ .Ready ∧ (s.process p).state ≠ .Sleeping) :
    Detached (r.1.setCode (s.cpu h).current (r.2 ++ k)) p := by
  have hi : ∀ j ∈ i :: k, handles p j = false := hcode ▸ hd.thread _
  refine ⟨?_, fun c hc ↦ ?_, fun t j hj ↦ ?_⟩
  · change p ∉ r.1.readyQueue
    rw [readyQueue_unfold hr]
    cases i with
    | enroll site q =>
      dsimp only
      split
      · next hq =>
        rw [List.mem_append, List.mem_singleton, not_or]
        refine ⟨hd.queue, ?_⟩
        rintro rfl
        exact (hp site rfl).1 hq
      · exact hd.queue
    | remove q => exact fun hm ↦ hd.queue (List.mem_of_mem_filter hm)
    | pop => exact fun hm ↦ hd.queue (List.mem_of_mem_tail hm)
    | _ => exact hd.queue
  · change p ∈ r.1.sleepers c at hc
    rcases sleepers_unfold hr c with heq | ⟨heq, -⟩ | ⟨site, q, hi', hq, -, heq⟩
    · exact hd.list c (heq ▸ hc)
    · rw [heq] at hc
      cases hc
    · rw [heq, List.mem_append, List.mem_singleton] at hc
      rcases hc with hc | rfl
      · exact hd.list c hc
      · exact (hp site hi').2 hq
  · by_cases ht : t = (s.cpu h).current
    · subst ht
      simp only [State.setCode, Function.update_self, List.mem_append] at hj
      rcases hj with hj | hj
      · by_contra hne
        have hany : r.2.any (handles p) = true :=
          List.any_eq_true.mpr ⟨j, hj, by simpa using hne⟩
        rcases handles_unfold hr hany with hq | ⟨c, hc⟩ | hi'
        · exact hd.queue hq
        · exact hd.list c hc
        · rw [hi i List.mem_cons_self] at hi'
          cases hi'
      · exact hi j (List.mem_cons_of_mem _ hj)
    · simp only [State.setCode, Function.update_of_ne ht, code_unfold hr] at hj
      exact hd.thread t j hj

/-- An interrupt handles no process. -/
theorem Detached.interrupt {u : State} (hd : Detached s p) (hk : handler s h e = some k)
    (hu : u = (s.setCpu h fun c ↦ { c with sie := false }).setCode (s.cpu h).current
      (k ++ sret :: s.code (s.cpu h).current)) : Detached u p := by
  subst hu
  refine ⟨hd.queue, hd.list, fun t j hj ↦ ?_⟩
  by_cases ht : t = (s.cpu h).current
  · subst ht
    simp only [State.setCode, Function.update_self, List.mem_append, List.mem_cons] at hj
    rcases hj with hj | rfl | hj
    · have hany : k.any (handles p) = false := by
        rcases handler_cases hk with rfl | ⟨q, -, rfl⟩ | ⟨m, c, rfl⟩ <;>
          simp [yield, unregisterProcess, wakeup, handles]
      exact Bool.eq_false_iff.mpr (List.any_eq_false.mp hany j hj)
    · rfl
    · exact hd.thread _ j hj
  · simp only [State.setCode, Function.update_of_ne ht] at hj
    exact hd.thread t j hj

/-- Every step keeps zombies out of the queue and the lists if a process becomes a `Zombie`
only while it is enrolled nowhere. -/
theorem Buried.step {u : State} {e : Hart × Event} (hs : Buried s) (hl : LastSeen s e)
    (hu : step s e = some u) : Buried u := by
  obtain ⟨h, e⟩ := e
  intro p hp
  rcases step_cases hu with ⟨k, hk, -, hu⟩ | ⟨i, k, r, hcode, hi, hr, rfl⟩
  · exact (hs p (by simpa [hu, State.setCode, State.setCpu] using hp)).interrupt hk hu
  · change (r.1.process p).state = .Zombie at hp
    rw [state_unfold hr] at hp
    have hold : (s.process p).state = .Zombie ∨ ∃ status, i = markZombie p status := by
      cases i <;> simp only [writes] at hp <;> grind
    rcases hold with hold | ⟨status, rfl⟩
    · exact (hs p hold).code hcode hr fun _ _ ↦ by simp [hold]
    · exact (hl p status hi).code hcode hr fun _ h ↦ by cases h

/-- In a buried state no step deletes a process. -/
theorem Buried.not_kill {u : State} {e : Hart × Event} (hs : Buried s)
    (hu : Sched.step s e = some u) : executes s e ≠ some (kill p) := by
  intro hi
  obtain ⟨h, e⟩ := e
  rcases step_cases hu with ⟨k, hk, -, -⟩ | ⟨i, k, r, hcode, hi', hr, -⟩
  · simp [executes, hk] at hi
  · obtain rfl : i = kill p := by simpa [hi'] using hi
    have hz : (s.process p).state = .Zombie := by
      by_contra hne
      cases e <;> simp [unfold, choose, hne] at hr
    have hfree := (hs p hz).thread _ (kill p) (by rw [hcode]; exact List.mem_cons_self)
    simp [handles] at hfree

end

/-- Processes are destroyed safely in any run in which a process becomes a `Zombie` only while
it is in no queue and in no list and no thread has taken it from one. -/
theorem safe_of_lastSeen {n : Nat} {bucket : Chan → Nat} {x : History}
    (hrun : Run History.step (fun x e ↦ LastSeen x.state e) ⟨boot n bucket, []⟩ x) : x.Safe := by
  have hx : Buried x.state ∧ x.deleted = [] := by
    refine hrun.invariant (I := fun x ↦ Buried x.state ∧ x.deleted = []) ⟨?_, rfl⟩ ?_
    · intro p hp
      by_cases h0 : p = 0 <;> simp [boot, h0] at hp
    · intro x e y hx hl hy
      obtain ⟨u, hu, rfl⟩ := Option.map_eq_some_iff.mp hy
      refine ⟨hx.1.step hl hu, ?_⟩
      dsimp only
      split
      · next p hp => exact absurd hp (hx.1.not_kill hu)
      · exact hx.2
  constructor
  · simp [hx.2]
  · simp [hx.2]

section

/-- No process becomes a `Zombie` in a step, as a test. -/
def Living (s : State) (e : Hart × Event) : Bool :=
  match executes s e with
  | some (.markZombie _ _) => false
  | _ => true

theorem lastSeen_of_living {s : State} {e : Hart × Event} (h : Living s e) : LastSeen s e := by
  intro p status hp
  simp [Living, hp] at h

/-- Process 0 is dispatched and exits, up to the step that makes it a `Zombie`. -/
def lastSteps : List (Hart × Event) := goes 0 10 ++ [(0, .exit 0)] ++ goes 0 8

/-- Where process 0 becomes a `Zombie` it is enrolled nowhere. -/
theorem detached_lastSteps : Detached (final step (boot 1 fun _ ↦ 0) lastSteps) 0 := by
  have hplay : (play step (boot 1 fun _ ↦ 0) lastSteps).isSome := by decide +kernel
  refine ⟨by decide +kernel, fun c ↦ ?_, fun t ↦ ?_⟩
  · have hb : (final step (boot 1 fun _ ↦ 0) lastSteps).sleepTable.bucket c = 0 := by rfl
    have hc : (final step (boot 1 fun _ ↦ 0) lastSteps).sleepTable.chain 0 = [] := by
      decide +kernel
    simp [State.sleepers, Lib.Table.lookup, hb, hc]
  · by_cases ht : t ∈ visited (boot 1 fun _ ↦ 0) lastSteps
    · have hall : ∀ t ∈ visited (boot 1 fun _ ↦ 0) lastSteps,
          ∀ i ∈ (final step (boot 1 fun _ ↦ 0) lastSteps).code t, handles 0 i = false := by
        decide +kernel
      exact hall t ht
    · obtain ⟨u, hu⟩ := Option.isSome_iff_exists.mp hplay
      have hf : final step (boot 1 fun _ ↦ 0) lastSteps = u := by
        rw [final, hu, Option.getD_some]
      rw [hf, code_of_play hu ht]
      cases t with
      | sched h =>
        change ∀ i ∈ if h < 1 then run else [], handles 0 i = false
        split
        · decide
        · exact fun i hi ↦ by cases hi
      | proc p => simp [boot, handles]

/-- The deletions do not take part in a step. -/
theorem state_final (x : History) (es : List (Hart × Event)) :
    (final History.step x es).state = final step x.state es := by
  have hplay : ∀ y : History,
      (play History.step y es).map History.state = play step y.state es := by
    induction es with
    | nil => exact fun _ ↦ rfl
    | cons e es ih =>
      intro y
      simp only [play, History.step, Option.bind_map, Option.map_bind]
      exact congrArg _ (funext fun u ↦ ih _)
  have hx := hplay x
  cases hy : play History.step x es with
  | none =>
    rw [hy] at hx
    simp [final, hy, ← hx]
  | some y =>
    rw [hy] at hx
    simp [final, hy, ← hx]

/-- Process 0 exits. -/
theorem safe_after_exit :
    ∃ x, Run History.step (fun x e ↦ LastSeen x.state e) ⟨boot 1 fun _ ↦ 0, []⟩ x ∧
      (x.state.process 0).state = .Zombie ∧ x.Safe := by
  have hrun : Run History.step (fun x e ↦ Living x.state e) ⟨boot 1 fun _ ↦ 0, []⟩
      (final History.step ⟨boot 1 fun _ ↦ 0, []⟩ lastSteps) :=
    run_final (by decide +kernel) (by decide +kernel)
  have hsome : (History.step (final History.step ⟨boot 1 fun _ ↦ 0, []⟩ lastSteps)
      (0, .go)).isSome := by decide +kernel
  have hend := Run.tail (hrun.mono fun _ _ h ↦ lastSeen_of_living h) (fun p status hp ↦ by
    rw [state_final] at hp ⊢
    have hzombie : executes (final step (boot 1 fun _ ↦ 0) lastSteps) (0, .go) =
        some (markZombie 0 0) := by decide +kernel
    obtain rfl : p = 0 := by
      rw [hzombie] at hp
      cases hp
      rfl
    exact detached_lastSteps) (step_final hsome)
  exact ⟨_, hend, by decide +kernel, safe_of_lastSeen hend⟩

/-- The events of a process that forks a child and lets it run. The child yields, lets its
parent run, exits and is deleted. -/
def stale : List (Hart × Event) :=
  goes 0 10 ++ [(0, .fork)] ++ goes 0 9 ++ [(0, .yield)] ++ goes 0 24 ++ [(0, .yield)] ++
    goes 0 24 ++ [(0, .yield)] ++ goes 0 24 ++ [(0, .exit 0)] ++ goes 0 25

/-- On one hart, a child that yields is in the ready queue a second time when it exits. The
scheduler deletes it while it is in the list of its parent. -/
theorem unsafe_after_yield :
    ∃ x, Run History.step (fun _ _ ↦ True) ⟨boot 1 fun _ ↦ 0, []⟩ x ∧ ¬ x.Safe := by
  have hrun : Run History.step (fun _ _ ↦ True) ⟨boot 1 fun _ ↦ 0, []⟩
      (final History.step ⟨boot 1 fun _ ↦ 0, []⟩ stale) :=
    run_final (by decide +kernel) (by decide +kernel)
  refine ⟨_, hrun, fun hsafe ↦ ?_⟩
  have hall : ∀ d ∈ (final History.step ⟨boot 1 fun _ ↦ 0, []⟩ stale).deleted,
      d.1 ∉ (d.2.process 0).children := fun d hd ↦ (hsafe.2 d hd).2.1 0
  exact absurd hall (by decide +kernel)

end
end Orfos.Sched
