import Orfos.Sched.Exclusion

/-!
# What the code of a thread owes to a process

A process whose state has been written has to be registered, and a process that `run` has
taken from the queue has to be dispatched. `owed` counts these duties in the code that a
thread still has to execute: a registration counts from the step that marks the process on.
The second registration, which `run` makes after the switch, is not a duty. `woken` counts
the rounds of `wakeup` that have yet to mark a process, and `lag` says whether a thread is
between the loop of a `wakeup` and its `erase`.
-/

namespace Orfos.Sched

open Instr

/-- The duties towards a process that a step fulfils. -/
def gain (t : Thread) (p : Proc) : Instr → Nat
  | .enroll .run _ => 0
  | .enroll _ q | .check q | .markRunning q => if q = p then 1 else 0
  | .reschedule => if t = .proc p then 1 else 0
  | _ => 0

/-- The duties towards a process that start with a step. -/
def pay (p : Proc) : Instr → Nat
  | .wake _ q | .markReady q | .markSleeping q | .markZombie q _ | .forkReady q =>
    if q = p then 1 else 0
  | _ => 0

/-- The duties of a thread towards a process. -/
def owed (t : Thread) (p : Proc) : List Instr → Nat
  | [] => 0
  | i :: k => gain t p i + (owed t p k - pay p i)

/-- The step is the mark of a process in a round of `wakeup`. -/
def wakes (p : Proc) : Instr → Bool
  | .wake _ q => q = p
  | _ => false

/-- The rounds of `wakeup` that have yet to mark a process. -/
def woken (p : Proc) (k : List Instr) : Nat := k.countP (wakes p)

/-- The loops of `wakeup` over the list of a channel that have started and whose `erase` is
still to come. -/
def lag (c : Chan) (k : List Instr) : Int := k.count (erase c) - k.count (iterate c)

/-- Some thread is between the loop of a `wakeup` of the channel and its `erase`. -/
def Busy (s : State) (c : Chan) : Prop := ∃ t, 0 < lag c (s.code t)

section

variable {t : Thread} {p q : Proc} {c d : Chan} {k x : List Instr}

/-- A step that gives a duty leaves one. -/
theorem owed_pos_of_gain {i : Instr} (hi : 0 < gain t p i) : 0 < owed t p (i :: k) :=
  Nat.add_pos_left hi _

/-- A step that marks nothing leaves the duties of the code after it. -/
theorem owed_pos_skip {i : Instr} (hi : pay p i = 0) (hk : 0 < owed t p k) :
    0 < owed t p (i :: k) := by
  rw [owed, hi, Nat.sub_zero]
  exact Nat.add_pos_right _ hk

theorem woken_append : woken p (x ++ k) = woken p x + woken p k := List.countP_append

theorem lag_append : lag c (x ++ k) = lag c x + lag c k := by
  simp only [lag, List.count_append, Int.natCast_add]
  omega

theorem woken_pos : 0 < woken p k ↔ ∃ c, wake c p ∈ k := by
  rw [woken, List.countP_pos_iff]
  constructor
  · rintro ⟨i, hi, hp⟩
    cases i <;> simp [wakes] at hp
    case wake d q => exact ⟨d, hp ▸ hi⟩
  · rintro ⟨d, hd⟩
    exact ⟨_, hd, by simp [wakes]⟩

/-- A registered round of `wakeup` adds no duty before it starts. -/
theorem owed_wakeRounds (ps : List Proc) :
    owed t p (ps.flatMap (wakeRound c) ++ k) = owed t p k := by
  induction ps with
  | nil => rfl
  | cons q ps ih =>
    rw [List.flatMap_cons, List.append_assoc]
    generalize ps.flatMap (wakeRound c) ++ k = k' at ih
    rw [← ih]
    simp only [wakeRound, registerProcess, List.cons_append, List.nil_append, owed, gain, pay]
    omega

theorem owed_reparentRounds (qs : List Proc) :
    owed t p (qs.flatMap (reparentRound q) ++ k) = owed t p k := by
  induction qs with
  | nil => rfl
  | cons r qs ih =>
    rw [List.flatMap_cons, List.append_assoc]
    generalize qs.flatMap (reparentRound q) ++ k = k' at ih
    rw [← ih]
    simp [reparentRound, wakeup, owed, gain, pay]

theorem woken_wakeRounds (ps : List Proc) :
    woken p (ps.flatMap (wakeRound c)) = ps.count p := by
  induction ps with
  | nil => rfl
  | cons q ps ih =>
    rw [List.flatMap_cons, woken_append, ih, List.count_cons]
    simp [wakeRound, registerProcess, woken, wakes, Nat.add_comm, List.countP_cons]

theorem woken_flatMap {f : Proc → List Instr} (hf : ∀ q, woken p (f q) = 0) (qs : List Proc) :
    woken p (qs.flatMap f) = 0 := by
  induction qs with
  | nil => rfl
  | cons q qs ih => rw [List.flatMap_cons, woken_append, ih, hf]

theorem lag_flatMap {f : Proc → List Instr} (hf : ∀ q, lag c (f q) = 0) (qs : List Proc) :
    lag c (qs.flatMap f) = 0 := by
  induction qs with
  | nil => rfl
  | cons q qs ih => rw [List.flatMap_cons, lag_append, ih, hf, Int.add_zero]

/-- Every loop is followed by its `erase`. -/
theorem lag_nonneg (hw : WF t k) : 0 ≤ lag c k := by
  suffices h : 0 ≤ lag c k ∧ ∀ k', k = erase c :: k' → 1 ≤ lag c k from h.1
  induction k with
  | nil => simp [lag]
  | cons i k ih =>
    obtain ⟨h1, h2⟩ := ih hw.2
    rw [lag] at h1 h2
    cases i with
    | erase d =>
      refine ⟨?_, fun k' hk ↦ ?_⟩
      · simp only [lag, List.count_cons, beq_iff_eq, reduceCtorEq, if_false]
        omega
      · cases hk
        simp only [lag, List.count_cons, beq_iff_eq, reduceCtorEq, if_false, if_true]
        omega
    | iterate d =>
      obtain ⟨k', hk⟩ := hw.1
      refine ⟨?_, fun k' hk ↦ by cases hk⟩
      rcases eq_or_ne d c with rfl | hd
      · have := h2 _ hk
        simp only [lag, List.count_cons, beq_iff_eq, reduceCtorEq, if_false, if_true]
        omega
      · simpa [lag, List.count_cons, hd] using h1
    | _ =>
      refine ⟨?_, fun k' hk ↦ by cases hk⟩
      simpa [lag, List.count_cons] using h1

end

section

variable {s : State} {h : Hart} {t : Thread} {p : Proc} {c : Chan} {i : Instr} {k : List Instr}
  {e : Event} {r : State × List Instr}

/-- The steps that start or fulfil a duty. -/
def shifts : Instr → Bool
  | .enroll _ _ | .pop | .check _ | .markRunning _ | .wake _ _ | .markReady _ | .markSleeping _
  | .markZombie _ _ | .forkReady _ => true
  | _ => false

private theorem owed_exec (hs : shifts i = false)
    (hp : ∀ q, t = .proc q → (s.cpu h).process = some q) (hf : Fits t i k)
    (hr : exec s h i = some r) : owed t p (r.2 ++ k) = owed t p (i :: k) := by
  cases i with
  | reschedule =>
    obtain ⟨q, rfl, -, -⟩ := hf
    simp only [exec, hp q rfl] at hr
    split at hr <;> cases hr
    simp [registerProcess, owed, gain, pay]
  | iterate c =>
    cases hr
    rw [owed_wakeRounds]
    simp [owed, gain, pay]
  | reparent q =>
    cases hr
    rw [owed_reparentRounds]
    simp [owed, gain, pay]
  | waitLoop q =>
    simp only [exec] at hr
    split at hr <;> cases hr <;> simp [owed, gain, pay]
  | scanChildren q n =>
    obtain ⟨rfl, -⟩ := hf
    simp only [exec] at hr
    split at hr <;> cases hr
    · simp [owed, gain, pay]
    · by_cases hq : q = p <;> simp [sleep, owed, gain, pay, hq]
  | testChild q n q' =>
    simp only [exec] at hr
    split at hr <;> cases hr
    simp [owed, gain, pay]
  | returnFork =>
    simp only [exec] at hr
    split at hr <;> cases hr
    simp [owed, gain, pay]
  | lock l | unlock l | kill q =>
    simp only [exec] at hr
    split at hr <;> cases hr
    simp [owed, gain, pay]
  | wakeParent q =>
    cases hr
    simp [wakeup, owed, gain, pay]
  | enroll site q | pop | check q | markRunning q | wake c q | markReady q | markSleeping q
  | markZombie q status | forkReady q => cases hs
  | _ => cases hr <;> simp [owed, gain, pay]

private theorem owed_choose {q : Proc} (ht : ∀ q', t = .proc q' → q' = q) (hf : Fits t i k)
    (hr : choose s h q i e = some r) : owed t p (r.2 ++ k) = owed t p (i :: k) := by
  cases i with
  | user =>
    obtain ⟨⟨q', rfl⟩, -⟩ := hf
    obtain rfl := ht q' rfl
    cases e <;> cases hr <;> by_cases hq : q' = p <;>
      simp [yield, unregisterProcess, wakeup, fork, registerProcess, exit, wait, owed, gain, pay,
        hq]
  | critical m =>
    obtain ⟨⟨q', rfl⟩, -⟩ := hf
    obtain rfl := ht q' rfl
    cases e <;> cases hr <;> by_cases hq : q' = p <;>
      simp [sleep, wakeup, owed, gain, pay, hq]
  | testChild q' n q'' =>
    cases e with
    | copyout ok =>
      simp only [choose] at hr
      split at hr <;> cases hr
      simp [owed, gain, pay]
    | _ => cases hr
  | _ => cases e <;> cases hr

/-- The other steps leave the duties of a thread as they are. -/
theorem owed_unfold (hs : shifts i = false)
    (hp : ∀ q, t = .proc q → (s.cpu h).process = some q) (hf : Fits t i k)
    (hr : unfold s h i e = some r) : owed t p (r.2 ++ k) = owed t p (i :: k) := by
  unfold unfold at hr
  split at hr
  · exact owed_exec hs hp hf hr
  · obtain ⟨q, hq, hr⟩ := Option.bind_eq_some_iff.mp hr
    refine owed_choose (fun q' ht ↦ ?_) hf hr
    simpa [hp q' ht] using hq

/-- The process that `run` takes from the queue becomes a duty, which the check of its state
keeps unless the process is a zombie. -/
theorem owed_pop (hf : Fits t pop k) (hr : unfold s h pop e = some r) :
    owed t p (r.2 ++ k) = if s.readyQueue.head? = some p then 1 else 0 := by
  obtain ⟨-, rfl⟩ := hf
  cases e <;> simp only [unfold, exec, choose, Option.bind_fun_none, reduceCtorEq] at hr
  split at hr <;> cases hr <;> simp_all [run, scan, owed, gain, pay]

theorem owed_check {q : Proc} (hf : Fits t (check q) k) (hr : unfold s h (check q) e = some r) :
    owed t p (r.2 ++ k) = if q = p ∧ (s.process q).state ≠ .Zombie then 1 else 0 := by
  obtain ⟨-, rfl⟩ := hf
  cases e <;> simp only [unfold, exec, choose, Option.bind_fun_none, reduceCtorEq] at hr
  split at hr <;> cases hr <;>
    simp_all [dispatch, afterSwitch, registerProcess, run, scan, owed, gain, pay]

/-- Only a loop over a list adds rounds. -/
theorem woken_unfold (hr : unfold s h i e = some r) :
    woken p r.2 = match i with
      | .iterate c => (s.sleepers c).count p
      | _ => 0 := by
  unfold unfold at hr
  split at hr
  · cases i <;> simp only [exec] at hr <;> (try split at hr) <;> (try split at hr) <;> cases hr <;>
      first
      | rfl
      | exact woken_wakeRounds _
      | exact woken_flatMap (fun _ ↦ rfl) _
  · obtain ⟨q, -, hr⟩ := Option.bind_eq_some_iff.mp hr
    unfold choose at hr
    split at hr <;> (try split at hr) <;> cases hr <;> rfl

/-- A call of `wakeup` unfolds to its loop and its `erase`. -/
theorem lag_unfold (hr : unfold s h i e = some r) : lag c r.2 = 0 := by
  have hwake : ∀ d, lag c (wakeup d) = 0 := fun d ↦ by simp [lag, wakeup, List.count_cons]
  unfold unfold at hr
  split at hr
  · cases i <;> simp only [exec] at hr <;> (try split at hr) <;> (try split at hr) <;> cases hr <;>
      try rfl
    case h_1.iterate.refl d => exact lag_flatMap (fun _ ↦ rfl) _
    case h_1.reparent.refl q =>
      refine lag_flatMap (fun q ↦ ?_) _
      rw [reparentRound, lag_append, lag_append, hwake]
      rfl
    all_goals exact hwake _
  · obtain ⟨q, -, hr⟩ := Option.bind_eq_some_iff.mp hr
    unfold choose at hr
    split at hr <;> (try split at hr) <;> cases hr <;> try rfl
    all_goals
      rw [lag_append, hwake]
      rfl

/-- A step that marks no process and takes none from the queue adds no duty. -/
theorem owed_le (hp : ∀ q, t = .proc q → (s.cpu h).process = some q) (hf : Fits t i k)
    (hr : unfold s h i e = some r) (hpay : pay p i = 0)
    (hpop : i = pop → s.readyQueue.head? ≠ some p) :
    owed t p (r.2 ++ k) ≤ owed t p (i :: k) := by
  cases hs : shifts i with
  | false => exact Nat.le_of_eq (owed_unfold hs hp hf hr)
  | true =>
    cases i with
    | pop =>
      rw [owed_pop hf hr, if_neg (hpop rfl)]
      exact Nat.zero_le _
    | check q =>
      rw [owed_check hf hr]
      obtain ⟨-, rfl⟩ := hf
      by_cases hq : q = p <;> simp [owed, gain, pay, hq]
      split <;> omega
    | enroll site q =>
      cases e <;> simp only [unfold, exec, choose, Option.bind_fun_none, reduceCtorEq] at hr
      cases hr
      simp [owed, pay]
    | markRunning q | wake c q | markReady q | markSleeping q | markZombie q status
    | forkReady q =>
      rw [unfold_of_writes rfl hr, List.nil_append, owed, hpay]
      omega
    | _ => cases hs

/-- A duty stays until the process is registered or marked `Running`, or a zombie. -/
theorem owed_ge (hp : ∀ q, t = .proc q → (s.cpu h).process = some q) (hf : Fits t i k)
    (hr : unfold s h i e = some r) (henroll : ∀ site, i = enroll site p → site = .run)
    (hrun : i ≠ markRunning p) (hzombie : i = check p → (s.process p).state ≠ .Zombie) :
    owed t p (i :: k) ≤ owed t p (r.2 ++ k) := by
  cases hs : shifts i with
  | false => exact Nat.le_of_eq (owed_unfold hs hp hf hr).symm
  | true =>
    cases i with
    | pop =>
      obtain ⟨-, rfl⟩ := hf
      simp [owed, gain]
    | check q =>
      rw [owed_check hf hr]
      obtain ⟨-, rfl⟩ := hf
      by_cases hq : q = p
      · subst hq
        simp [owed, gain, pay, hzombie rfl]
      · simp [owed, gain, hq]
    | enroll site q =>
      have hr2 : r.2 = [] := by
        cases e <;> simp only [unfold, exec, choose, Option.bind_fun_none, reduceCtorEq] at hr
        cases hr
        rfl
      rw [hr2, List.nil_append, owed]
      by_cases hq : q = p
      · subst hq
        obtain rfl := henroll site rfl
        simp [gain]
      · cases site <;> simp [gain, hq]
    | markRunning q =>
      have hq : q ≠ p := fun hq ↦ hrun (hq ▸ rfl)
      rw [unfold_of_writes rfl hr, List.nil_append, owed]
      simp [gain, hq]
    | wake c q | markReady q | markSleeping q | markZombie q status | forkReady q =>
      rw [unfold_of_writes rfl hr, List.nil_append, owed]
      simp [gain]
    | _ => cases hs

theorem woken_le (hr : unfold s h i e = some r)
    (hiter : ∀ c, i = iterate c → p ∉ s.sleepers c) :
    woken p (r.2 ++ k) ≤ woken p (i :: k) := by
  have hnew : woken p r.2 = 0 := by
    rw [woken_unfold hr]
    split
    · exact List.count_eq_zero.mpr (hiter _ rfl)
    · rfl
  rw [woken_append, hnew, Nat.zero_add, woken, woken, List.countP_cons]
  exact Nat.le_add_right _ _

/-- A loop stays open until its `erase`. -/
theorem lag_le (hr : unfold s h i e = some r) (hi : i ≠ erase c) :
    lag c (i :: k) ≤ lag c (r.2 ++ k) := by
  rw [lag_append, lag_unfold hr, lag, lag, List.count_cons_of_ne hi, List.count_cons]
  omega

/-- The steps that start a duty towards a process. -/
theorem pay_cases (hpay : pay p i ≠ 0) : (∃ c, i = wake c p) ∨ i = forkReady p ∨
    i = markReady p ∨ i = markSleeping p ∨ ∃ status, i = markZombie p status := by
  cases i <;> simp_all [pay]

/-- The other steps leave the state of the process alone, unless it is dispatched. -/
theorem state_step (hr : unfold s h i e = some r) (hpay : pay p i = 0)
    (hrun : i ≠ markRunning p) : (r.1.process p).state = (s.process p).state := by
  rw [state_unfold hr p]
  split
  case h_1 q st hw =>
    split
    · subst q
      cases i <;> simp [writes, pay] at hw hpay hrun <;> simp [hw] at hpay hrun
    · rfl
  case h_2 => rfl

/-- The code after a mark registers the process. -/
theorem owed_of_pay (hf : Fits t i k) (hpay : pay p i ≠ 0) : 0 < owed t p k := by
  rcases pay_cases hpay with ⟨c, rfl⟩ | rfl | rfl | rfl | ⟨status, rfl⟩
  · obtain ⟨k', rfl⟩ := hf
    exact owed_pos_skip rfl (owed_pos_skip rfl (owed_pos_of_gain (by simp [gain])))
  · obtain ⟨k', rfl⟩ := hf
    exact owed_pos_skip rfl (owed_pos_skip rfl (owed_pos_of_gain (by simp [gain])))
  · obtain ⟨rfl, k', rfl⟩ := hf
    exact owed_pos_of_gain (by simp [gain])
  · obtain ⟨rfl, k', rfl⟩ := hf
    exact owed_pos_of_gain (by simp [gain])
  · obtain ⟨rfl, k', rfl⟩ := hf
    exact owed_pos_skip rfl (owed_pos_of_gain (by simp [gain]))

/-- No thread has a duty at first. -/
theorem owed_boot (n : Nat) (bucket : Chan → Nat) (t : Thread) (p : Proc) :
    owed t p ((boot n bucket).code t) = 0 := by
  cases t with
  | sched h => by_cases hh : h < n <;> simp [boot, hh, run, scan, owed, gain]
  | proc q => simp [boot, owed, gain]

/-- An interrupt opens no loop. -/
theorem lag_handler (hk : handler s h e = some k) (x : List Instr) :
    lag c (k ++ sret :: x) = lag c x := by
  rcases handler_cases hk with rfl | ⟨q, -, rfl⟩ | ⟨m, d, rfl⟩
  · simp [lag]
  · simp [yield, unregisterProcess, lag]
  · have hd : lag c (wakeup d) = 0 := by simp [wakeup, lag, List.count_cons]
    rw [lag_append, lag_append, lag_append, hd]
    simp [lag]

/-- An interrupt adds no duty and no round. -/
theorem owed_handler (hs : Frame s) (hk : handler s h e = some k)
    (hi : (s.cpu h).sie = true) (x : List Instr) :
    owed (s.cpu h).current p (k ++ sret :: x) = owed (s.cpu h).current p x ∧
      woken p (k ++ sret :: x) = woken p x := by
  rcases handler_cases hk with rfl | ⟨q, hq, rfl⟩ | ⟨m, d, rfl⟩
  · simp [owed, gain, pay, woken, wakes]
  · rw [hs.current_of_sie hi hq]
    by_cases hqp : q = p <;>
      simp [yield, unregisterProcess, owed, gain, pay, woken, wakes, hqp]
  · simp [wakeup, owed, gain, pay, woken, wakes]

end
end Orfos.Sched
