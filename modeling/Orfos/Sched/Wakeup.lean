import Orfos.Sched.Exclusion

/-!
# Lost wakeups

`sleep` releases the lock of the condition before the process is in the sleep table, and
`wakeup` only looks at the table. A `wakeup` that reads the list of a channel marks every
process in it before it is complete, so a sleeper is woken if it has registered when the
list is read, and it is missed if the list is read in the window before.
-/

namespace Orfos.Sched

open Orfos.Base Instr

/-- The states that any steps lead to. -/
abbrev Reach : State → State → Prop := Run step fun _ _ ↦ True

/-- Process `p` does not go to sleep in a step. -/
def Awake (p : Proc) (s : State) (e : Hart × Event) : Prop :=
  executes s e ≠ some (markSleeping p)

instance (p : Proc) (s : State) (e : Hart × Event) : Decidable (Awake p s e) :=
  inferInstanceAs (Decidable (executes s e ≠ some (markSleeping p)))

/-- An interleaving of `sleep(c, m)` of process `p` with a thread `t` that calls `wakeup(c)`:
`p` is about to release `m` in `s₁`, then `t` is about to take `m` in `s₂`, and then `t` is
in `wakeup(c)` and about to read the list of `c` in `s₃`, with the code `k` after the call. -/
structure Race (p : Proc) (c : Chan) (m : Lock) (t : Thread) (k : List Instr)
    (s₁ s₂ s₃ : State) : Prop where
  reachable : ∃ n bucket, Reach (boot n bucket) s₁
  released : ∃ h u k', (s₁.cpu h).current = .proc p ∧
    s₁.code (.proc p) = (sleep p c m).tail ++ k' ∧ step s₁ (h, .go) = some u ∧ Reach u s₂
  taken : ∃ g u k', (s₂.cpu g).current = t ∧ s₂.code t = lock m :: k' ∧
    step s₂ (g, .go) = some u ∧ Reach u s₃
  reads : s₃.code t = (wakeup c).tail ++ k

/-- Process `p` is left `Sleeping` in the list of channel `c`. -/
def Left (s : State) (p : Proc) (c : Chan) : Prop :=
  (s.process p).state = .Sleeping ∧ p ∈ s.sleepers c

/-- A `wakeup` has yet to mark the process, or the process sleeps no more. -/
def Due (p : Proc) (c : Chan) (t : Thread) (k : List Instr) (s : State) : Prop :=
  (∃ x, s.code t = x ++ erase c :: k ∧ wake c p ∈ x) ∨ (s.process p).state ≠ .Sleeping

/-- A process falls asleep by its own step only. -/
theorem sleeping_unfold {s : State} {h : Hart} {i : Instr} {e : Event} {r : State × List Instr}
    {p : Proc} (hr : unfold s h i e = some r) (hp : (s.process p).state ≠ .Sleeping)
    (hi : i ≠ markSleeping p) : (r.1.process p).state ≠ .Sleeping := by
  rw [state_unfold hr p]
  split
  case h_1 q st hw =>
    split
    · subst q
      cases i <;> simp [writes] at hw hi <;> simp [← hw.2]
      exact absurd hw.1 hi
    · exact hp
  case h_2 => exact hp

variable {p : Proc} {c : Chan} {m : Lock} {t : Thread} {k : List Instr}

/-- The rounds of a `wakeup` stay due until they are executed. -/
theorem Due.step {s u : State} {e : Hart × Event} (hs : Due p c t k s) (he : Awake p s e)
    (hu : step s e = some u) : Due p c t k u := by
  obtain ⟨h, e⟩ := e
  rcases step_cases hu with ⟨k', -, -, rfl⟩ | ⟨i, k', r, hcode, hi, hr, rfl⟩
  · refine hs.imp (fun ⟨x, hx, hw⟩ ↦ ?_) fun hp ↦ hp
    rcases eq_or_ne t (s.cpu h).current with rfl | ht
    · exact ⟨k' ++ sret :: x, by simp [State.setCode, hx], by simp [hw]⟩
    · exact ⟨x, by simp [State.setCode, State.setCpu, ht, hx], hw⟩
  · have hne : i ≠ markSleeping p := by
      rintro rfl
      exact he hi
    rcases hs with ⟨x, hx, hw⟩ | hp
    · rcases eq_or_ne t (s.cpu h).current with rfl | ht
      · obtain ⟨j, x, rfl⟩ := List.exists_cons_of_ne_nil (List.ne_nil_of_mem hw)
        rw [hcode, List.cons_append] at hx
        cases hx
        rcases List.mem_cons.mp hw with rfl | hw
        · -- the round of the process
          right
          have hst := state_unfold hr p
          simp only [writes, if_true] at hst
          simp [State.setCode, hst]
        · exact .inl ⟨r.2 ++ x, by simp [State.setCode], by simp [hw]⟩
      · exact .inl ⟨x, by simp [State.setCode, code_unfold hr, ht, hx], hw⟩
    · exact .inr (sleeping_unfold hr hp hne)

/-- A `wakeup` that finds the process in the list has a round for it. -/
theorem Due.of_read {s u : State} {g : Hart} (hg : (s.cpu g).current = t)
    (hcode : s.code t = (wakeup c).tail ++ k) (hread : Sched.step s (g, .go) = some u)
    (hp : p ∈ s.sleepers c) : Due p c t (unlock .sched :: k) u := by
  rcases step_cases hread with ⟨k', hk, -⟩ | ⟨i, k', r, hcode', -, hr, rfl⟩
  · cases hk
  · rw [hg, hcode] at hcode'
    cases hcode'
    cases hr
    refine .inl ⟨(s.sleepers c).flatMap (wakeRound c), by simp [State.setCode, hg], ?_⟩
    simp only [List.mem_flatMap]
    exact ⟨p, hp, by simp [wakeRound]⟩

/-- A sleeper that is in the list of its channel when a `wakeup` reads the list is no longer
`Sleeping` when the `wakeup` is complete, whatever the harts do in between, as long as the
process does not go to sleep again. -/
theorem woken_of_listed {s₁ s₂ s₃ u s₄ : State} {g : Hart} (hrace : Race p c m t k s₁ s₂ s₃)
    (hg : (s₃.cpu g).current = t) (hread : step s₃ (g, .go) = some u)
    (hrest : Run step (Awake p) u s₄) (hdone : s₄.code t = k) (hlisted : p ∈ s₃.sleepers c) :
    ¬ Left s₄ p c := by
  have hdue : Due p c t (unlock .sched :: k) s₄ :=
    hrest.invariant (Due.of_read hg hrace.reads hread hlisted) fun _ _ _ hs he hu ↦
      hs.step he hu
  rcases hdue with ⟨x, hx, -⟩ | hp
  · -- the code after the call is shorter than what a round is in front of
    have := congrArg List.length (hdone.symm.trans hx)
    simp at this
    omega
  · exact fun hleft ↦ hp hleft.1

section

/-- Process 0 holds its lock and condition lock 0 in `sleep` and is about to release the
latter; hart 1 has entered `run`. -/
def dozing : State :=
  final step (boot 2 fun _ ↦ 0) (goes 1 1 ++ goes 0 10 ++ [(0, .lock 0)] ++ goes 0 1 ++
    [(0, .sleep (.object 0))] ++ goes 0 1)

/-- After `n` more steps of hart 0, hart 1 takes a device interrupt. -/
def interrupted (n : Nat) : State :=
  final step (final step dozing [(0, .go)]) (goes 0 n ++ [(1, .device 0 (.object 0))])

/-- The handler has taken condition lock 0 and the scheduler lock. -/
def reading (n : Nat) : State :=
  final step (final step (interrupted n) [(1, .go)]) (goes 1 1)

/-- The code of hart 1 after `wakeup`. -/
def afterDevice : List Instr := [unlock (.condition 0), sret, lock .sched, pop]

/-- Process 0 sleeps and is switched out before the interrupt handler calls `wakeup`. -/
theorem woken_by_device :
    Race 0 (.object 0) (.condition 0) (.sched 1) afterDevice dozing (interrupted 9) (reading 9) ∧
      0 ∈ (reading 9).sleepers (.object 0) ∧
      ¬ Left (final step (final step (reading 9) [(1, .go)]) (goes 1 10)) 0 (.object 0) := by
  have hrace : Race 0 (.object 0) (.condition 0) (.sched 1) afterDevice dozing (interrupted 9)
      (reading 9) := by
    refine ⟨⟨2, _, run_final (by decide +kernel) (by decide +kernel)⟩,
      ⟨0, _, [critical 0, user], by decide +kernel, by decide +kernel,
        step_final (by decide +kernel), run_final (by decide +kernel) (by decide +kernel)⟩,
      ⟨1, _, wakeup (.object 0) ++ afterDevice, by decide +kernel, by decide +kernel,
        step_final (by decide +kernel), run_final (by decide +kernel) (by decide +kernel)⟩,
      by decide +kernel⟩
  exact ⟨hrace, by decide +kernel, woken_of_listed hrace (g := 1) (by decide +kernel)
    (step_final (by decide +kernel)) (run_final (by decide +kernel) (by decide +kernel))
    (by decide +kernel) (by decide +kernel)⟩

/-- The handler takes condition lock 0 right after process 0 has released it, and finds the
list of the channel empty. Then process 0 registers, and nobody will wake it. -/
theorem missed_by_device : ∃ s,
    Race 0 (.object 0) (.condition 0) (.sched 1) afterDevice dozing (interrupted 0) (reading 0) ∧
      step (reading 0) (1, .go) = some (final step (reading 0) [(1, .go)]) ∧
      Reach (final step (reading 0) [(1, .go)]) s ∧ s.code (.sched 1) = afterDevice ∧
      enroll .reschedule 0 ∉ s.code (.proc 0) ∧ Left s 0 (.object 0) := by
  have hrace : Race 0 (.object 0) (.condition 0) (.sched 1) afterDevice dozing (interrupted 0)
      (reading 0) := by
    refine ⟨⟨2, _, run_final (by decide +kernel) (by decide +kernel)⟩,
      ⟨0, _, [critical 0, user], by decide +kernel, by decide +kernel,
        step_final (by decide +kernel), run_final (by decide +kernel) (by decide +kernel)⟩,
      ⟨1, _, wakeup (.object 0) ++ afterDevice, by decide +kernel, by decide +kernel,
        step_final (by decide +kernel), run_final (by decide +kernel) (by decide +kernel)⟩,
      by decide +kernel⟩
  exact ⟨final step (final step (reading 0) [(1, .go)]) (goes 1 2 ++ goes 0 5), hrace,
    step_final (by decide +kernel), run_final (by decide +kernel) (by decide +kernel),
    by decide +kernel, by decide +kernel, by decide +kernel, by decide +kernel⟩

end
end Orfos.Sched
