import Orfos.Sched.Machine

/-!
# Lock discipline of the scheduling code

Which locks the code of a thread has taken can be read off what it still has to execute.
`WF` collects what every step of the scheduling code relies on at its place in the code, and
the lemmas below show it for the code that each call unfolds to.
-/

namespace Orfos.Sched

open Instr

/-- The locks that the remaining code of a thread gives back without taking them. -/
@[simp] def held (t : Thread) : List Instr → List Lock
  | [] => []
  | .lock l :: k => (held t k).erase l
  | .unlock l :: k => l :: held t k
  | .pop :: k => .sched :: held t k
  | .critical m :: k => .condition m :: held t k
  | .waitLoop _ :: k => .wait :: held t k
  | .scanChildren _ _ :: k => .wait :: held t k
  | .testChild _ _ q :: k => .process q :: .wait :: held t k
  -- `returnFork` releases the lock of its process, and a process ends inside its lock
  | .returnFork :: k => (match t with | .proc p => [.process p] | .sched _ => []) ++ held t k
  | .panic :: k => (match t with | .proc p => [.process p] | .sched _ => []) ++ held t k
  | _ :: k => held t k

/-- The code gives the lock of `p` back, or switches away with it, without taking a lock. -/
@[simp] def Quick (p : Proc) : List Instr → Prop
  | .unlock l :: k => l = .process p ∨ Quick p k
  | .testChild _ _ q :: _ => q = p
  | .switchBack _ :: _ | .switchTo _ :: _ | .returnFork :: _ | .panic :: _ => True
  | .restore _ _ :: k | .setChan _ _ :: k | .markRunning _ :: k | .clearProcess :: k
  | .forkReady _ :: k => Quick p k
  | _ => False

/-- Process `p` has left its `Running` state and is on its way to the switch. -/
def Parked (p : Proc) : List Instr → Prop
  | .reschedule :: _ => True
  | .lock .sched :: k | .enroll .reschedule _ :: k | .unlock .sched :: k
  | .unlock .wait :: k => Parked p k
  | .switchBack q :: _ => q = p
  | _ => False

/-- What a step relies on, given the code after it. -/
@[simp] def Fits (t : Thread) : Instr → List Instr → Prop
  -- a round of `wakeup` is the only code that takes the lock of a process inside `sched`
  | .lock (.process p), k => .process p ∈ held t k ∧
      ((∃ c k', k = (wakeRound c p).tail ++ k') ∨
        .sched ∉ held t k ∧ (Quick p k ∨ t = .proc p ∨ ∃ k', k = setParent p :: k'))
  | .lock l, k => l ∈ held t k
  | .reschedule, k => ∃ p, t = .proc p ∧ held t k = [.process p] ∧ Quick p k
  | .enroll .reschedule p, k => t = .proc p ∧ ∃ k', k = unlock .sched :: switchBack p :: k'
  | .switchBack p, k => t = .proc p ∧ held t k = [.process p] ∧ Quick p k
  | .iterate c, k => ∃ k', k = erase c :: unlock .sched :: k'
  | .wake c p, k => ∃ k', k = (wakeRound c p).drop 2 ++ k'
  | .remove p, _ | .setChan p _, _ => t = .proc p
  | .markReady p, k | .markSleeping p, k => t = .proc p ∧ ∃ k', k = reschedule :: k'
  | .markZombie p _, k => t = .proc p ∧ ∃ k', k = unlock .wait :: reschedule :: k'
  | .forkReady q, k => ∃ k', k = unlock (.process q) :: registerProcess .fork q ++ k'
  | .enable, k => (∃ h, t = .sched h) ∧ held t k = []
  | .pop, k | .check _, k => (∃ h, t = .sched h) ∧ k = []
  | .reparent _, k => .sched ∉ held t k
  | .markRunning p, k => (∃ h, t = .sched h) ∧ k = switchTo p :: afterSwitch p
  | .switchTo p, k => (∃ h, t = .sched h) ∧ k = afterSwitch p
  | .clearProcess, _ => ∃ h, t = .sched h
  | .waitLoop p, k | .scanChildren p _, k | .testChild p _ _, k => t = .proc p ∧ held t k = []
  | .returnFork, k | .user, k | .critical _, k => (∃ p, t = .proc p) ∧ held t k = []
  | .sret, k => held t k = []
  | _, _ => True

/-- Every step of the code finds what it relies on. -/
@[simp] def WF (t : Thread) : List Instr → Prop
  | [] => True
  | i :: k => Fits t i k ∧ WF t k

/-- The children that the code is about to make `Ready`. -/
@[simp] def forked : List Instr → List Proc
  | [] => []
  | .forkReady q :: k => q :: forked k
  | _ :: k => forked k

theorem forked_append (k k' : List Instr) : forked (k ++ k') = forked k ++ forked k' := by
  induction k with
  | nil => rfl
  | cons i k ih => cases i <;> simp [forked, ih]

theorem forked_flatMap {f : Proc → List Instr} (hf : ∀ p, forked (f p) = []) (ps : List Proc) :
    forked (ps.flatMap f) = [] := by
  induction ps with
  | nil => rfl
  | cons p ps ih => rw [List.flatMap_cons, forked_append, hf, ih, List.nil_append]

theorem mem_forked {q : Proc} {k : List Instr} : q ∈ forked k ↔ forkReady q ∈ k := by
  induction k with
  | nil => simp [forked]
  | cons i k ih => cases i <;> simp [forked, ih]

/-- A parked process holds its own lock. -/
theorem held_of_parked {p : Proc} {k : List Instr} (hw : WF (.proc p) k) (hp : Parked p k) :
    .process p ∈ held (.proc p) k := by
  induction k with
  | nil => exact absurd hp id
  | cons i k ih =>
    obtain ⟨hf, hw⟩ := hw
    unfold Parked at hp
    split at hp
    case h_1 heq =>
      cases heq
      obtain ⟨q, hq, hk, -⟩ := hf
      cases hq
      simp [held, hk]
    case h_2 heq =>
      cases heq
      exact (List.mem_erase_of_ne (by simp)).mpr (ih hw hp)
    case h_3 heq =>
      cases heq
      exact ih hw hp
    case h_4 heq =>
      cases heq
      exact List.mem_cons_of_mem _ (ih hw hp)
    case h_5 heq =>
      cases heq
      exact List.mem_cons_of_mem _ (ih hw hp)
    case h_6 heq =>
      cases heq
      obtain ⟨-, hk, -⟩ := hf
      cases hp
      simp [held, hk]
    case h_7 => exact absurd hp id

section

variable {t : Thread} {p : Proc} {h : Hart} {k : List Instr}

/-- The code of `yield`. -/
theorem wf_yield (hw : WF (.proc p) k) (hk : held (.proc p) k = []) :
    WF (.proc p) (yield p ++ k) ∧ held (.proc p) (yield p ++ k) = [] := by
  simp [yield, unregisterProcess, WF, Fits, held, Quick, hw, hk]

/-- The code of `sleep`, which gives its lock back while it waits. -/
theorem wf_sleep {c : Chan} {m : Lock} (hm : m = .wait ∨ ∃ n, m = .condition n)
    (hw : WF (.proc p) k) (hk : held (.proc p) k = [m]) :
    WF (.proc p) (sleep p c m ++ k) ∧ held (.proc p) (sleep p c m ++ k) = [m] := by
  rcases hm with rfl | ⟨n, rfl⟩ <;>
    simp [sleep, WF, Fits, held, Quick, hw, hk]

/-- A round of `wakeup`. -/
private theorem wf_wakeRound {c : Chan} {hs : List Lock} (hw : WF t k)
    (hk : held t k = .sched :: hs) :
    WF t (wakeRound c p ++ k) ∧ held t (wakeRound c p ++ k) = .sched :: hs := by
  refine ⟨⟨⟨?_, .inl ⟨c, k, rfl⟩⟩, ⟨k, rfl⟩, ?_⟩, ?_⟩
  all_goals simp [wakeRound, registerProcess, WF, Fits, held, hw, hk]

/-- The rounds of `wakeup`. -/
theorem wf_wakeRounds {c : Chan} {hs : List Lock} (ps : List Proc) (hw : WF t k)
    (hk : held t k = .sched :: hs) :
    WF t (ps.flatMap (wakeRound c) ++ k) ∧
      held t (ps.flatMap (wakeRound c) ++ k) = .sched :: hs := by
  induction ps with
  | nil => exact ⟨hw, hk⟩
  | cons p ps ih =>
    rw [List.flatMap_cons, List.append_assoc]
    exact wf_wakeRound ih.1 ih.2

/-- The code of `wakeup`. -/
theorem wf_wakeup {c : Chan} (hw : WF t k) :
    WF t (wakeup c ++ k) ∧ held t (wakeup c ++ k) = held t k := by
  simp [wakeup, WF, Fits, held, hw]

/-- The code of `Scheduler::run`. -/
theorem wf_run : WF (.sched h) run ∧ held (.sched h) run = [] := by
  simp [run, scan, WF, Fits, held]

/-- The code of `Scheduler::run` after a switch. -/
theorem wf_afterSwitch :
    WF (.sched h) (afterSwitch p) ∧ held (.sched h) (afterSwitch p) = [.process p] := by
  simp [afterSwitch, registerProcess, scan, WF, Fits, held]

/-- The code of a dispatch. -/
theorem wf_dispatch : WF (.sched h) (dispatch p) ∧ held (.sched h) (dispatch p) = [] := by
  simp [dispatch, afterSwitch, registerProcess, scan, WF, Fits, held, Quick]

/-- The code of `fork`. -/
theorem wf_fork {q : Proc} (hw : WF t k) (hk : held t k = []) :
    WF t (fork p q ++ k) ∧ held t (fork p q ++ k) = [] := by
  simp [fork, registerProcess, WF, Fits, held, Quick, hw, hk]

/-- The code of `exit`. -/
theorem wf_exit {status : Int} (hw : WF (.proc p) k) (hk : held (.proc p) k = []) :
    WF (.proc p) (exit p status ++ k) ∧ held (.proc p) (exit p status ++ k) = [] := by
  simp [exit, WF, Fits, held, Quick, hw, hk]

/-- The code of `reparent`. -/
theorem wf_reparentRounds {r : Proc} (qs : List Proc) (hw : WF t k)
    (hk : .sched ∉ held t k) :
    WF t (qs.flatMap (reparentRound r) ++ k) ∧
      held t (qs.flatMap (reparentRound r) ++ k) = held t k := by
  induction qs with
  | nil => exact ⟨hw, rfl⟩
  | cons q qs ih =>
    rw [List.flatMap_cons, List.append_assoc]
    generalize qs.flatMap (reparentRound r) ++ k = k' at ih
    simp [reparentRound, wakeup, WF, Fits, held, ih.1, ih.2, hk]

/-- The code of `wait`. -/
theorem wf_wait (hw : WF (.proc p) k) (hk : held (.proc p) k = []) :
    WF (.proc p) (wait p ++ k) ∧ held (.proc p) (wait p ++ k) = [] := by
  simp [wait, WF, Fits, held, hw, hk]

/-- The code that a process starts with. -/
theorem wf_returnFork : WF (.proc p) [returnFork, user] ∧
    held (.proc p) [returnFork, user] = [.process p] := by
  simp [WF, Fits, held]

end
end Orfos.Sched
