import Mathlib.Logic.Function.Iterate

/-!
# Counting down

The loops that count an unsigned number down, with the test before or after the decrement. A loop
returns its state together with how often its body has run.
-/

namespace Orfos.Base

variable {σ : Type}

theorem toNat_pred_add_one {n : UInt64} (h : n ≠ 0) : (n - 1).toNat + 1 = n.toNat := by
  have hpos : n.toNat ≠ 0 := fun h0 ↦ h (UInt64.toNat_inj.mp h0)
  have hone : (1 : UInt64).toNat = 1 := rfl
  have hle : (1 : UInt64) ≤ n := by
    rw [UInt64.le_iff_toNat_le]
    omega
  rw [UInt64.toNat_sub_of_le _ _ hle]
  omega

/-- `while (n-- > 0)`. -/
def countdownPost (body : σ → σ) (n : UInt64) (s : σ) : σ × Nat :=
  if n ≠ 0 then
    let r := countdownPost body (n - 1) (body s)
    (r.1, r.2 + 1)
  else (s, 0)
termination_by n.toNat
decreasing_by
  have hpred := toNat_pred_add_one ‹n ≠ 0›
  omega

/-- `while (--n)`. -/
def countdownPre (body : σ → σ) (n : UInt64) (s : σ) : σ × Nat :=
  if n - 1 ≠ 0 then
    let r := countdownPre body (n - 1) (body s)
    (r.1, r.2 + 1)
  else (s, 0)
termination_by (n - 1).toNat
decreasing_by
  have hpred := toNat_pred_add_one ‹n - 1 ≠ 0›
  omega

/-- The body runs as often as the number says. -/
theorem countdownPost_eq (body : σ → σ) (n : UInt64) (s : σ) :
    countdownPost body n s = (body^[n.toNat] s, n.toNat) := by
  fun_induction countdownPost body n s with
  | case1 n s h r ih =>
    have hpred := toNat_pred_add_one h
    rw [← hpred, Function.iterate_succ_apply]
    exact congrArg (fun r ↦ (r.1, r.2 + 1)) ih
  | case2 n s h =>
    obtain rfl : n = 0 := by simpa using h
    rfl

/-- A test after the decrement is a test of the next number, also where zero wraps around. -/
theorem countdownPre_eq_post (body : σ → σ) (n : UInt64) (s : σ) :
    countdownPre body n s = countdownPost body (n - 1) s := by
  fun_induction countdownPre body n s with
  | case1 n s h r ih =>
    rw [countdownPost, if_pos h]
    exact congrArg (fun r ↦ (r.1, r.2 + 1)) ih
  | case2 n s h => rw [countdownPost, if_neg h]

/-- The body runs once less than the number says. -/
theorem countdownPre_eq (body : σ → σ) (n : UInt64) (s : σ) :
    countdownPre body n s = (body^[(n - 1).toNat] s, (n - 1).toNat) := by
  rw [countdownPre_eq_post, countdownPost_eq]

/-- What holds before the loop and is carried on by each round holds after the loop. -/
theorem iterate_invariant {f : σ → σ} {s : σ} {N : Nat} {I : Nat → σ → Prop} (h0 : I 0 s)
    (hstep : ∀ k t, k < N → I k t → I (k + 1) (f t)) : I N (f^[N] s) := by
  induction N with
  | zero => exact h0
  | succ N ih =>
    rw [Function.iterate_succ_apply']
    exact hstep N _ (Nat.lt_succ_self N) (ih fun k t hk ↦ hstep k t (Nat.lt_succ_of_lt hk))

end Orfos.Base
