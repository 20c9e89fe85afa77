import Mathlib.Algebra.BigOperators.Group.Finset.Basic
import Mathlib.Algebra.Order.BigOperators.Group.Finset
import Mathlib.Logic.Function.Basic

/-!
# Shares

A quantity that the members of a family hold in parts. Its total follows the changes of single
members.
-/

namespace Orfos.Base

variable {α : Type} {n : Nat} {f g : Nat → Nat}

/-- The sum of the first `n` shares. -/
def total (n : Nat) (f : Nat → Nat) : Nat := ∑ t ∈ Finset.range n, f t

theorem total_congr (h : ∀ t < n, f t = g t) : total n f = total n g :=
  Finset.sum_congr rfl fun t ht ↦ h t (Finset.mem_range.mp ht)

theorem total_succ (n : Nat) (f : Nat → Nat) : total (n + 1) f = total n f + f n :=
  Finset.sum_range_succ f n

/-- One share changes. -/
theorem total_change {t : Nat} (ht : t < n) (h : ∀ q, q ≠ t → g q = f q) :
    total n g + f t = total n f + g t := by
  have hmem : t ∈ Finset.range n := Finset.mem_range.mpr ht
  have hrest : ∑ q ∈ (Finset.range n).erase t, g q = ∑ q ∈ (Finset.range n).erase t, f q :=
    Finset.sum_congr rfl fun q hq ↦ h q (Finset.ne_of_mem_erase hq)
  rw [total, total, ← Finset.add_sum_erase _ f hmem, ← Finset.add_sum_erase _ g hmem, hrest]
  omega

/-- One member changes. -/
theorem total_update (f : α → Nat) (m : Nat → α) {t : Nat} (a : α) (ht : t < n) :
    total n (fun q ↦ f (Function.update m t a q)) + f (m t) = total n (fun q ↦ f (m q)) + f a := by
  have h := total_change (g := fun q ↦ f (Function.update m t a q)) (f := fun q ↦ f (m q)) ht
    fun q hq ↦ by rw [Function.update_of_ne hq]
  rwa [Function.update_self] at h

theorem le_total {t : Nat} (ht : t < n) : f t ≤ total n f :=
  Finset.single_le_sum (fun _ _ ↦ Nat.zero_le _) (Finset.mem_range.mpr ht)

theorem total_eq_zero (h : ∀ t < n, f t = 0) : total n f = 0 :=
  Finset.sum_eq_zero fun t ht ↦ h t (Finset.mem_range.mp ht)

/-- Two members have no more than the total. -/
theorem add_le_total {t u : Nat} (ht : t < n) (hu : u < n) (hne : t ≠ u) :
    f t + f u ≤ total n f := by
  have h := total_change (f := f) (g := Function.update f t 0) ht
    fun q hq ↦ Function.update_of_ne hq _ _
  have hle := le_total (f := Function.update f t 0) hu
  rw [Function.update_self] at h
  rw [Function.update_of_ne (Ne.symm hne)] at hle
  omega

end Orfos.Base
