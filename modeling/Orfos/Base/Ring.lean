import Mathlib.Data.Fin.Basic
import Mathlib.Data.Nat.ModEq
import Mathlib.Logic.Function.Basic

/-!
# Ring buffers

The entries of a queue from number `lo` up to number `hi` in an array of `n` places: entry `k` is
in place `k % n`. The numbers themselves are kept modulo a multiple of `n`.
-/

namespace Orfos.Base.Ring

variable {α : Type} {n : Nat} {lo hi : Nat}

/-- The place of an entry. -/
def place (n : Nat) [NeZero n] (k : Nat) : Fin n := Fin.ofNat n k

/-- The ring holds the entries `f` from number `lo` up to `hi`. -/
def Holds [NeZero n] (ring : Fin n → α) (lo hi : Nat) (f : Nat → α) : Prop :=
  ∀ k, lo ≤ k → k < hi → ring (place n k) = f k

variable [NeZero n] {ring : Fin n → α} {f g : Nat → α}

theorem place_inj {j k : Nat} (h : place n j = place n k) (hjk : j ≤ k) (hlt : k < j + n) :
    j = k := by
  have hmod : j % n = k % n := congrArg Fin.val h
  have hdiv : n ∣ k - j := (Nat.modEq_iff_dvd' hjk).mp hmod
  have hzero := Nat.eq_zero_of_dvd_of_lt hdiv (by omega)
  omega

theorem Holds.congr (h : Holds ring lo hi f) (hg : ∀ k, lo ≤ k → k < hi → g k = f k) :
    Holds ring lo hi g := fun k h₁ h₂ ↦ by rw [h k h₁ h₂, hg k h₁ h₂]

/-- While the ring is not full, the next place may be written. -/
theorem Holds.store (h : Holds ring lo hi f) (hroom : hi < lo + n) (a : α) :
    Holds (Function.update ring (place n hi) a) lo hi f := by
  intro k h₁ h₂
  rw [Function.update_of_ne, h k h₁ h₂]
  intro he
  have := place_inj he (by omega) (by omega)
  omega

/-- The entry in the next place is added. -/
theorem Holds.extend (h : Holds ring lo hi f) (hnext : ring (place n hi) = f hi) :
    Holds ring lo (hi + 1) f := by
  intro k h₁ h₂
  by_cases hk : k = hi
  · rw [hk, hnext]
  · exact h k h₁ (by omega)

/-- The first entry is taken out. -/
theorem Holds.drop (h : Holds ring lo hi f) : Holds ring (lo + 1) hi f :=
  fun k h₁ h₂ ↦ h k (by omega) h₂

end Orfos.Base.Ring
