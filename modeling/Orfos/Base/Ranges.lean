import Mathlib.Algebra.BigOperators.Group.List.Basic
import Mathlib.Algebra.Ring.Nat
import Mathlib.Data.List.Basic

/-!
# Consecutive ranges

Ranges are pairs of a start and a length. Ranges that follow each other without a gap are given by
their lengths: each one starts where the lengths before it add up to.
-/

namespace Orfos.Base

/-- Each range starts where the one before it ended, from `a` on, and the last one ends at `b`. -/
def Tiles (a : Nat) : List (Nat × Nat) → Nat → Prop
  | [], b => a = b
  | r :: l, b => r.1 = a ∧ Tiles (a + r.2) l b

variable {a b n : Nat} {l : List (Nat × Nat)}

/-- One more range. -/
theorem Tiles.append (h : Tiles a l b) : Tiles a (l ++ [(b, n)]) (b + n) := by
  induction l generalizing a with
  | nil =>
    cases h
    exact ⟨rfl, rfl⟩
  | cons r l ih => exact ⟨h.1, ih h.2⟩

/-- The end is the sum of the lengths. -/
theorem Tiles.sum (h : Tiles a l b) : b = a + (l.map Prod.snd).sum := by
  induction l generalizing a with
  | nil =>
    cases h
    rfl
  | cons r l ih =>
    have := ih h.2
    rw [List.map_cons, List.sum_cons]
    omega

/-- Each range starts where the lengths before it add up to. -/
theorem Tiles.start (h : Tiles a l b) {k : Nat} {r : Nat × Nat} (hr : l[k]? = some r) :
    r.1 = a + ((l.take k).map Prod.snd).sum := by
  induction l generalizing a k with
  | nil => cases hr
  | cons q l ih =>
    cases k with
    | zero =>
      cases hr
      exact h.1
    | succ k =>
      have := ih h.2 (List.getElem?_cons_succ ▸ hr)
      rw [List.take_succ_cons, List.map_cons, List.sum_cons]
      omega

/-- No range starts before the first one. -/
theorem Tiles.le (h : Tiles a l b) {r : Nat × Nat} (hr : r ∈ l) : a ≤ r.1 := by
  obtain ⟨k, hk⟩ := List.mem_iff_getElem?.mp hr
  have := h.start hk
  omega

/-- Different ranges are apart, and in order. -/
theorem Tiles.pairwise (h : Tiles a l b) : l.Pairwise fun r r' ↦ r.1 + r.2 ≤ r'.1 := by
  induction l generalizing a with
  | nil => exact .nil
  | cons q l ih =>
    refine .cons (fun r hr ↦ ?_) (ih h.2)
    have hfirst := h.1
    have := h.2.le hr
    omega

/-- Nothing is skipped. -/
theorem Tiles.cover (h : Tiles a l b) {x : Nat} (ha : a ≤ x) (hb : x < b) :
    ∃ r ∈ l, r.1 ≤ x ∧ x < r.1 + r.2 := by
  induction l generalizing a with
  | nil =>
    cases h
    omega
  | cons q l ih =>
    have hfirst := h.1
    by_cases hx : x < a + q.2
    · exact ⟨q, List.mem_cons_self, by omega, by omega⟩
    · obtain ⟨r, hr, hin⟩ := ih h.2 (by omega)
      exact ⟨r, List.mem_cons_of_mem q hr, hin⟩

end Orfos.Base
