import Mathlib.Data.Nat.Basic

/-!
# Ranges of a partial memory

A partial memory has a value in some of its places. `extent` is how many places of a range a
sequential reader or writer gets to before the first one that is not there, and `seek` is how many
it passes before the first value that it looks for.
-/

namespace Orfos.Base

variable {α : Type}

/-- The number of places from `a` on, at most `n`, before the first one that is not there. -/
def extent (f : Nat → Option α) (a : Nat) : Nat → Nat
  | 0 => 0
  | n + 1 => if (f a).isSome then extent f (a + 1) n + 1 else 0

/-- The number of places from `a` on, of at most `n`, before the first value with `p`. There is no
place that is not there on the way. -/
def seek (f : Nat → Option α) (p : α → Bool) (a : Nat) : Nat → Option Nat
  | 0 => none
  | n + 1 =>
    match f a with
    | none => none
    | some x => if p x then some 0 else (seek f p (a + 1) n).map (· + 1)

section

variable {f g : Nat → Option α} {a n m k : Nat}

theorem extent_le (f : Nat → Option α) (a n : Nat) : extent f a n ≤ n := by
  induction n generalizing a with
  | zero => exact Nat.le_refl 0
  | succ n ih =>
    have := ih (a + 1)
    rw [extent]
    split <;> omega

/-- The places before the extent are there. -/
theorem isSome_of_lt_extent (h : k < extent f a n) : (f (a + k)).isSome := by
  induction n generalizing a k with
  | zero => exact absurd h (Nat.not_lt_zero k)
  | succ n ih =>
    rw [extent] at h
    split at h
    · next ha =>
      cases k with
      | zero => exact ha
      | succ k =>
        have hk := ih (a := a + 1) (k := k) (by omega)
        rwa [Nat.add_assoc, Nat.add_comm 1 k] at hk
    · exact absurd h (Nat.not_lt_zero k)

/-- The place at the extent is not there, if it is in the range. -/
theorem not_isSome_extent (h : extent f a n < n) : ¬ (f (a + extent f a n)).isSome := by
  induction n generalizing a with
  | zero => exact absurd h (Nat.not_lt_zero _)
  | succ n ih =>
    rw [extent] at h ⊢
    split at h
    · next ha =>
      rw [if_pos ha]
      have hn := ih (a := a + 1) (by omega)
      rwa [Nat.add_assoc, Nat.add_comm 1] at hn
    · next ha =>
      rw [if_neg ha]
      exact ha

/-- The whole range is there. -/
theorem extent_eq_iff : extent f a n = n ↔ ∀ k < n, (f (a + k)).isSome := by
  constructor
  · intro h k hk
    exact isSome_of_lt_extent (n := n) (by omega)
  · intro h
    by_contra hne
    have hlt := Nat.lt_of_le_of_ne (extent_le f a n) hne
    exact not_isSome_extent hlt (h _ hlt)

/-- A range in two parts, the first of which is there. -/
theorem extent_add (h : ∀ k < m, (f (a + k)).isSome) :
    extent f a (m + n) = m + extent f (a + m) n := by
  induction m generalizing a with
  | zero => rw [Nat.zero_add, Nat.zero_add, Nat.add_zero]
  | succ m ih =>
    have ha := h 0 (Nat.succ_pos m)
    rw [Nat.add_zero] at ha
    have hrest := ih (a := a + 1) fun k hk ↦ by
      have := h (k + 1) (by omega)
      rwa [Nat.add_assoc, Nat.add_comm 1 k]
    have hplace : a + 1 + m = a + (m + 1) := by omega
    rw [Nat.succ_add, extent, if_pos ha, hrest, hplace]
    omega

/-- The extent of a shorter range. -/
theorem extent_of_le (h : m ≤ n) : extent f a m = min m (extent f a n) := by
  induction n generalizing a m with
  | zero =>
    obtain rfl : m = 0 := by omega
    rfl
  | succ n ih =>
    cases m with
    | zero => rw [Nat.zero_min, extent]
    | succ m =>
      rw [extent, extent]
      split
      · rw [ih (by omega), Nat.add_min_add_right]
      · rfl

theorem extent_of_none (h : f a = none) : extent f a n = 0 := by
  cases n with
  | zero => rfl
  | succ n =>
    rw [extent, h]
    rfl

/-- The extent depends on which places are there only. -/
theorem extent_congr (h : ∀ x, (g x).isSome = (f x).isSome) : extent g a n = extent f a n := by
  induction n generalizing a with
  | zero => rfl
  | succ n ih => rw [extent, extent, h, ih]

theorem seek_eq_some_iff {p : α → Bool} : seek f p a n = some k ↔
    k < n ∧ (∃ x, f (a + k) = some x ∧ p x = true) ∧
      ∀ j < k, ∃ x, f (a + j) = some x ∧ p x = false := by
  induction n generalizing a k with
  | zero => simp [seek]
  | succ n ih =>
    rw [seek]
    cases hf : f a with
    | none =>
      refine iff_of_false (by simp) fun ⟨_, ⟨x, hx, _⟩, hbefore⟩ ↦ ?_
      cases k with
      | zero =>
        rw [Nat.add_zero, hf] at hx
        cases hx
      | succ k =>
        obtain ⟨y, hy, -⟩ := hbefore 0 (Nat.succ_pos k)
        rw [Nat.add_zero, hf] at hy
        cases hy
    | some x =>
      cases hp : p x with
      | true =>
        cases k with
        | zero => simp [hf, hp]
        | succ k =>
          refine iff_of_false (by simp [hp]) fun ⟨_, _, hbefore⟩ ↦ ?_
          obtain ⟨y, hy, hpy⟩ := hbefore 0 (Nat.succ_pos k)
          rw [Nat.add_zero, hf] at hy
          cases hy
          rw [hp] at hpy
          cases hpy
      | false =>
        have hshift : ∀ j, f (a + 1 + j) = f (a + (j + 1)) := fun j ↦ by
          rw [Nat.add_assoc, Nat.add_comm 1 j]
        cases k with
        | zero =>
          refine iff_of_false (by simp [hp]) fun ⟨_, ⟨y, hy, hpy⟩, _⟩ ↦ ?_
          rw [Nat.add_zero, hf] at hy
          cases hy
          rw [hp] at hpy
          cases hpy
        | succ k =>
          simp only [hp, Bool.false_eq_true, if_false, Option.map_eq_some_iff, Nat.add_right_cancel_iff,
            exists_eq_right, ih, hshift]
          constructor
          · rintro ⟨hk, hx, hbefore⟩
            refine ⟨by omega, hx, fun j hj ↦ ?_⟩
            cases j with
            | zero => exact ⟨x, hf, hp⟩
            | succ j => exact hbefore j (by omega)
          · rintro ⟨hk, hx, hbefore⟩
            exact ⟨by omega, hx, fun j hj ↦ hbefore (j + 1) (by omega)⟩

/-- A value that is found in the first part of a range. -/
theorem seek_of_prefix {p : α → Bool} (h : seek f p a m = some k) (hle : m ≤ n) :
    seek f p a n = some k := by
  obtain ⟨hk, hx, hbefore⟩ := seek_eq_some_iff.mp h
  exact seek_eq_some_iff.mpr ⟨by omega, hx, hbefore⟩

/-- A range in two parts, the first of which is there without the value. -/
theorem seek_add {p : α → Bool} (hall : ∀ k < m, (f (a + k)).isSome)
    (h : seek f p a m = none) :
    seek f p a (m + n) = (seek f p (a + m) n).map (m + ·) := by
  induction m generalizing a with
  | zero => simp
  | succ m ih =>
    obtain ⟨x, hx⟩ := Option.isSome_iff_exists.mp (hall 0 (Nat.succ_pos m))
    rw [Nat.add_zero] at hx
    rw [seek, hx] at h
    have hp : p x = false := by
      cases hp : p x with
      | true => simp [hp] at h
      | false => rfl
    have hrest : seek f p (a + 1) m = none := by simpa [hp] using h
    have hplace : a + 1 + m = a + (m + 1) := by omega
    rw [Nat.succ_add, seek, hx]
    simp only [hp, Bool.false_eq_true, if_false]
    rw [ih (fun k hk ↦ ?_) hrest, hplace, Option.map_map]
    · congr 1
      funext k
      change m + k + 1 = m + 1 + k
      omega
    · have := hall (k + 1) (by omega)
      rwa [Nat.add_assoc, Nat.add_comm 1 k]

theorem seek_of_none {p : α → Bool} (h : f a = none) : seek f p a n = none := by
  cases n with
  | zero => rfl
  | succ n => rw [seek, h]

/-- The seek depends on the range only. -/
theorem seek_congr {b : Nat} {p : α → Bool} (h : ∀ k < n, g (b + k) = f (a + k)) :
    seek g p b n = seek f p a n := by
  induction n generalizing a b with
  | zero => rfl
  | succ n ih =>
    have h0 := h 0 (Nat.succ_pos n)
    rw [Nat.add_zero, Nat.add_zero] at h0
    rw [seek, seek, h0, ih fun k hk ↦ ?_]
    have := h (k + 1) (by omega)
    rwa [Nat.add_assoc, Nat.add_assoc, Nat.add_comm 1 k]

end

end Orfos.Base
