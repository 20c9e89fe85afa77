import Mathlib.Data.List.Basic
import Mathlib.Order.Lattice

/-!
# Overwriting a part of a list

A store of lists has one for each of its keys. A write puts elements in place of those of a list from
a position on, and the list grows if they reach behind its end.
-/

namespace Orfos.Base

variable {α κ : Type}

/-- A list with some elements in place of those from a position on. -/
def overwrite (l : List α) (o : Nat) (xs : List α) : List α :=
  l.take o ++ xs ++ l.drop (o + xs.length)

section

variable {l xs ys : List α} {o k : Nat}

theorem length_overwrite (xs : List α) (h : o ≤ l.length) :
    (overwrite l o xs).length = max l.length (o + xs.length) := by
  rw [overwrite, List.length_append, List.length_append, List.length_take, List.length_drop]
  omega

theorem getElem?_overwrite (h : o ≤ l.length) : (overwrite l o xs)[k]? =
    if o ≤ k ∧ k < o + xs.length then xs[k - o]? else l[k]? := by
  have htake : (l.take o).length = o := List.length_take_of_le h
  rw [overwrite]
  by_cases hlow : k < o
  · rw [if_neg (by omega), List.append_assoc, List.getElem?_append_left (by omega),
      List.getElem?_take_of_lt hlow]
  · by_cases hhigh : k < o + xs.length
    · rw [if_pos ⟨by omega, hhigh⟩, List.append_assoc, List.getElem?_append_right (by omega), htake,
        List.getElem?_append_left (by omega)]
    · have hlen : (l.take o ++ xs).length = o + xs.length := by
        rw [List.length_append, htake]
      rw [if_neg (by omega), List.getElem?_append_right (by omega), hlen, List.getElem?_drop,
        Nat.add_sub_cancel' (by omega)]

@[simp] theorem overwrite_nil (l : List α) (o : Nat) : overwrite l o [] = l := by
  rw [overwrite, List.append_nil, List.length_nil, Nat.add_zero, List.take_append_drop]

/-- A list with the elements of `xs` from `o` on and those of `l` elsewhere. -/
theorem eq_overwrite {l' : List α} (h : o ≤ l.length) (hlen : l'.length = max l.length (o + xs.length))
    (hin : ∀ k < xs.length, l'[o + k]? = xs[k]?)
    (hout : ∀ k < l.length, ¬ (o ≤ k ∧ k < o + xs.length) → l'[k]? = l[k]?) :
    l' = overwrite l o xs := by
  apply List.ext_getElem?
  intro k
  rw [getElem?_overwrite h]
  by_cases hk : o ≤ k ∧ k < o + xs.length
  · rw [if_pos hk, ← hin (k - o) (by omega), Nat.add_sub_cancel' hk.1]
  · rw [if_neg hk]
    by_cases hlt : k < l.length
    · exact hout k hlt hk
    · rw [List.getElem?_eq_none (by omega), List.getElem?_eq_none (by omega)]

end

/-! ### Stores of lists -/

section

variable [DecidableEq κ]

/-- A write of `xs` at `o` to the list of a key. -/
def put (σ : κ → List α) (m : κ) (o : Nat) (xs : List α) : κ → List α :=
  Function.update σ m (overwrite (σ m) o xs)

variable {σ τ υ : κ → List α} {m m' : κ} {o : Nat} {xs ys : List α}

@[simp] theorem put_self : put σ m o xs m = overwrite (σ m) o xs := Function.update_self ..

theorem put_of_ne (h : m' ≠ m) : put σ m o xs m' = σ m' := Function.update_of_ne h ..

@[simp] theorem put_nil : put σ m o [] = σ := by
  rw [put, overwrite_nil, Function.update_eq_self]

end
end Orfos.Base
