import Mathlib.Algebra.Order.Group.Int
import Mathlib.Data.Int.Order.Basic
import Mathlib.Data.Nat.Find

/-!
# Comparing strings

`strncmp` of `kernel/lib/string.cpp`; `user/lib/string.cpp` has the same text. A string is the
sequence of the bytes from its pointer on. The loop does not look at the number of bytes that it may
compare, and ends only at a difference or at a common zero byte.
-/

namespace Orfos.CString

/-- The loop of `strncmp` from index `i` on, for at most `fuel` rounds: the result, and the last
index whose bytes are read. -/
def strncmpFrom (s1 s2 : Nat → UInt8) : Nat → Nat → Option (Int × Nat)
  | 0, _ => none
  | fuel + 1, i =>
    if s1 i = s2 i then
      if s1 i = 0 then some (0, i) else strncmpFrom s1 s2 fuel (i + 1)
    else some ((s1 i).toNat - (s2 i).toNat, i)

/-- `strncmp`. -/
def strncmp (s1 s2 : Nat → UInt8) (_n : UInt64) (fuel : Nat) : Option (Int × Nat) :=
  strncmpFrom s1 s2 fuel 0

/-- `strncmp`, `user/lib/string.cpp`. -/
def User.strncmp : (Nat → UInt8) → (Nat → UInt8) → UInt64 → Nat → Option (Int × Nat) :=
  CString.strncmp

/-- The strings agree on `n` bytes, or up to a common zero byte before. -/
def Agree (s1 s2 : Nat → UInt8) (n : Nat) : Prop :=
  (∀ i < n, s1 i = s2 i) ∨ ∃ k < n, (∀ i ≤ k, s1 i = s2 i) ∧ s1 k = 0

/-- The result `r` compares `n` bytes, and `last` is the last index that was read. -/
structure Compares (s1 s2 : Nat → UInt8) (n : Nat) (r : Int) (last : Nat) : Prop where
  zero : r = 0 ↔ Agree s1 s2 n
  sign : ¬ Agree s1 s2 n → ∀ k < n, (∀ i < k, s1 i = s2 i) → s1 k ≠ s2 k →
    r.sign = ((s1 k).toNat - (s2 k).toNat : Int).sign
  within : last < n

/-- The call returns, and with the comparison of `n` bytes. -/
def Correct (cmp : (Nat → UInt8) → (Nat → UInt8) → UInt64 → Nat → Option (Int × Nat))
    (s1 s2 : Nat → UInt8) (n : UInt64) : Prop :=
  ∃ fuel r last, cmp s1 s2 n fuel = some (r, last) ∧ Compares s1 s2 n.toNat r last

section

variable {s1 s2 : Nat → UInt8} {n : UInt64} {fuel i last : Nat} {r : Int}

/-- Where the loop goes on. -/
def Goes (s1 s2 : Nat → UInt8) (i : Nat) : Prop := s1 i = s2 i ∧ s1 i ≠ 0

theorem difference_ne_zero {a b : UInt8} (h : a ≠ b) : (a.toNat - b.toNat : Int) ≠ 0 := by
  have hne : a.toNat ≠ b.toNat := fun he ↦ h (UInt8.toNat_inj.mp he)
  omega

/-- The result of a loop that returned, and where it ended. -/
theorem strncmpFrom_returns (h : strncmpFrom s1 s2 fuel i = some (r, last)) :
    i ≤ last ∧ (∀ l, i ≤ l → l < last → Goes s1 s2 l) ∧ ¬ Goes s1 s2 last ∧
      r = (s1 last).toNat - (s2 last).toNat := by
  induction fuel generalizing i with
  | zero => cases h
  | succ fuel ih =>
    rw [strncmpFrom] at h
    split at h
    · next heq =>
      split at h
      · next hzero =>
        cases h
        refine ⟨le_rfl, fun l hil hli ↦ absurd hli (Nat.not_lt.mpr hil), fun hg ↦ hg.2 hzero, ?_⟩
        rw [heq, Int.sub_self]
      · next hne =>
        obtain ⟨hle, hgoes, hrest⟩ := ih h
        refine ⟨by omega, fun l hil hli ↦ ?_, hrest⟩
        by_cases hl : l = i
        · subst hl
          exact ⟨heq, hne⟩
        · exact hgoes l (by omega) hli
    · next hne =>
      cases h
      exact ⟨le_rfl, fun l hil hli ↦ absurd hli (Nat.not_lt.mpr hil), fun hg ↦ hne hg.1, rfl⟩

/-- The loop returns if it has enough rounds to come to its end. -/
theorem strncmpFrom_reaches (fuel : Nat) (hle : i ≤ last) (hgoes : ∀ l, i ≤ l → l < last → Goes s1 s2 l)
    (hend : ¬ Goes s1 s2 last) (hfuel : last < i + fuel) :
    ∃ r, strncmpFrom s1 s2 fuel i = some (r, last) := by
  induction fuel generalizing i with
  | zero => omega
  | succ fuel ih =>
    rw [strncmpFrom]
    by_cases hi : i = last
    · subst hi
      split
      · next heq =>
        have hzero : s1 i = 0 := by
          by_contra hne
          exact hend ⟨heq, hne⟩
        rw [if_pos hzero]
        exact ⟨0, rfl⟩
      · exact ⟨_, rfl⟩
    · obtain ⟨heq, hne⟩ := hgoes i le_rfl (by omega)
      rw [if_pos heq, if_neg hne]
      exact ih (by omega) (fun l hil hli ↦ hgoes l (by omega) hli) (by omega)

/-- A loop that ends below the bound compares as many bytes as it should. -/
theorem compares_of_returns {n : Nat} (h : strncmpFrom s1 s2 fuel 0 = some (r, last))
    (hn : last < n) : Compares s1 s2 n r last := by
  obtain ⟨-, hgoes, hend, rfl⟩ := strncmpFrom_returns h
  have hbelow : ∀ l < last, Goes s1 s2 l := fun l hl ↦ hgoes l (Nat.zero_le l) hl
  by_cases heq : s1 last = s2 last
  · have hzero : s1 last = 0 := by
      by_contra hne
      exact hend ⟨heq, hne⟩
    have hagree : Agree s1 s2 n := by
      refine .inr ⟨last, hn, fun l hl ↦ ?_, hzero⟩
      rcases hl.lt_or_eq with hl | rfl
      · exact (hbelow l hl).1
      · exact heq
    refine ⟨iff_of_true ?_ hagree, fun hno ↦ absurd hagree hno, hn⟩
    rw [heq, Int.sub_self]
  · have hdiffer : ¬ Agree s1 s2 n := by
      rintro (hall | ⟨k, hk, hall, hzero⟩)
      · exact heq (hall last hn)
      · rcases Nat.lt_or_ge k last with hlt | hge
        · exact (hbelow k hlt).2 hzero
        · exact heq (hall last hge)
    refine ⟨iff_of_false (difference_ne_zero heq) hdiffer, fun _ k hk hsame hne ↦ ?_, hn⟩
    have hkl : k = last := by
      rcases Nat.lt_trichotomy k last with hlt | rfl | hgt
      · exact absurd (hbelow k hlt).1 hne
      · rfl
      · exact absurd (hsame last hgt) heq
    rw [hkl]

/-- `strncmp` compares right exactly if the strings differ or both end below the bound. -/
theorem correct_iff : Correct strncmp s1 s2 n ↔
    ∃ i < n.toNat, s1 i ≠ s2 i ∨ s1 i = 0 := by
  have hstop : ∀ i, (s1 i ≠ s2 i ∨ s1 i = 0) ↔ ¬ Goes s1 s2 i := fun i ↦ by
    rw [Goes, not_and_or, not_not]
  simp only [hstop]
  constructor
  · rintro ⟨fuel, r, last, h, hc⟩
    exact ⟨last, hc.within, (strncmpFrom_returns h).2.2.1⟩
  · rintro ⟨i, hi, hend⟩
    classical
    have hex : ∃ j, ¬ Goes s1 s2 j := ⟨i, hend⟩
    have hfirst : ∀ l, 0 ≤ l → l < Nat.find hex → Goes s1 s2 l := fun l _ hl ↦
      not_not.mp (Nat.find_min hex hl)
    obtain ⟨r, hr⟩ := strncmpFrom_reaches (Nat.find hex + 1) (Nat.zero_le _) hfirst
      (Nat.find_spec hex) (by omega)
    exact ⟨_, r, _, hr, compares_of_returns hr (lt_of_le_of_lt (Nat.find_min' hex hend) hi)⟩

/-- The kernel's and the user library's `strncmp` compare right exactly if the strings differ or both
end below the bound. -/
theorem strncmp_correct_iff (s1 s2 : Nat → UInt8) (n : UInt64) :
    (Correct strncmp s1 s2 n ↔ ∃ i < n.toNat, s1 i ≠ s2 i ∨ s1 i = 0) ∧
      (Correct User.strncmp s1 s2 n ↔ ∃ i < n.toNat, s1 i ≠ s2 i ∨ s1 i = 0) :=
  ⟨correct_iff, correct_iff⟩

/-- Two strings that agree on three bytes and differ in the fourth one. -/
theorem not_correct_fourth_byte :
    ¬ Correct strncmp (fun i ↦ [97, 98, 99, 100].getD i 0)
      (fun i ↦ [97, 98, 99, 101].getD i 0) 3 := by
  rw [correct_iff]
  decide

end

end Orfos.CString
