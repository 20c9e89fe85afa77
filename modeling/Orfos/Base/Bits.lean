import Mathlib.Tactic.IntervalCases
import Orfos.Base.Words

/-!
# Bits in a byte buffer

A buffer as an array of bits, eight in each byte from the low end. Setting or clearing a bit
changes that bit and no other.
-/

namespace Orfos.Base

variable {N : Nat}

/-- The mask of a bit in its byte. -/
def bitMask (k : Nat) : UInt8 := 1 <<< UInt8.ofNat (k % 8)

/-- The bit at an index, counted from the low end of each byte. -/
def bitAt (b : Fin N → UInt8) (k : Nat) : Bool := byteAt b (k / 8) &&& bitMask k != 0

/-- Set a bit. -/
def setBit (b : Fin N → UInt8) (k : Nat) : Fin N → UInt8 :=
  putBytes b (k / 8) 1 fun _ ↦ byteAt b (k / 8) ||| bitMask k

/-- Clear a bit. -/
def clearBit (b : Fin N → UInt8) (k : Nat) : Fin N → UInt8 :=
  putBytes b (k / 8) 1 fun _ ↦ byteAt b (k / 8) &&& ~~~ bitMask k

private theorem toNat_bitMask (k : Nat) : (bitMask k).toNat = 2 ^ (k % 8) := by
  have hk : k % 8 < 8 := Nat.mod_lt _ (by decide)
  unfold bitMask
  interval_cases k % 8 <;> rfl

private theorem and_bitMask (x : UInt8) (k : Nat) :
    (x &&& bitMask k != 0) = x.toNat.testBit (k % 8) := by
  have h : (x &&& bitMask k).toNat = x.toNat &&& 2 ^ (k % 8) := by
    rw [UInt8.toNat_and, toNat_bitMask]
  have hz : x &&& bitMask k = 0 ↔ x.toNat.testBit (k % 8) = false := by
    rw [← UInt8.toNat_inj, h]
    constructor
    · intro h0
      have ht := congrArg (Nat.testBit · (k % 8)) h0
      simpa [Nat.testBit_and, Nat.testBit_two_pow_self] using ht
    · intro ht
      apply Nat.eq_of_testBit_eq
      intro i
      rw [Nat.testBit_and, Nat.testBit_two_pow]
      by_cases hi : k % 8 = i
      · subst i
        simp [ht]
      · simp [hi]
  cases ht : x.toNat.testBit (k % 8) with
  | false => simpa using hz.mpr ht
  | true =>
    simp only [bne_iff_ne]
    intro h0
    rw [hz.mp h0] at ht
    cases ht

theorem bitAt_eq (b : Fin N → UInt8) (k : Nat) :
    bitAt b k = (byteAt b (k / 8)).toNat.testBit (k % 8) := and_bitMask _ k

/-- A bit after the byte of another one was replaced. -/
private theorem bitAt_putByte (b : Fin N → UInt8) {k j : Nat} (x : UInt8) (hk : k / 8 < N) :
    bitAt (putBytes b (k / 8) 1 fun _ ↦ x) j =
      if j / 8 = k / 8 then x.toNat.testBit (j % 8) else bitAt b j := by
  rw [bitAt_eq]
  by_cases hj : j / 8 = k / 8
  · rw [if_pos hj, hj, byteAt_putBytes _ _ _ _ _ hk, if_pos (by omega)]
  · rw [if_neg hj, bitAt_eq]
    by_cases hn : j / 8 < N
    · rw [byteAt_putBytes _ _ _ _ _ hn, if_neg (by omega)]
    · simp [byteAt, hn]

/-- Setting a bit sets that bit. -/
theorem bitAt_setBit (b : Fin N → UInt8) {k : Nat} (j : Nat) (hk : k / 8 < N) :
    bitAt (setBit b k) j = (bitAt b j || decide (j = k)) := by
  rw [setBit, bitAt_putByte _ _ hk, bitAt_eq]
  by_cases hj : j / 8 = k / 8
  · rw [if_pos hj, UInt8.toNat_or, Nat.testBit_or, toNat_bitMask, Nat.testBit_two_pow, hj]
    congr 1
    simp only [decide_eq_decide]
    omega
  · have hne : j ≠ k := by
      rintro rfl
      exact hj rfl
    simp [hj, hne]

/-- Clearing a bit clears that bit. -/
theorem bitAt_clearBit (b : Fin N → UInt8) {k : Nat} (j : Nat) (hk : k / 8 < N) :
    bitAt (clearBit b k) j = (bitAt b j && !decide (j = k)) := by
  rw [clearBit, bitAt_putByte _ _ hk, bitAt_eq]
  by_cases hj : j / 8 = k / 8
  · have hn : (~~~ bitMask k).toNat.testBit (j % 8) = !decide (k % 8 = j % 8) := by
      rw [UInt8.toNat_not, toNat_bitMask]
      have h8 : 2 ^ (k % 8) < 2 ^ 8 := Nat.pow_lt_pow_right (by decide) (Nat.mod_lt _ (by decide))
      have := Nat.testBit_two_pow_sub_succ h8 (j % 8)
      rw [show UInt8.size - 1 - 2 ^ (k % 8) = 2 ^ 8 - (2 ^ (k % 8) + 1) by
        simp only [UInt8.size]
        omega, this, Nat.testBit_two_pow]
      simp [Nat.mod_lt j (show 0 < 8 by decide)]
    rw [if_pos hj, UInt8.toNat_and, Nat.testBit_and, hn, hj]
    congr 2
    simp only [decide_eq_decide]
    omega
  · have hne : j ≠ k := by
      rintro rfl
      exact hj rfl
    simp [hj, hne]

end Orfos.Base
