import Mathlib.Data.Nat.ModEq

/-!
# Little-endian words in a byte buffer

Unaligned little-endian reads and writes of `n` bytes in a buffer of fixed size. A byte
past the end reads as zero and is never written. The word-sized accessors are total on the
machine words: what is written is read back, and disjoint windows do not interfere.
-/

namespace Orfos.Base

variable {N : Nat}

/-- The byte at an offset. -/
def byteAt (b : Fin N → UInt8) (o : Nat) : UInt8 := if h : o < N then b ⟨o, h⟩ else 0

/-- The little-endian number in the `n` bytes from an offset. -/
def getLe (b : Fin N → UInt8) (o : Nat) : Nat → Nat
  | 0 => 0
  | n + 1 => (byteAt b o).toNat + 256 * getLe b (o + 1) n

/-- Overwrite the `n` bytes from an offset by the low bytes of a number. -/
def putLe (b : Fin N → UInt8) (o n v : Nat) : Fin N → UInt8 := fun j ↦
  if o ≤ j.val ∧ j.val < o + n then UInt8.ofNat (v / 256 ^ (j.val - o)) else b j

/-- Overwrite the `n` bytes from an offset. -/
def putBytes (b : Fin N → UInt8) (o n : Nat) (f : Nat → UInt8) : Fin N → UInt8 := fun j ↦
  if o ≤ j.val ∧ j.val < o + n then f (j.val - o) else b j

/-- A write changes the bytes of its window only. -/
theorem byteAt_putLe (b : Fin N → UInt8) (o n v i : Nat) (hi : i < N) :
    byteAt (putLe b o n v) i =
      if o ≤ i ∧ i < o + n then UInt8.ofNat (v / 256 ^ (i - o)) else byteAt b i := by
  simp [byteAt, putLe, hi]

theorem byteAt_putBytes (b : Fin N → UInt8) (o n i : Nat) (f : Nat → UInt8) (hi : i < N) :
    byteAt (putBytes b o n f) i = if o ≤ i ∧ i < o + n then f (i - o) else byteAt b i := by
  simp [byteAt, putBytes, hi]

/-- A read depends on the bytes of its window only. -/
theorem getLe_congr {b c : Fin N → UInt8} {o n : Nat}
    (h : ∀ k < n, byteAt b (o + k) = byteAt c (o + k)) : getLe b o n = getLe c o n := by
  induction n generalizing o with
  | zero => rfl
  | succ n ih =>
    have h0 := h 0 (by omega)
    simp only [Nat.add_zero] at h0
    rw [getLe, getLe, h0, ih]
    intro k hk
    have hs := h (k + 1) (by omega)
    rwa [show o + (k + 1) = o + 1 + k by omega] at hs

/-- The value of a window whose bytes are the digits of a number. -/
theorem getLe_of_digits {b : Fin N → UInt8} {o n v : Nat}
    (h : ∀ k < n, byteAt b (o + k) = UInt8.ofNat (v / 256 ^ k)) :
    getLe b o n = v % 256 ^ n := by
  induction n generalizing o v with
  | zero => simp [getLe, Nat.mod_one]
  | succ n ih =>
    have h0 := h 0 (by omega)
    simp only [Nat.add_zero, Nat.pow_zero, Nat.div_one] at h0
    have hr : getLe b (o + 1) n = v / 256 % 256 ^ n := by
      apply ih
      intro k hk
      have hs := h (k + 1) (by omega)
      rw [show o + (k + 1) = o + 1 + k by omega, Nat.pow_succ', ← Nat.div_div_eq_div_mul] at hs
      exact hs
    rw [getLe, h0, hr, Nat.pow_succ', Nat.mod_mul]
    simp

/-- A window reads back what was written to it. -/
theorem getLe_putLe_same (b : Fin N → UInt8) {o n : Nat} (v : Nat) (h : o + n ≤ N) :
    getLe (putLe b o n v) o n = v % 256 ^ n := by
  apply getLe_of_digits
  intro k hk
  rw [byteAt_putLe _ _ _ _ _ (by omega), if_pos (by omega)]
  congr 3
  omega

/-- A write does not disturb a disjoint window. -/
theorem getLe_putLe_disjoint (b : Fin N → UInt8) {o n o' n' : Nat} (v : Nat)
    (h : o + n ≤ o' ∨ o' + n' ≤ o) : getLe (putLe b o n v) o' n' = getLe b o' n' := by
  apply getLe_congr
  intro k hk
  by_cases hi : o' + k < N
  · rw [byteAt_putLe _ _ _ _ _ hi, if_neg (by omega)]
  · simp [byteAt, hi]

/-- The digits of a window are its bytes. -/
theorem ofNat_getLe_div (b : Fin N → UInt8) {o n k : Nat} (hk : k < n) :
    UInt8.ofNat (getLe b o n / 256 ^ k) = byteAt b (o + k) := by
  induction n generalizing o k with
  | zero => cases hk
  | succ n ih =>
    have hlt := (byteAt b o).toNat_lt
    rw [getLe]
    cases k with
    | zero =>
      rw [Nat.pow_zero, Nat.div_one, show o + 0 = o from rfl]
      apply UInt8.toNat_inj.mp
      rw [UInt8.toNat_ofNat']
      omega
    | succ k =>
      have hdiv : ((byteAt b o).toNat + 256 * getLe b (o + 1) n) / 256 = getLe b (o + 1) n := by
        omega
      rw [Nat.pow_succ', ← Nat.div_div_eq_div_mul, hdiv, ih (by omega)]
      congr 1
      omega

/-- A window overwritten by its own value. -/
theorem putLe_getLe_same (b : Fin N → UInt8) (o n : Nat) : putLe b o n (getLe b o n) = b := by
  funext j
  rw [putLe]
  split
  · next h =>
    rw [ofNat_getLe_div b (by omega), byteAt, dif_pos (by omega)]
    congr 1
    apply Fin.ext
    change o + (j.val - o) = j.val
    omega
  · rfl

theorem getLe_lt (b : Fin N → UInt8) (o n : Nat) : getLe b o n < 256 ^ n := by
  induction n generalizing o with
  | zero => exact Nat.one_pos
  | succ n ih =>
    have hlt := (byteAt b o).toNat_lt
    have hrest := ih (o + 1)
    rw [getLe, Nat.pow_succ]
    omega

/-- The 16-bit word at an offset. -/
def getU16 (b : Fin N → UInt8) (o : Nat) : UInt16 := UInt16.ofNat (getLe b o 2)

/-- The 32-bit word at an offset. -/
def getU32 (b : Fin N → UInt8) (o : Nat) : UInt32 := UInt32.ofNat (getLe b o 4)

/-- The 64-bit word at an offset. -/
def getU64 (b : Fin N → UInt8) (o : Nat) : UInt64 := UInt64.ofNat (getLe b o 8)

/-- Store a 16-bit word. -/
def putU16 (b : Fin N → UInt8) (o : Nat) (v : UInt16) : Fin N → UInt8 := putLe b o 2 v.toNat

/-- Store a 32-bit word. -/
def putU32 (b : Fin N → UInt8) (o : Nat) (v : UInt32) : Fin N → UInt8 := putLe b o 4 v.toNat

/-- Store a 64-bit word. -/
def putU64 (b : Fin N → UInt8) (o : Nat) (v : UInt64) : Fin N → UInt8 := putLe b o 8 v.toNat

theorem getU16_putU16_same (b : Fin N → UInt8) {o : Nat} (v : UInt16) (h : o + 2 ≤ N) :
    getU16 (putU16 b o v) o = v := by
  rw [getU16, putU16, getLe_putLe_same _ _ h,
    Nat.mod_eq_of_lt (show v.toNat < 256 ^ 2 from v.toNat_lt)]
  simp

theorem getU32_putU32_same (b : Fin N → UInt8) {o : Nat} (v : UInt32) (h : o + 4 ≤ N) :
    getU32 (putU32 b o v) o = v := by
  rw [getU32, putU32, getLe_putLe_same _ _ h,
    Nat.mod_eq_of_lt (show v.toNat < 256 ^ 4 from v.toNat_lt)]
  simp

/-- A word overwritten by its own value. -/
theorem putU32_getU32_same (b : Fin N → UInt8) (o : Nat) : putU32 b o (getU32 b o) = b := by
  have hlt : getLe b o 4 < 2 ^ 32 := getLe_lt b o 4
  rw [putU32, getU32, UInt32.toNat_ofNat', Nat.mod_eq_of_lt hlt, putLe_getLe_same]

theorem getU64_putU64_same (b : Fin N → UInt8) {o : Nat} (v : UInt64) (h : o + 8 ≤ N) :
    getU64 (putU64 b o v) o = v := by
  rw [getU64, putU64, getLe_putLe_same _ _ h,
    Nat.mod_eq_of_lt (show v.toNat < 256 ^ 8 from v.toNat_lt)]
  simp

end Orfos.Base
