import Mathlib.Algebra.Ring.Nat
import Mathlib.Logic.Function.Basic
import Orfos.Base.Countdown

/-!
# Writing memory

`memcpy`, `memmove` and `memset` of `kernel/lib/string.cpp`; `user/lib/string.cpp` has the same
text. `memcpy` and `memset` return with how often their loop has run; the pointer that each function
returns is its first argument. Addresses wrap around, so a range is given by the distances from its
start.
-/

namespace Orfos.CString

open Orfos.Base

/-- The bytes of memory by their addresses. -/
abbrev Bytes : Type := UInt64 → UInt8

/-- The memory and the pointers `d` and `s` of a copying loop. -/
structure Cursor where
  bytes : Bytes
  d : UInt64
  s : UInt64

/-- `*d++ = *s++`. -/
def Cursor.forward (c : Cursor) : Cursor :=
  ⟨Function.update c.bytes c.d (c.bytes c.s), c.d + 1, c.s + 1⟩

/-- `*--d = *--s`. -/
def Cursor.backward (c : Cursor) : Cursor :=
  ⟨Function.update c.bytes (c.d - 1) (c.bytes (c.s - 1)), c.d - 1, c.s - 1⟩

/-- `memcpy`. -/
def memcpy (m : Bytes) (dest src n : UInt64) : Bytes × Nat :=
  let r := countdownPre Cursor.forward n ⟨m, dest, src⟩
  (r.1.bytes, r.2)

/-- `memmove`. -/
def memmove (m : Bytes) (dst src n : UInt64) : Bytes :=
  if n = 0 then m
  else if src < dst ∧ src + n > dst then
    (countdownPost Cursor.backward n ⟨m, dst + n, src + n⟩).1.bytes
  else (countdownPost Cursor.forward n ⟨m, dst, src⟩).1.bytes

/-- `memset`; the fill byte is the low byte of an `int`. -/
def memset (m : Bytes) (dest : UInt64) (ch : UInt32) (n : UInt64) : Bytes × Nat :=
  let r := countdownPre
    (fun c : Bytes × UInt64 ↦ (Function.update c.1 c.2 ch.toUInt8, c.2 + 1)) n (m, dest)
  (r.1.1, r.2)

namespace User

/-- `memcpy`, `user/lib/string.cpp`. -/
def memcpy : Bytes → UInt64 → UInt64 → UInt64 → Bytes × Nat := CString.memcpy

/-- `memmove`, `user/lib/string.cpp`. -/
def memmove : Bytes → UInt64 → UInt64 → UInt64 → Bytes := CString.memmove

/-- `memset`, `user/lib/string.cpp`. -/
def memset : Bytes → UInt64 → UInt32 → UInt64 → Bytes × Nat := CString.memset

end User

/-- From `m` to `t` exactly the `n` bytes from `dest` on are written, with the values of `f`. -/
structure Writes (m t : Bytes) (dest n : UInt64) (f : UInt64 → UInt8) : Prop where
  written : ∀ i, i < n → t (dest + i) = f i
  frame : ∀ a, (∀ i, i < n → a ≠ dest + i) → t a = m a

/-- The bytes with distances between `lo` and `hi` from `dest` have the values of `f`, and the other
ones are those of `m`. -/
def Window (m t : Bytes) (dest : UInt64) (f : UInt64 → UInt8) (lo hi : Nat) : Prop :=
  ∀ a, t a = if lo ≤ (a - dest).toNat ∧ (a - dest).toNat < hi then f (a - dest) else m a

section

variable {m t : Bytes} {dest src n a : UInt64} {f : UInt64 → UInt8} {k lo hi : Nat}

theorem toNat_ofNat_of_lt (h : k < 2 ^ 64) : (UInt64.ofNat k).toNat = k := by
  rw [UInt64.toNat_ofNat']
  exact Nat.mod_eq_of_lt h

/-- An address is its distance from another one. -/
theorem eq_add_ofNat_iff (dest : UInt64) (h : k < 2 ^ 64) :
    a = dest + UInt64.ofNat k ↔ (a - dest).toNat = k := by
  constructor
  · rintro rfl
    rw [UInt64.add_comm, UInt64.add_sub_cancel, toNat_ofNat_of_lt h]
  · intro hd
    rw [← hd, UInt64.ofNat_toNat, UInt64.add_comm, UInt64.sub_add_cancel]

/-- Nothing is written yet. -/
theorem Window.start (m : Bytes) (dest : UInt64) (f : UInt64 → UInt8) (k : Nat) :
    Window m m dest f k k := by
  intro a
  rw [if_neg (by omega)]

/-- A byte behind the window is written. -/
theorem Window.above (h : Window m t dest f lo hi) (hle : lo ≤ hi) (hlt : hi < 2 ^ 64) :
    Window m (Function.update t (dest + UInt64.ofNat hi) (f (UInt64.ofNat hi))) dest f lo
      (hi + 1) := by
  intro a
  by_cases ha : a = dest + UInt64.ofNat hi
  · have hd := (eq_add_ofNat_iff dest hlt).mp ha
    rw [if_pos (by omega), ha, Function.update_self, ← ha, ← hd, UInt64.ofNat_toNat]
  · have hd : (a - dest).toNat ≠ hi := fun hd ↦ ha ((eq_add_ofNat_iff dest hlt).mpr hd)
    rw [Function.update_of_ne ha, h a]
    exact if_congr (by omega) rfl rfl

/-- A byte before the window is written. -/
theorem Window.below (h : Window m t dest f (lo + 1) hi) (hle : lo < hi) (hlt : lo < 2 ^ 64) :
    Window m (Function.update t (dest + UInt64.ofNat lo) (f (UInt64.ofNat lo))) dest f lo hi := by
  intro a
  by_cases ha : a = dest + UInt64.ofNat lo
  · have hd := (eq_add_ofNat_iff dest hlt).mp ha
    rw [if_pos (by omega), ha, Function.update_self, ← ha, ← hd, UInt64.ofNat_toNat]
  · have hd : (a - dest).toNat ≠ lo := fun hd ↦ ha ((eq_add_ofNat_iff dest hlt).mpr hd)
    rw [Function.update_of_ne ha, h a]
    exact if_congr (by omega) rfl rfl

/-- A byte outside of the window is as before. -/
theorem Window.outside (h : Window m t dest f lo hi)
    (ha : ¬ (lo ≤ (a - dest).toNat ∧ (a - dest).toNat < hi)) : t a = m a := by
  rw [h a, if_neg ha]

/-- A window from the start on is a range that is written. -/
theorem Window.writes (h : Window m t dest f 0 n.toNat) : Writes m t dest n f := by
  constructor
  · intro i hi
    have hlt := UInt64.lt_iff_toNat_lt.mp hi
    have hd : dest + i - dest = i := by rw [UInt64.add_comm, UInt64.add_sub_cancel]
    rw [h, hd, if_pos ⟨Nat.zero_le _, hlt⟩]
  · intro a ha
    refine h.outside fun hd ↦ ha (a - dest) (UInt64.lt_iff_toNat_lt.mpr hd.2) ?_
    rw [UInt64.add_comm, UInt64.sub_add_cancel]

/-! ### The loops -/

/-- A pointer that the body steps over. -/
theorem add_ofNat_add_one (p : UInt64) (k : Nat) :
    p + UInt64.ofNat k + 1 = p + UInt64.ofNat (k + 1) := by
  rw [UInt64.ofNat_add, UInt64.add_assoc]
  rfl

theorem add_ofNat_sub_one (p : UInt64) (k : Nat) :
    p + UInt64.ofNat (k + 1) - 1 = p + UInt64.ofNat k := by
  rw [← add_ofNat_add_one, UInt64.add_sub_cancel]

/-- A loop that copies upwards, if no round writes a byte that a later one reads. -/
theorem forward_window (m : Bytes) (dest src : UInt64) {N : Nat} (hN : N < 2 ^ 64)
    (hclear : ∀ k < N, k ≤ (src + UInt64.ofNat k - dest).toNat) :
    Window m (Cursor.forward^[N] ⟨m, dest, src⟩).bytes dest (fun i ↦ m (src + i)) 0 N := by
  have hinv := iterate_invariant (N := N) (s := (⟨m, dest, src⟩ : Cursor))
    (f := Cursor.forward)
    (I := fun k c ↦ c.d = dest + UInt64.ofNat k ∧ c.s = src + UInt64.ofNat k ∧
      Window m c.bytes dest (fun i ↦ m (src + i)) 0 k)
    ⟨(UInt64.add_zero _).symm, (UInt64.add_zero _).symm, .start _ _ _ _⟩ ?_
  · exact hinv.2.2
  · rintro k ⟨t, d, s⟩ hk ⟨hd, hs, hw⟩
    dsimp only at hd hs hw
    subst hd hs
    refine ⟨add_ofNat_add_one _ _, add_ofNat_add_one _ _, ?_⟩
    have hread : t (src + UInt64.ofNat k) = m (src + UInt64.ofNat k) :=
      hw.outside fun h ↦ absurd h.2 (Nat.not_lt.mpr (hclear k hk))
    change Window m (Function.update t (dest + UInt64.ofNat k) (t (src + UInt64.ofNat k))) _ _ _ _
    rw [hread]
    exact hw.above (Nat.zero_le k) (by omega)

/-- A loop that copies downwards, if no round writes a byte that a later one reads. -/
theorem backward_window (m : Bytes) (dest src : UInt64) {N : Nat} (hN : N < 2 ^ 64)
    (hclear : ∀ k < N, ¬ (k < (src + UInt64.ofNat k - dest).toNat ∧
      (src + UInt64.ofNat k - dest).toNat < N)) :
    Window m (Cursor.backward^[N] ⟨m, dest + UInt64.ofNat N, src + UInt64.ofNat N⟩).bytes dest
      (fun i ↦ m (src + i)) 0 N := by
  have hinv := iterate_invariant (N := N)
    (s := (⟨m, dest + UInt64.ofNat N, src + UInt64.ofNat N⟩ : Cursor)) (f := Cursor.backward)
    (I := fun k c ↦ c.d = dest + UInt64.ofNat (N - k) ∧ c.s = src + UInt64.ofNat (N - k) ∧
      Window m c.bytes dest (fun i ↦ m (src + i)) (N - k) N)
    ⟨rfl, rfl, .start _ _ _ _⟩ ?_
  · rw [Nat.sub_self] at hinv
    exact hinv.2.2
  · rintro k ⟨t, d, s⟩ hk ⟨hd, hs, hw⟩
    obtain ⟨j, hj⟩ : ∃ j, N - k = j + 1 := ⟨N - k - 1, by omega⟩
    have hj' : N - (k + 1) = j := by omega
    rw [hj] at hd hs hw
    rw [hj']
    dsimp only at hd hs hw
    subst hd hs
    refine ⟨add_ofNat_sub_one _ _, add_ofNat_sub_one _ _, ?_⟩
    have hread : t (src + UInt64.ofNat j) = m (src + UInt64.ofNat j) :=
      hw.outside fun h ↦ hclear j (by omega) ⟨h.1, h.2⟩
    change Window m (Function.update t (dest + UInt64.ofNat (j + 1) - 1)
      (t (src + UInt64.ofNat (j + 1) - 1))) _ _ _ _
    rw [add_ofNat_sub_one, add_ofNat_sub_one, hread]
    exact hw.below (by omega) (by omega)

/-- `memmove` copies right for every overlap of two ranges that do not wrap around. -/
theorem memmove_writes (hs : src.toNat + n.toNat ≤ 2 ^ 64) (hd : dest.toNat + n.toNat ≤ 2 ^ 64) :
    Writes m (memmove m dest src n) dest n fun i ↦ m (src + i) := by
  have hn := n.toNat_lt
  have hof : UInt64.ofNat n.toNat = n := UInt64.ofNat_toNat
  have hdist : ∀ k < n.toNat, (src + UInt64.ofNat k - dest).toNat =
      (2 ^ 64 - dest.toNat + (src.toNat + k)) % 2 ^ 64 := by
    intro k hk
    rw [UInt64.toNat_sub, UInt64.toNat_add, toNat_ofNat_of_lt (by omega)]
    omega
  have hend : (src + n).toNat = (src.toNat + n.toNat) % 2 ^ 64 := UInt64.toNat_add src n
  unfold memmove
  split
  · next h0 =>
    subst h0
    exact ⟨fun i hi ↦ absurd hi UInt64.not_lt_zero, fun _ _ ↦ rfl⟩
  split
  · next hback =>
    have hlt := UInt64.lt_iff_toNat_lt.mp hback.1
    have hgt := UInt64.lt_iff_toNat_lt.mp hback.2
    have hw := backward_window m dest src hn fun k hk ↦ by
      rw [hdist k hk]
      omega
    rw [hof] at hw
    rw [countdownPost_eq]
    exact hw.writes
  · next hforward =>
    have hw := forward_window m dest src hn fun k hk ↦ by
      rw [not_and_or, UInt64.lt_iff_toNat_lt, gt_iff_lt, UInt64.lt_iff_toNat_lt] at hforward
      rw [hdist k hk]
      omega
    rw [countdownPost_eq]
    exact hw.writes

/-- `memmove` of the kernel and of the user library copies right for every overlap. -/
theorem memmove_copies (hs : src.toNat + n.toNat ≤ 2 ^ 64) (hd : dest.toNat + n.toNat ≤ 2 ^ 64) :
    Writes m (memmove m dest src n) dest n (fun i ↦ m (src + i)) ∧
      Writes m (User.memmove m dest src n) dest n fun i ↦ m (src + i) :=
  ⟨memmove_writes hs hd, memmove_writes hs hd⟩

/-- Every byte of the memory is the low byte of its address. -/
def counted : Bytes := UInt64.toUInt8

/-- Two ranges that overlap, in both directions. -/
theorem memmove_copies_overlapping :
    (Writes counted (memmove counted 3 1 4) 3 4 (fun i ↦ counted (1 + i)) ∧
      Writes counted (User.memmove counted 3 1 4) 3 4 fun i ↦ counted (1 + i)) ∧
    Writes counted (memmove counted 1 3 4) 1 4 (fun i ↦ counted (3 + i)) ∧
      Writes counted (User.memmove counted 1 3 4) 1 4 fun i ↦ counted (3 + i) :=
  ⟨memmove_copies (by decide) (by decide), memmove_copies (by decide) (by decide)⟩

/-! ### The last byte -/

theorem memset_window (m : Bytes) (dest : UInt64) (ch : UInt32) (n : UInt64) :
    Window m (memset m dest ch n).1 dest (fun _ ↦ ch.toUInt8) 0 (n - 1).toNat := by
  have hinv := iterate_invariant (N := (n - 1).toNat) (s := (m, dest))
    (f := fun c : Bytes × UInt64 ↦ (Function.update c.1 c.2 ch.toUInt8, c.2 + 1))
    (I := fun k c ↦ c.2 = dest + UInt64.ofNat k ∧
      Window m c.1 dest (fun _ ↦ ch.toUInt8) 0 k)
    ⟨(UInt64.add_zero _).symm, .start _ _ _ _⟩ ?_
  · unfold memset
    rw [countdownPre_eq]
    exact hinv.2
  · rintro k ⟨t, d⟩ hk ⟨hd, hw⟩
    dsimp only at hd hw
    subst hd
    have hlt := (n - 1).toNat_lt
    exact ⟨add_ofNat_add_one _ _, hw.above (Nat.zero_le k) (by omega)⟩

/-- `memcpy` of ranges that are disjoint. -/
theorem memcpy_window (hn : n ≠ 0) (hdisjoint : ∀ i j, i < n → j < n → src + i ≠ dest + j) :
    Window m (memcpy m dest src n).1 dest (fun i ↦ m (src + i)) 0 (n - 1).toNat := by
  have hpred := toNat_pred_add_one hn
  have hlt := n.toNat_lt
  unfold memcpy
  rw [countdownPre_eq]
  refine forward_window m dest src (by omega) fun k hk ↦ ?_
  by_contra hnot
  have hof : ∀ j < n.toNat, UInt64.ofNat j < n := by
    intro j hj
    rw [UInt64.lt_iff_toNat_lt, toNat_ofNat_of_lt (by omega)]
    exact hj
  have hwrapped := (eq_add_ofNat_iff dest (a := src + UInt64.ofNat k)
    (k := (src + UInt64.ofNat k - dest).toNat) (UInt64.toNat_lt _)).mpr rfl
  exact hdisjoint _ _ (hof k (by omega)) (hof _ (by omega)) hwrapped

/-- A range without its last byte is a range exactly if the last byte was right before. -/
theorem Window.writes_iff (h : Window m t dest f 0 (n - 1).toNat) (hn : n ≠ 0) :
    Writes m t dest n f ↔ m (dest + (n - 1)) = f (n - 1) := by
  have hpred := toNat_pred_add_one hn
  have hdist : ∀ i : UInt64, dest + i - dest = i := fun i ↦ by
    rw [UInt64.add_comm, UInt64.add_sub_cancel]
  have hlast : t (dest + (n - 1)) = m (dest + (n - 1)) :=
    h.outside fun ha ↦ by
      rw [hdist] at ha
      omega
  constructor
  · intro hw
    rw [← hlast]
    exact hw.written _ (UInt64.lt_iff_toNat_lt.mpr (by omega))
  · intro hm
    constructor
    · intro i hi
      have hlt := UInt64.lt_iff_toNat_lt.mp hi
      by_cases hi' : i = n - 1
      · rw [hi', hlast, hm]
      · have hne : i.toNat ≠ (n - 1).toNat := fun he ↦ hi' (UInt64.toNat_inj.mp he)
        rw [h, hdist, if_pos ⟨Nat.zero_le _, by omega⟩]
    · intro a ha
      refine h.outside fun hd ↦ ha (a - dest) ?_ ?_
      · rw [UInt64.lt_iff_toNat_lt]
        omega
      · rw [UInt64.add_comm, UInt64.sub_add_cancel]

/-- `memset` fills its range exactly if the last byte of the range had the value before. -/
theorem memset_writes_iff {ch : UInt32} (hn : n ≠ 0) :
    Writes m (memset m dest ch n).1 dest n (fun _ ↦ ch.toUInt8) ↔
      m (dest + (n - 1)) = ch.toUInt8 :=
  (memset_window m dest ch n).writes_iff hn

/-- `memset` of nothing fills all of the memory but one byte. -/
theorem memset_zero_writes_iff {ch : UInt32} :
    Writes m (memset m dest ch 0).1 dest 0 (fun _ ↦ ch.toUInt8) ↔
      ∀ a, a ≠ dest - 1 → m a = ch.toUInt8 := by
  have hw := memset_window m dest ch 0
  have hone : UInt64.ofNat (2 ^ 64 - 1) = -1 := by decide
  have hzero : (0 - 1 : UInt64).toNat = 2 ^ 64 - 1 := by decide
  have hlast : ∀ a, a = dest - 1 ↔ (a - dest).toNat = 2 ^ 64 - 1 := fun a ↦ by
    rw [← eq_add_ofNat_iff dest (by omega), hone, UInt64.sub_eq_add_neg]
  have hlt : ∀ a, (a - dest).toNat < 2 ^ 64 := fun a ↦ (a - dest).toNat_lt
  rw [hzero] at hw
  constructor
  · intro h a ha
    have hd := (hlast a).not.mp ha
    have hbound := hlt a
    rw [← h.frame a fun i hi ↦ absurd hi UInt64.not_lt_zero, hw a, if_pos (by omega)]
  · intro h
    refine ⟨fun i hi ↦ absurd hi UInt64.not_lt_zero, fun a _ ↦ ?_⟩
    rw [hw a]
    split
    · next hd =>
      have hne : a ≠ dest - 1 := fun he ↦ by
        have hd' := (hlast a).mp he
        omega
      exact (h a hne).symm
    · rfl

/-- `memcpy` copies its range exactly if the last bytes of the ranges agreed before. -/
theorem memcpy_writes_iff (hn : n ≠ 0)
    (hdisjoint : ∀ i j, i < n → j < n → src + i ≠ dest + j) :
    Writes m (memcpy m dest src n).1 dest n (fun i ↦ m (src + i)) ↔
      m (dest + (n - 1)) = m (src + (n - 1)) :=
  (memcpy_window hn hdisjoint).writes_iff hn

/-- A loop writes its range exactly, in one round for each byte. -/
structure Exact (m : Bytes) (r : Bytes × Nat) (dest n : UInt64) (f : UInt64 → UInt8) : Prop
    extends Writes m r.1 dest n f where
  rounds : r.2 = n.toNat

/-- Neither the kernel's nor the user library's `memset` and `memcpy` ever write exactly what they
are asked for. -/
theorem memset_memcpy_inexact (m : Bytes) (dest src n : UInt64) (ch : UInt32) :
    ¬ Exact m (memset m dest ch n) dest n (fun _ ↦ ch.toUInt8) ∧
      ¬ Exact m (memcpy m dest src n) dest n (fun i ↦ m (src + i)) ∧
      ¬ Exact m (User.memset m dest ch n) dest n (fun _ ↦ ch.toUInt8) ∧
      ¬ Exact m (User.memcpy m dest src n) dest n (fun i ↦ m (src + i)) := by
  have hpred : (n - 1).toNat ≠ n.toNat := fun h ↦ by
    by_cases hn : n = 0
    · subst hn
      revert h
      decide
    · have hp := toNat_pred_add_one hn
      omega
  have hset : (memset m dest ch n).2 ≠ n.toNat := by
    unfold memset
    rw [countdownPre_eq]
    exact hpred
  have hcpy : (memcpy m dest src n).2 ≠ n.toNat := by
    unfold memcpy
    rw [countdownPre_eq]
    exact hpred
  exact ⟨fun h ↦ hset h.rounds, fun h ↦ hcpy h.rounds, fun h ↦ hset h.rounds,
    fun h ↦ hcpy h.rounds⟩

/-- One byte is not filled, and for no byte nearly everything is. -/
theorem memset_last_byte :
    ¬ Writes (fun _ ↦ 0) (memset (fun _ ↦ 0) 0 1 1).1 0 1 (fun _ ↦ 1) ∧
      ¬ Writes (fun _ ↦ 0) (memset (fun _ ↦ 0) 0 1 0).1 0 0 fun _ ↦ 1 := by
  constructor
  · intro h
    have hbyte := (memset_writes_iff (by decide)).mp h
    revert hbyte
    decide
  · intro h
    have hbyte := memset_zero_writes_iff.mp h 0 (by decide)
    revert hbyte
    decide

end

end Orfos.CString
