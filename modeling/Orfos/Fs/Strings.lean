import Orfos.Fs.Inode
import Orfos.Lib.CString
import Orfos.Lib.Strncmp
import Orfos.Memory.Page

/-!
# Strings in blocks, pages and names

The file system and the pages have `memset` and `strncmp` on their own data: on the bytes of a block
or a page, and on the bytes of two names, where the answer behind the names is a parameter. They are
what the functions on memory do.
-/

namespace Orfos.Fs

open Orfos.Base

section

variable {N : Nat} {data : Fin N → UInt8} {m : CString.Bytes} {base : UInt64}

/-- `memset` on an array in memory. -/
theorem memset_array (hm : ∀ k : Fin N, m (base + UInt64.ofNat k) = data k) {o n : Nat}
    (hn : 0 < n) (hfits : o + n ≤ N) (hN : N < 2 ^ 64) (ch : UInt32) (k : Fin N) :
    (CString.memset m (base + UInt64.ofNat o) ch (UInt64.ofNat n)).1 (base + UInt64.ofNat k) =
      putBytes data o (n - 1) (fun _ ↦ ch.toUInt8) k := by
  have hk := k.isLt
  have hlen : (UInt64.ofNat n - 1).toNat = n - 1 := by
    have hne : UInt64.ofNat n ≠ 0 := fun h0 ↦ by
      have h0' := congrArg UInt64.toNat h0
      rw [CString.toNat_ofNat_of_lt (by omega)] at h0'
      exact absurd h0' (by simpa using hn.ne')
    have hpred := toNat_pred_add_one hne
    rw [CString.toNat_ofNat_of_lt (by omega)] at hpred
    omega
  have hdist : (base + UInt64.ofNat k - (base + UInt64.ofNat o)).toNat =
      (2 ^ 64 - o + k.val) % 2 ^ 64 := by
    have hcancel : base + UInt64.ofNat k - (base + UInt64.ofNat o) =
        UInt64.ofNat k - UInt64.ofNat o := by grind
    rw [hcancel, UInt64.toNat_sub, CString.toNat_ofNat_of_lt (by omega),
      CString.toNat_ofNat_of_lt (by omega)]
  rw [CString.memset_window m (base + UInt64.ofNat o) ch (UInt64.ofNat n), hlen, hdist, putBytes,
    hm]
  exact if_congr (by omega) rfl rfl

end

/-- `memset` on a block is the function on memory. -/
theorem memset_block {data : Block} {m : CString.Bytes} {base : UInt64}
    (hm : ∀ k : Fin BLOCK_SIZE, m (base + UInt64.ofNat k) = data k) {o n : Nat} (hn : 0 < n)
    (hfits : o + n ≤ BLOCK_SIZE) (ch : UInt32) (k : Fin BLOCK_SIZE) :
    (CString.memset m (base + UInt64.ofNat o) ch (UInt64.ofNat n)).1 (base + UInt64.ofNat k) =
      memset data o ch.toUInt8 n k :=
  memset_array hm hn hfits (by decide) ch k

/-- `memset` on a page is the function on memory. -/
theorem memset_page {c : Memory.Contents} {m : CString.Bytes} {base : UInt64}
    (hm : ∀ k : Fin 4096, m (base + UInt64.ofNat k) = c k) {n : Nat} (hn : 0 < n)
    (hfits : n ≤ 4096) (ch : UInt32) (k : Fin 4096) :
    (CString.memset m base ch (UInt64.ofNat n)).1 (base + UInt64.ofNat k) =
      Memory.memset c ch.toUInt8 n k := by
  have harray := memset_array hm (o := 0) hn (by omega) (by omega) ch k
  rwa [show base + UInt64.ofNat 0 = base from UInt64.add_zero base] at harray

/-- `strncmp` on two names is the function on memory, if the answer behind the names is what the
function finds there. -/
theorem strncmpZero_of_returns {s1 s2 : Nat → UInt8} {fuel i last : Nat} {r : Int}
    (h : CString.strncmpFrom s1 s2 fuel i = some (r, last)) (N : Nat) :
    strncmpZero (decide (r = 0)) ((List.range' i N).map s1) ((List.range' i N).map s2) =
      decide (r = 0) := by
  induction N generalizing i fuel with
  | zero => rfl
  | succ N ih =>
    rw [List.range'_succ, List.map_cons, List.map_cons, strncmpZero]
    cases fuel with
    | zero => cases h
    | succ fuel =>
      rw [CString.strncmpFrom] at h
      split at h
      · next heq =>
        rw [if_pos heq]
        split at h
        · next hzero =>
          cases h
          simp [hzero]
        · next hne =>
          rw [ih h]
          simp [hne]
      · next hne =>
        cases h
        rw [if_neg hne]
        exact (decide_eq_false (CString.difference_ne_zero hne)).symm

end Orfos.Fs
