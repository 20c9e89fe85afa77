import Orfos.Memory.Transfers

/-!
# Strings of user memory

`copyinString` copies a string up to its first zero byte, if the zero byte is among the bytes that
it may copy and no page before it is missing. `fetchString` reads no byte of the buffer that was
not copied.
-/

namespace Orfos.Memory

open Orfos.Base PageTableEntry VirtualAddress

/-- The first zero byte of a range is `k` bytes behind its start, and everything before it is
there. -/
def State.StringAt (s : State) (table : UInt64) (a len k : Nat) : Prop :=
  k < len ∧ s.Covers table a (k + 1) ∧ s.userByte table (a + k) = some 0 ∧
    ∀ j < k, s.userByte table (a + j) ≠ some 0

/-- The end of the string at an address. -/
def State.stringEnd (s : State) (table : UInt64) (a len : Nat) : Option Nat :=
  seek (s.userByte table) (· = 0) a len

section

variable {s : State} {table : UInt64} {fuel dst a m n o k len : Nat} {buf : Buffer}
  {page : Contents}

theorem State.stringEnd_eq_some_iff :
    s.stringEnd table a len = some k ↔ s.StringAt table a len k := by
  have hzero : ∀ x : Option UInt8, (∃ b, x = some b ∧ (decide (b = 0)) = true) ↔ x = some 0 := by
    simp
  rw [stringEnd, seek_eq_some_iff, hzero, StringAt]
  refine and_congr_right fun _ ↦ ?_
  constructor
  · rintro ⟨hk, hbefore⟩
    refine ⟨fun j hj ↦ ?_, hk, fun j hj h0 ↦ ?_⟩
    · rw [← isSome_userByte]
      by_cases hlast : j = k
      · rw [hlast, hk]
        rfl
      · obtain ⟨b, hb, -⟩ := hbefore j (by omega)
        rw [hb]
        rfl
    · obtain ⟨b, hb, hne⟩ := hbefore j hj
      rw [hb, Option.some_inj] at h0
      rw [h0] at hne
      cases hne
  · rintro ⟨hcovers, hk, hbefore⟩
    refine ⟨hk, fun j hj ↦ ?_⟩
    obtain ⟨b, hb⟩ := Option.isSome_iff_exists.mp
      (isSome_userByte.mpr (hcovers j (by omega)))
    refine ⟨b, hb, decide_eq_false fun h0 ↦ hbefore j hj ?_⟩
    rw [hb, h0]

/-- The bytes of a page as a memory. -/
def bytesOf (page : Contents) (k : Nat) : Option UInt8 := some (byteAt page k)

theorem Buffer.update_eq_copy :
    Function.update buf dst (byteAt page o) = buf.copy dst (bytesOf page) o 1 := by
  funext k
  rw [Function.update_apply, Buffer.copy]
  by_cases hk : k = dst
  · rw [if_pos hk, if_pos (by omega), hk, Nat.sub_self]
    rfl
  · rw [if_neg hk, if_neg (by omega)]

theorem sub_ofNat_toNat {len : UInt64} (h : k ≤ len.toNat) :
    (len - UInt64.ofNat k).toNat = len.toNat - k := by
  have hlt := len.toNat_lt
  have hk : (UInt64.ofNat k).toNat = k := by
    rw [UInt64.toNat_ofNat']
    omega
  rw [sub_round_toNat (by omega), hk]

theorem sub_sub_ofNat {len : UInt64} (h : k + 1 ≤ len.toNat) :
    len - 1 - UInt64.ofNat k = len - UInt64.ofNat (k + 1) := by
  have hone : (len - UInt64.ofNat 1).toNat = len.toNat - 1 := sub_ofNat_toNat (by omega)
  apply UInt64.toNat_inj.mp
  change (len - UInt64.ofNat 1 - UInt64.ofNat k).toNat = _
  rw [sub_ofNat_toNat (by omega), sub_ofNat_toNat h, hone]
  omega

/-- The inner loop copies up to the first zero byte, or all the bytes. -/
theorem PageTable.copyStringFrom_eq (page : Contents) (n ptr : Nat) (buf : Buffer) (dst : Nat)
    (len : UInt64) (hlen : n ≤ len.toNat) :
    copyStringFrom page n ptr buf dst len =
      match seek (bytesOf page) (· = 0) ptr n with
      | some k => (true, buf.copy dst (bytesOf page) ptr (k + 1), dst + k, len - UInt64.ofNat k)
      | none => (false, buf.copy dst (bytesOf page) ptr n, dst + n, len - UInt64.ofNat n) := by
  induction n generalizing ptr buf dst len with
  | zero =>
    rw [seek, Buffer.copy_zero]
    exact congrArg (fun x ↦ (false, buf, dst, x)) (UInt64.sub_zero len).symm
  | succ n ih =>
    rw [copyStringFrom, seek, bytesOf]
    by_cases hb : byteAt page ptr = 0
    · simp only [hb, if_true, decide_true]
      rw [← hb, Buffer.update_eq_copy]
      exact congrArg (fun x ↦ (true, _, dst, x)) (UInt64.sub_zero len).symm
    · simp only [hb, if_false, decide_false, Bool.false_eq_true]
      have hone : (len - 1).toNat = len.toNat - 1 := sub_ofNat_toNat (k := 1) (by omega)
      rw [Buffer.update_eq_copy, ih _ _ _ _ (by omega)]
      cases hk : seek (bytesOf page) (· = 0) (ptr + 1) n with
      | none =>
        simp only [Option.map_none]
        rw [Buffer.copy_copy, sub_sub_ofNat (by omega), Nat.add_comm 1 n, Nat.add_assoc,
          Nat.add_comm 1 n]
      | some k =>
        have hlt := (seek_eq_some_iff.mp hk).1
        simp only [Option.map_some]
        rw [Buffer.copy_copy, sub_sub_ofNat (by omega), Nat.add_comm 1 (k + 1),
          show dst + 1 + k = dst + (k + 1) by omega]

/-- `copyinString` copies up to the first zero byte, or to the first page that is missing, or all
the bytes. -/
theorem PageTable.copyinStringFrom_eq (h : s.Readable table) (buf : Buffer) (dst : Nat)
    (src len : UInt64) (hf : len.toNat ≤ fuel) :
    copyinStringFrom table s fuel buf dst src len =
      .ok (match s.stringEnd table src.toNat len.toNat with
        | some k => (true, buf.copy dst (s.userByte table) src.toNat (k + 1))
        | none => (false, buf.copy dst (s.userByte table) src.toNat
            (extent (s.userByte table) src.toNat len.toNat))) := by
  have hdone : ∀ (buf : Buffer) (dst : Nat) (src len : UInt64), len.toNat = 0 →
      (.ok (false, buf) : Except Halt _) =
      .ok (match s.stringEnd table src.toNat len.toNat with
        | some k => (true, buf.copy dst (s.userByte table) src.toNat (k + 1))
        | none => (false, buf.copy dst (s.userByte table) src.toNat
            (extent (s.userByte table) src.toNat len.toNat))) := by
    intro buf dst src len hzero
    rw [hzero, State.stringEnd, seek, extent]
    dsimp only
    rw [Buffer.copy_zero]
  induction fuel generalizing buf dst src len with
  | zero =>
    obtain rfl : len = 0 := UInt64.toNat_inj.mp (Nat.le_zero.mp hf)
    exact hdone buf dst src 0 rfl
  | succ fuel ih =>
    rw [copyinStringFrom]
    by_cases h0 : len = 0
    · rw [if_pos h0]
      exact hdone buf dst src len (by rw [h0]; rfl)
    rw [if_neg h0]
    dsimp only
    rw [h.walkAddress]
    dsimp only [Except.bind]
    by_cases hu : s.User table (src.toNat / 4096)
    · rw [if_neg fun hz ↦ (h.frame_eq_zero_iff _).mp hz hu, if_pos hu, offset_toNat]
      have hn := round_toNat src len
      generalize (if PAGE_SIZE - (src - roundDown src) > len then len
        else PAGE_SIZE - (src - roundDown src)) = n at hn ⊢
      have hle : n.toNat ≤ len.toNat := by omega
      have hpage : ∀ k < n.toNat, bytesOf (s.memory (s.frame table (src.toNat / 4096)))
          (src.toNat % 4096 + k) = s.userByte table (src.toNat + k) :=
        fun k hk ↦ (State.userByte_rest hu (by omega)).symm
      have hcopy : ∀ m, m ≤ n.toNat → buf.copy dst
          (bytesOf (s.memory (s.frame table (src.toNat / 4096)))) (src.toNat % 4096) m =
            buf.copy dst (s.userByte table) src.toNat m := fun m hm ↦ by
        funext k
        simp only [Buffer.copy]
        split
        · rw [hpage _ (by omega)]
        · rfl
      rw [copyStringFrom_eq _ _ _ _ _ _ hle, seek_congr hpage]
      cases hk : seek (s.userByte table) (· = 0) src.toNat n.toNat with
      | some k =>
        have hlt := (seek_eq_some_iff.mp hk).1
        have hend : s.stringEnd table src.toNat len.toNat = some k := seek_of_prefix hk hle
        dsimp only
        rw [if_pos rfl, hend, hcopy _ (by omega)]
      | none =>
        have hend := seek_add (n := len.toNat - n.toNat)
          (fun k hk ↦ State.isSome_rest hu (show k < _ by omega)) hk
        rw [show n.toNat + (len.toNat - n.toNat) = len.toNat by omega] at hend
        have hsub : (len - UInt64.ofNat n.toNat).toNat = len.toNat - n.toNat :=
          sub_ofNat_toNat hle
        dsimp only
        rw [if_neg Bool.false_ne_true, ih _ _ _ _ (by omega), hcopy _ le_rfl, hsub, State.stringEnd, State.stringEnd, hend,
          State.extent_round hu hle hn]
        by_cases hall : n.toNat = len.toNat
        · rw [show len.toNat - n.toNat = 0 by omega]
          simp only [seek, extent, Option.map_none, Buffer.copy_zero, Nat.add_zero]
        · have hnext : (roundDown src + PAGE_SIZE).toNat = src.toNat + n.toNat := by
            rw [next_toNat hu.1]
            omega
          rw [hnext]
          cases seek (s.userByte table) (· = 0) (src.toNat + n.toNat) (len.toNat - n.toNat) with
          | none => simp only [Option.map_none, Buffer.copy_copy]
          | some k => simp only [Option.map_some, Buffer.copy_copy, Nat.add_assoc]
    · have hnone : s.userByte table src.toNat = none := by rw [State.userByte, if_neg hu]
      rw [if_pos ((h.frame_eq_zero_iff _).mpr hu), State.stringEnd, seek_of_none hnone,
        extent_of_none hnone]
      exact congrArg (fun b ↦ Except.ok (false, b)) Buffer.copy_zero.symm

/-- `strlen` counts the bytes before the first zero byte. -/
theorem strlen_eq_some (buf : Buffer) (m : Nat) (hk : k < n) (hzero : buf (m + k) = 0)
    (hbefore : ∀ j < k, buf (m + j) ≠ 0) : strlen buf n m = some (m + k) := by
  induction n generalizing m k with
  | zero => omega
  | succ n ih =>
    rw [strlen]
    cases k with
    | zero =>
      rw [Nat.add_zero] at hzero
      rw [if_pos hzero, Nat.add_zero]
    | succ k =>
      have hfirst := hbefore 0 (Nat.succ_pos k)
      rw [Nat.add_zero] at hfirst
      rw [if_neg hfirst, ih (m + 1) (k := k) (by omega)]
      · rw [show m + 1 + k = m + (k + 1) by omega]
      · rw [← hzero, show m + 1 + k = m + (k + 1) by omega]
      · intro j hj
        rw [show m + 1 + j = m + (j + 1) by omega]
        exact hbefore (j + 1) (by omega)

end

/-- What `copyinString` returns, and what is in the buffer. -/
structure CopiedString (s : State) (table src len : UInt64) (buf : Buffer) (ok : Bool)
    (buf' : Buffer) : Prop where
  iff : ok = true ↔ ∃ k, s.StringAt table src.toNat len.toNat k
  string : ∀ k, s.StringAt table src.toNat len.toNat k →
    (∀ j ≤ k, s.userByte table (src.toNat + j) = some (buf' j)) ∧ ∀ j, k < j → buf' j = buf j
  rest : ∀ j, len.toNat ≤ j → buf' j = buf j

section

variable {s : State} {table src len : UInt64} {buf buf' : Buffer} {ok : Bool} {k : Nat}

/-- What is copied for a string that ends. -/
theorem CopiedString.of_end (h : s.StringAt table src.toNat len.toNat k) :
    CopiedString s table src len buf true
      (buf.copy 0 (s.userByte table) src.toNat (k + 1)) := by
  have hend := State.stringEnd_eq_some_iff.mpr h
  refine ⟨iff_of_true rfl ⟨k, h⟩, fun k' h' ↦ ?_, fun j hj ↦ ?_⟩
  · have hsame := (State.stringEnd_eq_some_iff.mpr h').symm.trans hend
    obtain rfl : k' = k := Option.some_inj.mp hsame
    constructor
    · intro j hj
      obtain ⟨b, hb⟩ := Option.isSome_iff_exists.mp
        (State.isSome_userByte.mpr (h.2.1 j (Nat.lt_succ_of_le hj)))
      rw [Buffer.copy, if_pos (by omega), Nat.sub_zero, hb, Option.getD_some]
    · intro j hj
      rw [Buffer.copy, if_neg (by omega)]
  · have hk := h.1
    rw [Buffer.copy, if_neg (by omega)]

/-- What is copied where no string ends. -/
theorem CopiedString.of_none (h : s.stringEnd table src.toNat len.toNat = none) :
    CopiedString s table src len buf false
      (buf.copy 0 (s.userByte table) src.toNat
        (extent (s.userByte table) src.toNat len.toNat)) := by
  have hno : ∀ k, ¬ s.StringAt table src.toNat len.toNat k := by
    intro k hk
    rw [State.stringEnd_eq_some_iff.mpr hk] at h
    cases h
  refine ⟨iff_of_false Bool.false_ne_true fun hk ↦ hk.elim hno, fun k hk ↦ (hno k hk).elim,
    fun j hj ↦ ?_⟩
  have hle := extent_le (f := s.userByte table) (a := src.toNat) (n := len.toNat)
  rw [Buffer.copy, if_neg (by omega)]

/-- `strlen` of a copied string stays in the buffer. -/
theorem CopiedString.strlen_eq (hc : CopiedString s table src len buf ok buf')
    (h : s.StringAt table src.toNat len.toNat k) : strlen buf' len.toNat 0 = some k := by
  have hbytes := (hc.string k h).1
  have hlen := strlen_eq_some buf' 0 h.1
  rw [Nat.zero_add] at hlen
  refine hlen ?_ fun j hj hzero ↦ ?_
  · have hk := hbytes k le_rfl
    rw [h.2.2.1, Option.some_inj] at hk
    exact hk.symm
  · rw [Nat.zero_add] at hzero
    have hj' := hbytes j hj.le
    rw [hzero] at hj'
    exact h.2.2.2 j hj hj'

end

/-- For every page table, address, length and memory: `copyinString` succeeds if and only if a
string ends among the bytes and no page up to its end is missing. It copies the string with its
end, writes nothing behind it, and never more than `len` bytes. The number of rounds does not
matter once it is the number of bytes. `fetchString` returns the length of the string as an
`int`, and `-1` if there is none. -/
theorem PageTable.copyinString_exact {s : State} {table : UInt64} (h : s.Readable table)
    (src len : UInt64) (buf : Buffer) :
    ∃ ok buf', copyinString table buf src len s = .ok (ok, buf') ∧
      CopiedString s table src len buf ok buf' ∧
        (∀ fuel, len.toNat ≤ fuel →
          copyinStringFrom table s fuel buf 0 src len = .ok (ok, buf')) ∧
          ∃ r : Int32, fetchString table src buf len s = .ok (some r, buf') ∧
            (ok = false → r = -1) ∧ ∀ k, s.StringAt table src.toNat len.toNat k →
              r = Int32.ofNat k ∧ (k < 2 ^ 31 → r.toInt = k) := by
  have heq := fun (fuel : Nat) (hf : len.toNat ≤ fuel) ↦
    copyinStringFrom_eq h buf 0 src len hf
  cases hend : s.stringEnd table src.toNat len.toNat with
  | some k =>
    rw [hend] at heq
    have hk := State.stringEnd_eq_some_iff.mp hend
    have hc : CopiedString s table src len buf true _ := CopiedString.of_end hk
    refine ⟨true, _, heq _ le_rfl, hc, heq, Int32.ofNat k, ?_, ?_, fun k' hk' ↦ ?_⟩
    · rw [fetchString, copyinString, heq _ le_rfl]
      dsimp only [Except.map]
      rw [hc.strlen_eq hk, Option.map_some]
    · intro hf
      cases hf
    · have hsame := (State.stringEnd_eq_some_iff.mpr hk').symm.trans hend
      obtain rfl : k' = k := Option.some_inj.mp hsame
      exact ⟨rfl, fun hlt ↦ Int32.toInt_ofNat_of_lt hlt⟩
  | none =>
    rw [hend] at heq
    have hc : CopiedString s table src len buf false _ := CopiedString.of_none hend
    refine ⟨false, _, heq _ le_rfl, hc, heq, -1, ?_, fun _ ↦ rfl, fun k hk ↦ ?_⟩
    · rw [fetchString, copyinString, heq _ le_rfl]
      rfl
    · rw [State.stringEnd_eq_some_iff.mpr hk] at hend
      cases hend

/-- A string of two bytes at address 5. -/
theorem PageTable.copyinString_exact_two : ∃ p t buf', oneProcess.processes[0]? = some p ∧
    copyout p.pageTable 5 [104, 105, 0] oneProcess.pages = .ok (true, t) ∧
      copyinString p.pageTable (fun _ ↦ 1) 5 16 t = .ok (true, buf') ∧
        fetchString p.pageTable 5 (fun _ ↦ 1) 16 t = .ok (some 2, buf') := by
  obtain ⟨p, hp, hsep, huser⟩ := oneProcess_separate
  have h5 : (5 : UInt64).toNat = 5 := rfl
  have hcovers : ∀ k < 3, oneProcess.pages.User p.pageTable ((5 + k) / 4096) := by
    intro k hk
    rw [show (5 + k) / 4096 = 0 by omega]
    exact huser
  have hextent : extent (oneProcess.pages.userByte p.pageTable) (5 : UInt64).toNat
      [(104 : UInt8), 105, 0].length = 3 := by
    rw [h5]
    exact State.covers_iff.mp hcovers
  obtain ⟨t, ht, hst⟩ := copyoutFrom_stores hsep 5
    (show [(104 : UInt8), 105, 0].length ≤ 3 from le_rfl)
  rw [hextent, h5] at hst
  rw [hextent] at ht
  have hbytes : ∀ k < 3, t.userByte p.pageTable (5 + k) = [(104 : UInt8), 105, 0][k]? := by
    intro k hk
    rw [hst.bytes, if_pos (by simp; omega), Nat.add_sub_cancel_left]
    rfl
  have hstring : t.StringAt p.pageTable 5 16 2 := by
    refine ⟨by decide, fun k hk ↦ ?_, hbytes 2 (by decide), fun j hj ↦ ?_⟩
    · exact (hst.user_iff _).mpr (hcovers k hk)
    · rw [hbytes j (by omega)]
      obtain rfl | rfl : j = 0 ∨ j = 1 := by omega
      all_goals decide
  obtain ⟨ok, buf', hcopy, hc, -, r, hfetch, -, hr⟩ :=
    copyinString_exact (hsep.stores hst).toReadable 5 16 fun _ ↦ 1
  obtain rfl : ok = true := hc.iff.mpr ⟨2, hstring⟩
  obtain rfl := (hr 2 hstring).1
  exact ⟨p, t, buf', hp, ht, hcopy, hfetch⟩

end Orfos.Memory
