import Orfos.Base.Extent
import Orfos.Memory.Fork

/-!
# Copies between the kernel and user memory

The bytes of user memory are a partial memory over the addresses. `copyout` stores to it and
`copyin` reads from it, byte for byte up to the first address that is not there.
-/

namespace Orfos.Memory

open Orfos.Base Orfos.Base.Radix PageTableEntry VirtualAddress

namespace State

/-- A page below `MAX_VIRTUAL_ADDRESS` is mapped for the user. -/
def User (s : State) (table : UInt64) (n : Nat) : Prop :=
  n < 2 ^ 26 ∧ v (s.raw table n) = true ∧ u (s.raw table n) = true

instance (s : State) (table : UInt64) (n : Nat) : Decidable (s.User table n) :=
  inferInstanceAs (Decidable (_ ∧ _ ∧ _))

/-- The frame of a page. -/
def frame (s : State) (table : UInt64) (n : Nat) : UInt64 := toPhysicalAddress (s.raw table n)

/-- The byte of user memory at an address. -/
def userByte (s : State) (table : UInt64) (a : Nat) : Option UInt8 :=
  if s.User table (a / 4096) then some (byteAt (s.memory (s.frame table (a / 4096))) (a % 4096))
  else none

/-- A page table in a page of its own, whose user pages have frames. -/
structure Readable (s : State) (table : UInt64) : Prop where
  aligned : table.toNat % 4096 = 0
  present : ∀ n, s.User table n → s.frame table n ≠ 0

/-- The frames of the user pages are pairwise distinct and no table pages. -/
structure Separate (s : State) (table : UInt64) : Prop extends Readable s table where
  distinct : ∀ n n', s.User table n → s.User table n' →
    s.frame table n = s.frame table n' → n = n'
  apart : ∀ n, s.User table n → ¬ s.IsTable [table] (s.frame table n)

/-- From `s` to `t` some bytes were stored to user memory at an address, and nothing else has
changed. -/
structure Stores (s t : State) (table : UInt64) (a : Nat) (bytes : List UInt8) : Prop where
  frame : t = { s with memory := t.memory }
  raw : ∀ n, t.raw table n = s.raw table n
  memory : ∀ q, (∀ n, s.User table n → s.frame table n ≠ q) → t.memory q = s.memory q
  bytes : ∀ x, t.userByte table x =
    if a ≤ x ∧ x < a + bytes.length then bytes[x - a]? else s.userByte table x

end State

section

variable {s t w : State} {table : UInt64} {n a : Nat} {xs ys : List UInt8}

theorem State.isSome_userByte : (s.userByte table a).isSome ↔ s.User table (a / 4096) := by
  unfold userByte
  split
  · next h => simp [h]
  · next h => simp [h]

/-- What a table maps depends on its pages only. -/
theorem State.raw_congr (h : ∀ q, s.IsTable [table] q → t.memory q = s.memory q) (n : Nat) :
    t.raw table n = s.raw table n := by
  have hentries : ∀ q i, s.IsTable [table] q → t.entries q i = s.entries q i := by
    intro q i hq
    rw [entries, entries, h q hq]
  have hroot : table ∈ [table] := List.mem_singleton_self table
  have hnode : node child t.entries table (path n 0) = node child s.entries table (path n 0) := by
    refine node_congr (R := (· ∈ [table])) (d := 2) (fun r p q i hr hp hq ↦ ?_) hroot
      (path_length n 0).le
    exact hentries q i ⟨r, p, hr, hp.le, hq⟩
  rw [State.raw, State.raw, Radix.entry, Radix.entry, hnode]
  cases hq : node child s.entries table (path n 0) with
  | none => rw [Option.elim_none, Option.elim_none]
  | some q =>
    have htable : s.IsTable [table] q := ⟨table, path n 0, hroot, (path_length n 0).le, hq⟩
    rw [Option.elim_some, Option.elim_some, hentries q _ htable]

theorem State.isTable_congr (h : ∀ q, s.IsTable [table] q → t.memory q = s.memory q) {q : UInt64}
    (hq : t.IsTable [table] q) : s.IsTable [table] q := by
  obtain ⟨r, p, hr, hp, hq⟩ := hq
  refine ⟨r, p, hr, hp, ?_⟩
  rw [← hq]
  symm
  refine node_congr (R := (· ∈ [table])) (d := 2) (fun r p q i hr hp hq ↦ ?_) hr hp
  rw [State.entries, State.entries, h q ⟨r, p, hr, hp.le, hq⟩]

namespace State

theorem Stores.user_iff (h : s.Stores t table a xs) (n : Nat) :
    t.User table n ↔ s.User table n := by
  rw [User, User, h.raw]

theorem Stores.frame_eq (h : s.Stores t table a xs) (n : Nat) :
    t.frame table n = s.frame table n := by
  rw [State.frame, State.frame, h.raw]

theorem Stores.nil (s : State) (table : UInt64) (a : Nat) : s.Stores s table a [] := by
  refine ⟨rfl, fun _ ↦ rfl, fun _ _ ↦ rfl, fun x ↦ ?_⟩
  rw [if_neg]
  rw [List.length_nil]
  omega

/-- Stores one behind the other. -/
theorem Stores.append (h : s.Stores t table a xs) (h' : t.Stores w table (a + xs.length) ys) :
    s.Stores w table a (xs ++ ys) := by
  refine ⟨?_, fun n ↦ ?_, fun q hq ↦ ?_, fun x ↦ ?_⟩
  · rw [h'.frame, h.frame]
  · rw [h'.raw, h.raw]
  · rw [h'.memory q fun n hn ↦ ?_, h.memory q hq]
    rw [h.frame_eq]
    exact hq n ((h.user_iff n).mp hn)
  · rw [h'.bytes, h.bytes, List.length_append]
    by_cases hlow : a ≤ x ∧ x < a + xs.length
    · rw [if_neg (by omega), if_pos hlow, if_pos (by omega), List.getElem?_append_left (by omega)]
    · by_cases hhigh : a + xs.length ≤ x ∧ x < a + xs.length + ys.length
      · rw [if_pos hhigh, if_pos (by omega), List.getElem?_append_right (by omega), Nat.sub_sub]
      · rw [if_neg hhigh, if_neg hlow, if_neg (by omega)]

/-- The result of a store is determined. -/
theorem Stores.unique (h : s.Stores t table a xs) (h' : s.Stores w table a xs) : t = w := by
  have hmem : t.memory = w.memory := by
    funext q
    by_cases hq : ∃ n, s.User table n ∧ s.frame table n = q
    · obtain ⟨n, hn, rfl⟩ := hq
      funext o
      have ho : o.val < 4096 := o.isLt
      have hbyte := (h.bytes (4096 * n + o)).trans (h'.bytes (4096 * n + o)).symm
      have hpage : (4096 * n + o.val) / 4096 = n := by omega
      rw [userByte, userByte, hpage, if_pos ((h.user_iff n).mpr hn),
        if_pos ((h'.user_iff n).mpr hn), h.frame_eq, h'.frame_eq, Option.some_inj,
        show (4096 * n + o.val) % 4096 = o by omega, byteAt, byteAt, dif_pos ho, dif_pos ho] at hbyte
      exact hbyte
    · have hnone : ∀ n, s.User table n → s.frame table n ≠ q := fun n hn he ↦ hq ⟨n, hn, he⟩
      rw [h.memory q hnone, h'.memory q hnone]
  rw [h.frame, h'.frame, hmem]

theorem Separate.isTable_memory (h : s.Separate table) (hs : s.Stores t table a xs) {q : UInt64}
    (hq : s.IsTable [table] q) : t.memory q = s.memory q := by
  refine hs.memory q fun n hn he ↦ ?_
  rw [← he] at hq
  exact h.apart n hn hq

/-- Stores to user memory keep the page table apart from it. -/
theorem Separate.stores (h : s.Separate table) (hs : s.Stores t table a xs) :
    t.Separate table := by
  refine ⟨⟨h.aligned, fun n hn ↦ ?_⟩, fun n n' hn hn' he ↦ ?_, fun n hn ht ↦ ?_⟩
  · rw [hs.frame_eq]
    exact h.present n ((hs.user_iff n).mp hn)
  · rw [hs.frame_eq, hs.frame_eq] at he
    exact h.distinct n n' ((hs.user_iff n).mp hn) ((hs.user_iff n').mp hn') he
  · rw [hs.frame_eq] at ht
    exact h.apart n ((hs.user_iff n).mp hn) (isTable_congr (fun q ↦ h.isTable_memory hs) ht)

/-- A store to a part of one page. -/
theorem Separate.fill (h : s.Separate table) (hn : s.User table n) {o : Nat}
    (hx : o + xs.length ≤ 4096) :
    s.Stores (s.fill (s.frame table n) o xs) table (4096 * n + o) xs := by
  have hother : ∀ q, q ≠ s.frame table n → (s.fill (s.frame table n) o xs).memory q = s.memory q :=
    fun q hq ↦ Function.update_of_ne hq _ _
  have htable : ∀ q, s.IsTable [table] q →
      (s.fill (s.frame table n) o xs).memory q = s.memory q := by
    intro q hq
    refine hother q fun he ↦ ?_
    rw [he] at hq
    exact h.apart n hn hq
  refine ⟨rfl, raw_congr htable, fun q hq ↦ hother q fun he ↦ hq n hn he.symm, fun x ↦ ?_⟩
  have huser : ∀ m, (s.fill (s.frame table n) o xs).User table m ↔ s.User table m := fun m ↦ by
    rw [User, User, raw_congr htable]
  have hframe : ∀ m, (s.fill (s.frame table n) o xs).frame table m = s.frame table m := fun m ↦ by
    exact congrArg toPhysicalAddress (raw_congr htable m)
  have hx' : x % 4096 < 4096 := Nat.mod_lt _ (by decide)
  unfold userByte
  simp only [huser, hframe]
  by_cases hpage : x / 4096 = n
  · rw [hpage, if_pos hn, State.fill, setPage_memory, Function.update_self, byteAt_putBytes _ _ _ _ _ hx']
    by_cases hin : o ≤ x % 4096 ∧ x % 4096 < o + xs.length
    · rw [if_pos hin, if_pos (by omega), show x - (4096 * n + o) = x % 4096 - o by omega,
        List.getElem?_eq_getElem (by omega), List.getD_eq_getElem?_getD, List.getElem?_eq_getElem (by omega),
        Option.getD_some]
    · rw [if_neg hin, if_neg (by omega), if_pos hn]
  · rw [if_neg (show ¬ (4096 * n + o ≤ x ∧ x < 4096 * n + o + xs.length) by omega)]
    split
    · next hm =>
      rw [hother _ fun he ↦ hpage (h.distinct _ _ hm hn he)]
    · rfl

end State
end

/-! ### Rounds -/

section

variable {s t : State} {table : UInt64} {a : UInt64}

theorem offset_toNat (a : UInt64) : (a - roundDown a).toNat = a.toNat % 4096 := by
  have hdown := roundDown_toNat a
  rw [UInt64.toNat_sub_of_le _ _ (UInt64.le_iff_toNat_le.mpr (by omega)), hdown]
  omega

theorem page_roundDown (a : UInt64) : page (roundDown a) = a.toNat / 4096 := by
  have hdown := roundDown_toNat a
  change (roundDown a).toNat / 4096 = _
  omega

/-- The start of the next page. -/
theorem next_toNat (h : a.toNat / 4096 < 2 ^ 26) :
    (roundDown a + PAGE_SIZE).toNat = a.toNat + (4096 - a.toNat % 4096) := by
  have hdown := roundDown_toNat a
  rw [UInt64.toNat_add]
  change ((roundDown a).toNat + 4096) % 2 ^ 64 = _
  omega

/-- `walkAddress` finds the frame of a user page. -/
theorem State.Readable.walkAddress (h : s.Readable table) (a : UInt64) :
    PageTable.walkAddress table (roundDown a) s =
      .ok (if s.User table (a.toNat / 4096) then s.frame table (a.toNat / 4096) else 0) := by
  rw [PageTable.walkAddress_eq h.aligned, page_roundDown]
  have hlt : roundDown a < MAX_VIRTUAL_ADDRESS ↔ a.toNat / 4096 < 2 ^ 26 := by
    have hmax : MAX_VIRTUAL_ADDRESS.toNat = 2 ^ 38 := rfl
    rw [UInt64.lt_iff_toNat_lt, roundDown_toNat, hmax]
    omega
  exact congrArg Except.ok (if_congr (and_congr_left' hlt) rfl rfl)

theorem State.Readable.frame_eq_zero_iff (h : s.Readable table) (n : Nat) :
    (if s.User table n then s.frame table n else 0) = 0 ↔ ¬ s.User table n := by
  split
  · next hn => simpa [hn] using h.present n hn
  · next hn => simp [hn]

/-- The addresses of the rest of a page are there if one of them is. -/
theorem State.isSome_rest (h : s.User table (a.toNat / 4096)) {k : Nat}
    (hk : k < 4096 - a.toNat % 4096) : (s.userByte table (a.toNat + k)).isSome := by
  rw [isSome_userByte, show (a.toNat + k) / 4096 = a.toNat / 4096 by omega]
  exact h


/-- A round of a loop over user memory: where the page of an address is mapped, the round goes on
to `n` bytes of it, and the rest is behind them. -/
theorem State.extent_round (h : s.User table (a.toNat / 4096)) {len n : Nat} (hle : n ≤ len)
    (hn : n = min (4096 - a.toNat % 4096) len) :
    extent (s.userByte table) a.toNat len =
      n + extent (s.userByte table) (roundDown a + PAGE_SIZE).toNat (len - n) := by
  have hsome : ∀ k < n, (s.userByte table (a.toNat + k)).isSome := fun k hk ↦
    isSome_rest h (by omega)
  have hsplit := extent_add (n := len - n) hsome
  rw [show n + (len - n) = len by omega] at hsplit
  rw [hsplit]
  by_cases hall : n = len
  · rw [show len - n = 0 by omega, extent, extent]
  · rw [next_toNat h.1, show n = 4096 - a.toNat % 4096 by omega]

end

/-! ### copyout -/

section

variable {s : State} {table : UInt64} {fuel : Nat}

/-- `copyout` stores the bytes up to the first address that is not there. -/
theorem PageTable.copyoutFrom_stores (h : s.Separate table) (dst : UInt64) {src : List UInt8}
    (hf : src.length ≤ fuel) :
    ∃ t, PageTable.copyoutFrom table fuel dst src s =
        .ok (decide (extent (s.userByte table) dst.toNat src.length = src.length), t) ∧
      s.Stores t table dst.toNat (src.take (extent (s.userByte table) dst.toNat src.length)) := by
  induction fuel generalizing s dst src with
  | zero =>
    obtain rfl := List.length_eq_zero_iff.mp (Nat.le_zero.mp hf)
    exact ⟨s, rfl, State.Stores.nil s table _⟩
  | succ fuel ih =>
    cases src with
    | nil => exact ⟨s, rfl, State.Stores.nil s table _⟩
    | cons b src =>
      rw [PageTable.copyoutFrom, h.walkAddress]
      change ∃ t, (if (if s.User table (dst.toNat / 4096) then _ else _) = 0 then _ else _) = _ ∧ _
      generalize hxs : b :: src = xs at hf ⊢
      have hlen : 0 < xs.length := by
        rw [← hxs]
        exact Nat.succ_pos _
      by_cases hu : s.User table (dst.toNat / 4096)
      · rw [if_neg fun h0 ↦ (h.frame_eq_zero_iff _).mp h0 hu, if_pos hu, offset_toNat]
        set n := min (4096 - dst.toNat % 4096) xs.length with hn
        have hle : n ≤ xs.length := Nat.min_le_right _ _
        have htake : (xs.take n).length = n := List.length_take_of_le hle
        have hfill := h.fill hu (show dst.toNat % 4096 + (xs.take n).length ≤ 4096 by omega)
        rw [show 4096 * (dst.toNat / 4096) + dst.toNat % 4096 = dst.toNat by omega] at hfill
        set s₁ := s.fill (s.frame table (dst.toNat / 4096)) (dst.toNat % 4096) (xs.take n)
        have hbytes : ∀ x, (s₁.userByte table x).isSome = (s.userByte table x).isSome := by
          intro x
          rw [Bool.eq_iff_iff, State.isSome_userByte, State.isSome_userByte, hfill.user_iff]
        obtain ⟨t, ht, hst⟩ := ih (h.stores hfill) (roundDown dst + PAGE_SIZE)
          (show (xs.drop n).length ≤ fuel by rw [List.length_drop]; omega)
        rw [extent_congr hbytes, List.length_drop] at ht hst
        rw [State.extent_round hu hle hn]
        set m := extent (s.userByte table) (roundDown dst + PAGE_SIZE).toNat (xs.length - n) with hm
        refine ⟨t, ht.trans ?_, ?_⟩
        · congr 2
          exact decide_eq_decide.mpr (by omega)
        · rw [List.take_add]
          refine hfill.append ?_
          rw [htake]
          by_cases hall : n = xs.length
          · have hm0 : m = 0 := by
              rw [hm, show xs.length - n = 0 by omega, extent]
            rw [hm0, List.take_zero] at hst ⊢
            exact ⟨hst.frame, hst.raw, hst.memory, fun x ↦ by
              rw [hst.bytes, if_neg (by rw [List.length_nil]; omega),
                if_neg (by rw [List.length_nil]; omega)]⟩
          · rw [next_toNat hu.1, show 4096 - dst.toNat % 4096 = n by omega] at hst
            exact hst
      · have hzero : extent (s.userByte table) dst.toNat xs.length = 0 :=
          extent_of_none (by rw [State.userByte, if_neg hu])
        rw [if_pos ((h.frame_eq_zero_iff _).mpr hu), hzero]
        refine ⟨s, ?_, State.Stores.nil s table _⟩
        rw [decide_eq_false (by omega)]

end

/-! ### copyin -/

/-- A buffer after `n` bytes of a partial memory were copied to it. -/
def Buffer.copy (buf : Buffer) (dst : Nat) (f : Nat → Option UInt8) (a n : Nat) : Buffer := fun k ↦
  if dst ≤ k ∧ k < dst + n then (f (a + (k - dst))).getD 0 else buf k

section

variable {s : State} {table : UInt64} {fuel dst a m n o : Nat} {buf : Buffer}
  {f : Nat → Option UInt8} {page : Contents}

theorem Buffer.copy_zero : buf.copy dst f a 0 = buf := by
  funext k
  rw [Buffer.copy, if_neg (by omega)]

theorem Buffer.copy_copy :
    (buf.copy dst f a m).copy (dst + m) f (a + m) n = buf.copy dst f a (m + n) := by
  funext k
  simp only [Buffer.copy]
  by_cases hlow : dst ≤ k ∧ k < dst + m
  · rw [if_neg (by omega), if_pos hlow, if_pos (by omega)]
  · by_cases hhigh : dst + m ≤ k ∧ k < dst + m + n
    · rw [if_pos hhigh, if_pos (by omega), show a + m + (k - (dst + m)) = a + (k - dst) by omega]
    · rw [if_neg hhigh, if_neg hlow, if_neg (by omega)]

theorem Buffer.fill_eq_copy (h : ∀ k < n, f (a + k) = some (byteAt page (o + k))) :
    buf.fill dst page o n = buf.copy dst f a n := by
  funext k
  simp only [Buffer.fill, Buffer.copy]
  split
  · rw [h _ (by omega), Option.getD_some]
  · rfl

/-- The bytes of the rest of a page. -/
theorem State.userByte_rest {a : UInt64} (h : s.User table (a.toNat / 4096)) {k : Nat}
    (hk : k < 4096 - a.toNat % 4096) : s.userByte table (a.toNat + k) =
      some (byteAt (s.memory (s.frame table (a.toNat / 4096))) (a.toNat % 4096 + k)) := by
  rw [userByte, show (a.toNat + k) / 4096 = a.toNat / 4096 by omega, if_pos h,
    show (a.toNat + k) % 4096 = a.toNat % 4096 + k by omega]

/-- The number of bytes of a round. -/
theorem round_toNat (a len : UInt64) :
    (if PAGE_SIZE - (a - roundDown a) > len then len else PAGE_SIZE - (a - roundDown a)).toNat =
      min (4096 - a.toNat % 4096) len.toNat := by
  have hoffset := offset_toNat a
  have hrest : (PAGE_SIZE - (a - roundDown a)).toNat = 4096 - a.toNat % 4096 := by
    rw [UInt64.toNat_sub_of_le, hoffset]
    · rfl
    · rw [UInt64.le_iff_toNat_le, hoffset]
      change a.toNat % 4096 ≤ 4096
      omega
  split
  · next hlt =>
    have hlt := UInt64.lt_iff_toNat_lt.mp hlt
    omega
  · next hge =>
    rw [gt_iff_lt, UInt64.lt_iff_toNat_lt] at hge
    omega

theorem sub_round_toNat {len n : UInt64} (h : n.toNat ≤ len.toNat) :
    (len - n).toNat = len.toNat - n.toNat :=
  UInt64.toNat_sub_of_le _ _ (UInt64.le_iff_toNat_le.mpr h)

/-- `copyin` reads the bytes up to the first address that is not there. -/
theorem PageTable.copyinFrom_reads (h : s.Readable table) (buf : Buffer) (dst : Nat)
    (src len : UInt64) (hf : len.toNat ≤ fuel) :
    PageTable.copyinFrom table s fuel buf dst src len =
      .ok (decide (extent (s.userByte table) src.toNat len.toNat = len.toNat),
        buf.copy dst (s.userByte table) src.toNat
          (extent (s.userByte table) src.toNat len.toNat)) := by
  have hdone : ∀ src : UInt64, extent (s.userByte table) src.toNat (0 : UInt64).toNat = 0 :=
    fun _ ↦ rfl
  induction fuel generalizing buf dst src len with
  | zero =>
    obtain rfl : len = 0 := UInt64.toNat_inj.mp (Nat.le_zero.mp hf)
    rw [hdone, Buffer.copy_zero]
    rfl
  | succ fuel ih =>
    rw [PageTable.copyinFrom]
    by_cases h0 : len = 0
    · subst h0
      rw [hdone, Buffer.copy_zero]
      rfl
    have hpos : len.toNat ≠ 0 := fun hz ↦ h0 (UInt64.toNat_inj.mp hz)
    rw [if_neg h0]
    dsimp only
    rw [h.walkAddress]
    dsimp only [Except.bind]
    by_cases hu : s.User table (src.toNat / 4096)
    · rw [if_neg fun hz ↦ (h.frame_eq_zero_iff _).mp hz hu, if_pos hu, offset_toNat]
      have hn := round_toNat src len
      generalize (if PAGE_SIZE - (src - roundDown src) > len then len
        else PAGE_SIZE - (src - roundDown src)) = n at hn ⊢
      have hle : n.toNat ≤ len.toNat := by omega
      have hsub := sub_round_toNat hle
      rw [Buffer.fill_eq_copy fun k hk ↦ State.userByte_rest hu (by omega),
        ih _ _ _ _ (by omega), hsub, State.extent_round hu hle hn]
      set m := extent (s.userByte table) (roundDown src + PAGE_SIZE).toNat (len.toNat - n.toNat)
        with hm
      clear_value m
      have hiff : m = len.toNat - n.toNat ↔ n.toNat + m = len.toNat := by omega
      refine congrArg Except.ok (Prod.ext (decide_eq_decide.mpr hiff) ?_)
      dsimp only
      by_cases hall : n.toNat = len.toNat
      · have hm0 : m = 0 := by rw [hm, show len.toNat - n.toNat = 0 by omega, extent]
        rw [hm0, Buffer.copy_zero, Nat.add_zero]
      · have hnext : (roundDown src + PAGE_SIZE).toNat = src.toNat + n.toNat := by
          rw [next_toNat hu.1]
          omega
        rw [hnext, Buffer.copy_copy]
    · have hzero : extent (s.userByte table) src.toNat len.toNat = 0 :=
        extent_of_none (by rw [State.userByte, if_neg hu])
      rw [if_pos ((h.frame_eq_zero_iff _).mpr hu), hzero, Buffer.copy_zero,
        decide_eq_false (Ne.symm hpos)]

end

/-! ### Both ways -/

/-- Every page that meets a range of addresses is a user page. -/
def State.Covers (s : State) (table : UInt64) (a len : Nat) : Prop :=
  ∀ k < len, s.User table ((a + k) / 4096)

/-- What `copyout` returns, and what it has stored. -/
structure CopiedOut (s : State) (table dst : UInt64) (src : List UInt8) (ok : Bool) (t : State) :
    Prop where
  iff : ok = true ↔ s.Covers table dst.toNat src.length
  stores : s.Stores t table dst.toNat
    (src.take (extent (s.userByte table) dst.toNat src.length))
  whole : ok = true → s.Stores t table dst.toNat src

/-- What `copyin` returns, and what is in the buffer. -/
structure CopiedIn (s : State) (table src len : UInt64) (buf : Buffer) (ok : Bool)
    (buf' : Buffer) : Prop where
  iff : ok = true ↔ s.Covers table src.toNat len.toNat
  reads : ∀ k, k < extent (s.userByte table) src.toNat len.toNat →
    s.userByte table (src.toNat + k) = some (buf' k)
  rest : ∀ k, extent (s.userByte table) src.toNat len.toNat ≤ k → buf' k = buf k
  whole : ok = true → ∀ k < len.toNat, s.userByte table (src.toNat + k) = some (buf' k)

section

variable {s t : State} {kernel table a len : UInt64} {tables taken free : List UInt64}
  {src : List UInt8} {buf : Buffer} {ok : Bool}

theorem State.covers_iff {a len : Nat} :
    s.Covers table a len ↔ extent (s.userByte table) a len = len := by
  rw [extent_eq_iff]
  exact forall_congr' fun k ↦ forall_congr' fun _ ↦ isSome_userByte.symm

/-- `copyin` after `copyout`. -/
theorem CopiedOut.copyin (h : s.Separate table) (hc : CopiedOut s table a src ok t)
    (hok : ok = true) (hsrc : src.length = len.toNat) (buf : Buffer) :
    PageTable.copyin table buf a len t =
      .ok (true, fun k ↦ if k < len.toNat then src.getD k 0 else buf k) := by
  have hs := hc.whole hok
  have hcovers := State.covers_iff.mp (hc.iff.mp hok)
  have hsame : ∀ x, (t.userByte table x).isSome = (s.userByte table x).isSome := fun x ↦ by
    rw [Bool.eq_iff_iff, State.isSome_userByte, State.isSome_userByte, hs.user_iff]
  have hextent : extent (t.userByte table) a.toNat len.toNat = len.toNat := by
    rw [extent_congr hsame, ← hsrc, hcovers]
  rw [PageTable.copyin, PageTable.copyinFrom_reads (h.stores hs).toReadable _ _ _ _ le_rfl, hextent,
    decide_eq_true rfl]
  refine congrArg (fun b ↦ Except.ok (true, b)) (funext fun k ↦ ?_)
  rw [Buffer.copy, Nat.sub_zero, Nat.zero_add]
  by_cases hk : k < len.toNat
  · rw [if_pos ⟨Nat.zero_le k, hk⟩, if_pos hk, hs.bytes, if_pos (by omega),
      show a.toNat + k - a.toNat = k by omega, List.getD_eq_getElem?_getD]
  · rw [if_neg (by omega), if_neg hk]

/-- The page table of a process is apart from its frames. -/
theorem Space.separate (h : Space s kernel tables taken free) (htable : table ∈ tables)
    (hp : ∀ n, s.User table n → s.frame table n ≠ 0) : s.Separate table := by
  have hU := userPages_eq
  have hlow : ∀ n, s.User table n → n < userPages := by
    intro n hn
    by_contra hge
    have hsup := (h.supervisor table htable n (Nat.le_of_not_lt hge) hn.1).2
    rw [hn.2.2] at hsup
    cases hsup
  refine ⟨⟨h.aligned htable, hp⟩, fun n n' hn hn' he ↦ ?_, fun n hn ht ↦ ?_⟩
  · exact (h.distinct table htable table htable n (hlow n hn) n' (hlow n' hn') hn.2.1 hn'.2.1 he).2
  · refine (h.wf.apart _ (.inr ⟨table, htable, n, hlow n hn, hn.2.1, rfl⟩)).2 ?_
    obtain ⟨r, p, hr, hp', hq⟩ := ht
    obtain rfl := List.mem_singleton.mp hr
    exact ⟨r, p, List.mem_cons_of_mem _ htable, hp', hq⟩

end

/-- For every page table whose user frames are pairwise distinct and apart from it: `copyout` and
`copyin` succeed if and only if every page of the range is a user page, and copy the bytes up to
the first one that is not. The number of rounds does not matter once it is the number of bytes. -/
theorem PageTable.copies_exact {s : State} {table : UInt64} (h : s.Separate table)
    (a len : UInt64) {src : List UInt8} (hsrc : src.length = len.toNat) (buf : Buffer) :
    (∃ ok t, copyout table a src s = .ok (ok, t) ∧ CopiedOut s table a src ok t ∧
      (∀ fuel, src.length ≤ fuel → copyoutFrom table fuel a src s = .ok (ok, t)) ∧
        (ok = true → copyin table buf a len t =
          .ok (true, fun k ↦ if k < len.toNat then src.getD k 0 else buf k))) ∧
      ∃ ok buf', copyin table buf a len s = .ok (ok, buf') ∧ CopiedIn s table a len buf ok buf' ∧
        ∀ fuel, len.toNat ≤ fuel → copyinFrom table s fuel buf 0 a len = .ok (ok, buf') := by
  constructor
  · obtain ⟨t, ht, hst⟩ := copyoutFrom_stores h a (le_refl src.length)
    have hlaw : CopiedOut s table a src
        (decide (extent (s.userByte table) a.toNat src.length = src.length)) t := by
      refine ⟨?_, hst, fun hall ↦ ?_⟩
      · rw [decide_eq_true_eq, State.covers_iff]
      · rw [decide_eq_true_eq] at hall
        rwa [hall, List.take_length] at hst
    refine ⟨_, t, ht, hlaw, fun fuel hf ↦ ?_, fun hok ↦ hlaw.copyin h hok hsrc buf⟩
    obtain ⟨t', ht', hst'⟩ := copyoutFrom_stores h a hf
    rw [ht', hst.unique hst']
  · have hread := fun (fuel : Nat) (hf : len.toNat ≤ fuel) ↦
      copyinFrom_reads h.toReadable buf 0 a len hf
    set m := extent (s.userByte table) a.toNat len.toNat with hm
    have hbyte : ∀ k < m, s.userByte table (a.toNat + k) =
        some (buf.copy 0 (s.userByte table) a.toNat m k) := by
      intro k hk
      obtain ⟨b, hb⟩ := Option.isSome_iff_exists.mp (isSome_of_lt_extent hk)
      rw [Buffer.copy, if_pos (by omega), Nat.sub_zero, hb, Option.getD_some]
    refine ⟨_, _, hread _ le_rfl, ⟨?_, hbyte, fun k hk ↦ ?_, fun hall k hk ↦ ?_⟩, hread⟩
    · rw [decide_eq_true_eq, State.covers_iff]
    · rw [Buffer.copy, if_neg (by omega)]
    · rw [decide_eq_true_eq] at hall
      exact hbyte k (by omega)

/-- The page table of the first process is apart from its frames. -/
theorem oneProcess_separate : ∃ p, oneProcess.processes[0]? = some p ∧
    oneProcess.pages.Separate p.pageTable ∧ oneProcess.pages.User p.pageTable 0 := by
  have hinv : oneProcess.Inv State.Exact :=
    Kernel.Inv.step Shape.ofExact thirtyTwoPages_booted.inv (e := .init []) trivial
      (fun _ _ _ _ _ he ↦ by cases he) (oneProcess_step noFiles)
  have hfirst : oneProcess.processes[0]?.map (fun p ↦ decide (p.memorySize = PAGE_SIZE ∧
      oneProcess.pages.User p.pageTable 0 ∧ oneProcess.pages.frame p.pageTable 0 ≠ 0)) =
        some true := by decide +kernel
  obtain ⟨p, hp, hall⟩ := Option.map_eq_some_iff.mp hfirst
  obtain ⟨hsize, huser, hframe⟩ := of_decide_eq_true hall
  have hmem := List.mem_of_getElem? hp
  obtain ⟨free, hs⟩ := hinv.space
  refine ⟨p, hp, hs.separate (hinv.mem p hmem) fun n hn ↦ ?_, huser⟩
  have hexact := hinv.image p hmem
  rw [hsize] at hexact
  obtain rfl : n = 0 := by
    have hlow : n < userPages := by
      by_contra hge
      have hsup := (hs.supervisor _ (hinv.mem p hmem) n (Nat.le_of_not_lt hge) hn.1).2
      rw [hn.2.2] at hsup
      cases hsup
    exact Nat.lt_one_iff.mp ((hexact.2 n hlow).mp hn.2.1)
  exact hframe

/-- Three bytes at address 5, and back. -/
theorem PageTable.copies_exact_three : ∃ p t, oneProcess.processes[0]? = some p ∧
    copyout p.pageTable 5 [1, 2, 3] oneProcess.pages = .ok (true, t) ∧
      copyin p.pageTable (fun _ ↦ 0) 5 3 t =
        .ok (true, fun k ↦ if k < 3 then [1, 2, 3].getD k 0 else 0) := by
  obtain ⟨p, hp, hsep, huser⟩ := oneProcess_separate
  obtain ⟨⟨ok, t, ht, hc, -, hback⟩, -⟩ :=
    copies_exact hsep 5 3 (show ([1, 2, 3] : List UInt8).length = 3 from rfl) fun _ ↦ 0
  have hok : ok = true := hc.iff.mpr fun k hk ↦ by
    have hzero : ((5 : UInt64).toNat + k) / 4096 = 0 := by
      have h5 : (5 : UInt64).toNat = 5 := rfl
      have hk' : k < 3 := hk
      omega
    rw [hzero]
    exact huser
  subst hok
  exact ⟨p, t, hp, ht, hback rfl⟩

end Orfos.Memory
