import Orfos.Base.Extent
import Orfos.Fs.Looking

/-!
# Copies to memory

`eitherCopyout` copies to the memory of the kernel, or to user memory up to the first page that is
not there.
-/

namespace Orfos.Fs

open Orfos.Base Orfos.Base.Traced Orfos.Lib

/-- The byte of user memory at an address. -/
def State.userByte (s : State) (a : Nat) : Option UInt8 :=
  (s.user (a / PAGE_SIZE)).map fun page ↦ page (a % PAGE_SIZE)

/-- User memory is below `MAX_VIRTUAL_ADDRESS`. -/
def UserBelow (s : State) : Prop := ∀ n, (s.user n).isSome → n < 2 ^ 26

/-- How many of `n` bytes `eitherCopyout` copies before a page of user memory is not there. -/
def reach (s : State) (userDst : Bool) (dst : UInt64) (n : Nat) : Nat :=
  if userDst then extent s.userByte dst.toNat n else n

/-- From `s` to `t` the bytes `f` are copied to memory, `n` of them. -/
structure Copied (s : State) (userDst : Bool) (dst : UInt64) (f : Nat → UInt8) (n : Nat)
    (t : State) : Prop where
  user : ∀ x, t.userByte x = if userDst = true ∧ dst.toNat ≤ x ∧ x < dst.toNat + n then
    some (f (x - dst.toNat)) else s.userByte x
  kernel : ∀ a, t.kernel a = if userDst = false ∧ (a - dst).toNat < n then f (a - dst).toNat
    else s.kernel a
  pages : ∀ m, (t.user m).isSome = (s.user m).isSome


section

variable {X Z : Prop} {s t u : State} {userDst : Bool} {dst : UInt64} {f g : Nat → UInt8}
  {m n : Nat}

theorem isSome_userByte (s : State) (a : Nat) :
    (s.userByte a).isSome = (s.user (a / PAGE_SIZE)).isSome := Option.isSome_map

theorem Copied.refl (s : State) (userDst : Bool) (dst : UInt64) (f : Nat → UInt8) :
    Copied s userDst dst f 0 s := by
  refine ⟨fun x ↦ ?_, fun a ↦ ?_, fun _ ↦ rfl⟩
  · rw [if_neg (by omega)]
  · rw [if_neg (by omega)]

theorem Copied.isSome (h : Copied s userDst dst f n t) (x : Nat) :
    (t.userByte x).isSome = (s.userByte x).isSome := by
  rw [isSome_userByte, isSome_userByte, h.pages]

theorem Copied.below (h : Copied s userDst dst f n t) (hs : UserBelow s) : UserBelow t :=
  fun m hm ↦ hs m (h.pages m ▸ hm)

theorem Copied.reach (h : Copied s userDst dst f n t) (b : Bool) (a : UInt64) (m : Nat) :
    reach t b a m = reach s b a m := by
  rw [Fs.reach, Fs.reach, extent_congr h.isSome]

theorem UserBelow.of_memory (h : UserBelow s) (hm : SameMemory s t) : UserBelow t := by
  rw [UserBelow, hm.user]
  exact h

theorem userByte_congr (h : SameMemory s t) : t.userByte = s.userByte := by
  funext x
  rw [State.userByte, State.userByte, h.user]

theorem reach_congr (h : SameMemory s t) : reach t = reach s := by
  funext b a n
  rw [reach, reach, userByte_congr h]

theorem Copied.of_memory (h : Copied s userDst dst f n t) (hm : SameMemory t u) :
    Copied s userDst dst f n u := by
  refine ⟨?_, ?_, ?_⟩
  · rw [userByte_congr hm]
    exact h.user
  · rw [hm.kernel]
    exact h.kernel
  · rw [hm.user]
    exact h.pages

theorem Copied.after_memory (h : Copied t userDst dst f n u) (hm : SameMemory s t) :
    Copied s userDst dst f n u := by
  obtain ⟨huser, hkernel, hpages⟩ := h
  rw [userByte_congr hm] at huser
  rw [hm.kernel] at hkernel
  rw [hm.user] at hpages
  exact ⟨huser, hkernel, hpages⟩

theorem reach_le (s : State) (userDst : Bool) (dst : UInt64) (n : Nat) :
    reach s userDst dst n ≤ n := by
  unfold reach
  split
  · exact extent_le _ _ _
  · exact le_rfl

theorem reach_of_le (s : State) (userDst : Bool) (dst : UInt64) (h : m ≤ n) :
    reach s userDst dst m = min m (reach s userDst dst n) := by
  unfold reach
  split
  · exact extent_of_le h
  · omega

/-- A copy in two parts, the first of which has its places. -/
theorem reach_add (h : m ≤ reach s userDst dst (m + n))
    (hdst : userDst = true → (dst + UInt64.ofNat m).toNat = dst.toNat + m) :
    reach s userDst dst (m + n) = m + reach s userDst (dst + UInt64.ofNat m) n := by
  cases userDst with
  | false => rfl
  | true =>
    rw [reach, if_pos rfl] at h ⊢
    rw [reach, if_pos rfl, hdst rfl]
    exact extent_add fun k hk ↦ isSome_of_lt_extent (Nat.lt_of_lt_of_le hk h)

/-- Where bytes were copied to, addresses do not wrap around. -/
theorem toNat_add_of_reach (hs : UserBelow s) (hr : m ≤ reach s userDst dst n) (hm : m < 2 ^ 32) :
    userDst = true → (dst + UInt64.ofNat m).toNat = dst.toNat + m := by
  intro hu
  have hz : dst.toNat < 2 ^ 64 := dst.toNat_lt
  rw [UInt64.toNat_add, UInt64.toNat_ofNat', Nat.mod_eq_of_lt (a := m) (by omega)]
  apply Nat.mod_eq_of_lt
  cases m with
  | zero => exact hz
  | succ m =>
    rw [reach, if_pos hu] at hr
    have hsome := isSome_of_lt_extent hr
    have hpage := hs _ ((isSome_userByte s _).symm.trans hsome)
    have hlast : (dst.toNat + m) / 4096 < 2 ^ 26 := hpage
    omega

/-- Copies one behind the other. -/
theorem Copied.append (h : Copied s userDst dst f m t)
    (h' : Copied t userDst (dst + UInt64.ofNat m) g n u)
    (hdst : userDst = true → (dst + UInt64.ofNat m).toNat = dst.toNat + m)
    (hg : ∀ k < n, g k = f (m + k)) (hmn : m + n < 2 ^ 64) :
    Copied s userDst dst f (m + n) u := by
  refine ⟨fun x ↦ ?_, fun a ↦ ?_, fun p ↦ (h'.pages p).trans (h.pages p)⟩
  · rw [h'.user, h.user]
    cases userDst with
    | false => simp
    | true =>
      rw [hdst rfl]
      by_cases hhigh : dst.toNat + m ≤ x ∧ x < dst.toNat + m + n
      · rw [if_pos ⟨rfl, hhigh⟩, if_pos ⟨rfl, by omega⟩, hg _ (by omega)]
        congr 2
        omega
      · rw [if_neg fun hx ↦ hhigh hx.2]
        by_cases hlow : dst.toNat ≤ x ∧ x < dst.toNat + m
        · rw [if_pos ⟨rfl, hlow⟩, if_pos ⟨rfl, by omega⟩]
        · rw [if_neg fun hx ↦ hlow hx.2, if_neg fun hx ↦ by omega]
  · rw [h'.kernel, h.kernel]
    cases userDst with
    | true => simp
    | false =>
      have hm : (UInt64.ofNat m).toNat = m := by
        rw [UInt64.toNat_ofNat']
        exact Nat.mod_eq_of_lt (by omega)
      have ha := (a - dst).toNat_lt
      have hsub : a - (dst + UInt64.ofNat m) = a - dst - UInt64.ofNat m := by
        grind
      by_cases hlow : (a - dst).toNat < m
      · have hout : ¬ (a - (dst + UInt64.ofNat m)).toNat < n := by
          rw [hsub, UInt64.toNat_sub, hm]
          omega
        rw [if_neg fun hx ↦ hout hx.2, if_pos ⟨rfl, hlow⟩, if_pos ⟨rfl, by omega⟩]
      · have hin : (a - (dst + UInt64.ofNat m)).toNat = (a - dst).toNat - m := by
          rw [hsub, UInt64.toNat_sub_of_le, hm]
          rw [UInt64.le_iff_toNat_le, hm]
          omega
        rw [hin]
        by_cases hhigh : (a - dst).toNat < m + n
        · rw [if_pos ⟨rfl, by omega⟩, if_pos ⟨rfl, hhigh⟩, hg _ (by omega)]
          congr 1
          omega
        · rw [if_neg fun hx ↦ by omega, if_neg fun hx ↦ hlow hx.2, if_neg fun hx ↦ hhigh hx.2]

/-- What a round of `copyout` does to user memory: `m` bytes of the page of an address. -/
def State.putUser (s : State) (dst : UInt64) (src : List UInt8) (page : Nat → UInt8) (m : Nat) :
    State :=
  { s with user := Function.update s.user (dst.toNat / PAGE_SIZE) (some fun k ↦
      if dst.toNat % PAGE_SIZE ≤ k ∧ k < dst.toNat % PAGE_SIZE + m then
        src.getD (k - dst.toNat % PAGE_SIZE) 0 else page k) }

/-- A round of `copyout`. -/
theorem copied_putUser {page : Nat → UInt8} (src : List UInt8)
    (hpage : s.user (dst.toNat / PAGE_SIZE) = some page)
    (hm : dst.toNat % PAGE_SIZE + m ≤ PAGE_SIZE) :
    Copied s true dst (fun k ↦ src.getD k 0) m (s.putUser dst src page m) := by
  have hm' : dst.toNat % 4096 + m ≤ 4096 := hm
  refine ⟨fun x ↦ ?_, fun a ↦ ?_, fun p ↦ ?_⟩
  · rw [State.userByte, State.userByte, State.putUser]
    dsimp only
    by_cases hx : x / PAGE_SIZE = dst.toNat / PAGE_SIZE
    · have hx' : x / 4096 = dst.toNat / 4096 := hx
      have hplace : x % 4096 - dst.toNat % 4096 = x - dst.toNat ∨ x < dst.toNat := by omega
      rw [hx, Function.update_self, hpage, Option.map_some, Option.map_some]
      change some (if dst.toNat % 4096 ≤ x % 4096 ∧ x % 4096 < dst.toNat % 4096 + m then
        src.getD (x % 4096 - dst.toNat % 4096) 0 else page (x % 4096)) = _
      by_cases hin : dst.toNat ≤ x ∧ x < dst.toNat + m
      · rw [if_pos (by omega), if_pos ⟨rfl, hin⟩, hplace.resolve_right (by omega)]
      · rw [if_neg (by omega), if_neg fun h ↦ hin h.2]
    · have hx' : x / 4096 ≠ dst.toNat / 4096 := hx
      rw [Function.update_of_ne hx, if_neg]
      omega
  · rw [if_neg fun h ↦ Bool.noConfusion h.1]
    rfl
  · rw [State.putUser]
    dsimp only
    by_cases hp : p = dst.toNat / PAGE_SIZE
    · rw [hp, Function.update_self, hpage]
      rfl
    · rw [Function.update_of_ne hp]

/-- The loop of `copyout` copies up to the first page that is not there. -/
theorem copyoutFrom_copies {src : List UInt8} (hs : UserBelow s) (hlen : src.length < 2 ^ 32)
    (hn : src.length ≤ n) :
    Delivers (looks X Z) (copyoutFrom n dst src) s fun ok t ↦ t = { s with user := t.user } ∧
      ok = decide (reach s true dst src.length = src.length) ∧
      Copied s true dst (fun k ↦ src.getD k 0) (reach s true dst src.length) t := by
  induction n generalizing s dst src with
  | zero =>
    obtain rfl : src = [] := List.eq_nil_of_length_eq_zero (by omega)
    exact delivers_pure ⟨rfl, rfl, .refl s true dst _⟩
  | succ n ih =>
    unfold copyoutFrom
    split
    · next hnil =>
      subst hnil
      exact delivers_pure ⟨rfl, rfl, .refl s true dst _⟩
    · next hcons =>
      have hpos := List.length_pos_of_ne_nil hcons
      refine delivers_gets_bind ?_
      cases hpage : s.user (dst.toNat / PAGE_SIZE) with
      | none =>
        have hzero : reach s true dst src.length = 0 := by
          rw [reach, if_pos rfl]
          exact extent_of_none (by rw [State.userByte, hpage, Option.map_none])
        rw [hzero]
        refine delivers_pure ⟨rfl, ?_, .refl s true dst _⟩
        symm
        rw [decide_eq_false_iff_not]
        omega
      | some page =>
        have ho : dst.toNat % 4096 < 4096 := Nat.mod_lt _ (by decide)
        obtain ⟨m, hmdef⟩ : ∃ m, m = min (4096 - dst.toNat % 4096) src.length := ⟨_, rfl⟩
        have hm : dst.toNat % 4096 + m ≤ 4096 := by omega
        have hcopied := copied_putUser src hpage hm
        have hsome : ∀ k < m, (s.userByte (dst.toNat + k)).isSome := by
          intro k hk
          have hsame : (dst.toNat + k) / 4096 = dst.toNat / 4096 := by omega
          rw [isSome_userByte]
          change (s.user ((dst.toNat + k) / 4096)).isSome = true
          rw [hsame]
          exact Option.isSome_of_eq_some hpage
        have hreach : reach s true dst src.length =
            m + extent s.userByte (dst.toNat + m) (src.length - m) := by
          rw [reach, if_pos rfl, ← extent_add hsome]
          congr 1
          omega
        have hdst := toNat_add_of_reach (m := m) hs (hreach ▸ Nat.le_add_right _ _) (by omega)
        have hdrop : (src.drop m).length = src.length - m := List.length_drop ..
        have hrest : reach (s.putUser dst src page m) true (dst + UInt64.ofNat m)
            (src.drop m).length = extent s.userByte (dst.toNat + m) (src.length - m) := by
          rw [hcopied.reach, reach, if_pos rfl, hdst rfl, hdrop]
        -- the address of the last round does not matter
        have hnext : copyoutFrom n (dst + UInt64.ofNat (4096 - dst.toNat % 4096)) (src.drop m) =
            copyoutFrom n (dst + UInt64.ofNat m) (src.drop m) := by
          by_cases hlast : m = src.length
          · rw [hlast, List.drop_length]
            cases n <;> rfl
          · rw [show 4096 - dst.toNat % 4096 = m by omega]
        refine delivers_modify_bind ?_
        change Delivers (looks X Z) (copyoutFrom n (dst + UInt64.ofNat (4096 - dst.toNat % 4096))
          (src.drop (min (4096 - dst.toNat % 4096) src.length)))
          (s.putUser dst src page (min (4096 - dst.toNat % 4096) src.length)) _
        rw [← hmdef, hnext]
        refine (ih (hcopied.below hs) (by omega) (by omega)).imp ?_
        rintro ok u ⟨hu, hok, hcu⟩
        rw [hrest] at hok hcu
        rw [hreach]
        refine ⟨?_, ?_, ?_⟩
        · rw [hu]
          rfl
        · rw [hok, hdrop, decide_eq_decide]
          omega
        · have hle := extent_le s.userByte (dst.toNat + m) (src.length - m)
          refine hcopied.append hcu hdst (fun k hk ↦ ?_) (by omega)
          rw [List.getD_eq_getElem?_getD, List.getElem?_drop, List.getD_eq_getElem?_getD]

/-- `eitherCopyout` copies up to the first page that is not there. -/
theorem eitherCopyout_copies (dst : UInt64) (src : List UInt8)
    (hs : userDst = true → UserBelow s)
    (hlen : src.length < 2 ^ 32) :
    Delivers (looks X Z) (eitherCopyout userDst dst src) s fun ok t ↦
      t = { s with user := t.user, kernel := t.kernel } ∧
      ok = decide (reach s userDst dst src.length = src.length) ∧
      Copied s userDst dst (fun k ↦ src.getD k 0) (reach s userDst dst src.length) t := by
  cases userDst with
  | true =>
    refine (copyoutFrom_copies (hs rfl) hlen le_rfl).imp ?_
    rintro ok t ⟨ht, hok, hcopied⟩
    refine ⟨?_, hok, hcopied⟩
    rw [ht]
  | false =>
    refine delivers_modify_bind (delivers_pure ⟨rfl, by simp [reach], ?_⟩)
    refine ⟨fun x ↦ ?_, fun a ↦ ?_, fun _ ↦ rfl⟩
    · rw [if_neg fun h ↦ Bool.noConfusion h.1]
      rfl
    · dsimp only
      rw [reach, if_neg Bool.false_ne_true, List.getD_eq_getElem?_getD]
      split
      · next h =>
        rw [List.getElem?_eq_getElem h.2, List.getD_eq_getElem?_getD, List.getElem?_eq_getElem h.2]
        rfl
      · next h =>
        rw [List.getElem?_eq_none (Nat.not_lt.mp fun hlt ↦ h ⟨rfl, hlt⟩)]
        rfl

end
end Orfos.Fs
