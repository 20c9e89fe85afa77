import Orfos.Fs.Copyout

/-!
# Copies from memory

`eitherCopyin` copies from the memory of the kernel to a buffer, or from user memory up to the first
page that is not there. What it has copied until then stays in the buffer.
-/

namespace Orfos.Fs

open Orfos.Base Orfos.Base.Traced Orfos.Lib

/-- The byte at an address of the memory that `eitherCopyin` copies from. -/
def State.sourceByte (s : State) (userSrc : Bool) (a : UInt64) : Option UInt8 :=
  if userSrc then s.userByte a.toNat else some (s.kernel a)

/-- From `s` to `t` the first `m` bytes at `src` are copied to a buffer, from `dst` on. -/
def CopiedIn (s : State) (bp dst : Nat) (userSrc : Bool) (src : UInt64) (m : Nat) (t : State) :
    Prop :=
  ∃ f : Nat → UInt8, (∀ k < m, s.sourceByte userSrc (src + UInt64.ofNat k) = some (f k)) ∧
    t = s.setBuffer bp fun x ↦ { x with data := putBytes x.data dst m f }

section

variable {R : Regime State Call} {s t u : State} {bp dst m n len : Nat} {userSrc : Bool}
  {src : UInt64} {page : Nat → UInt8}

theorem putBytes_none (data : Block) (o : Nat) (f : Nat → UInt8) : putBytes data o 0 f = data := by
  funext j
  rw [putBytes, if_neg (by omega)]

/-- Bytes one behind the other. -/
theorem putBytes_putBytes (data : Block) (o m n : Nat) (f g : Nat → UInt8) :
    putBytes (putBytes data o m f) (o + m) n g =
      putBytes data o (m + n) fun k ↦ if k < m then f k else g (k - m) := by
  funext j
  simp only [putBytes]
  by_cases hhigh : o + m ≤ j.val ∧ j.val < o + m + n
  · rw [if_pos hhigh, if_pos (by omega), if_neg (by omega), Nat.sub_add_eq]
  · rw [if_neg hhigh]
    by_cases hlow : o ≤ j.val ∧ j.val < o + m
    · rw [if_pos hlow, if_pos (by omega), if_pos (by omega)]
    · rw [if_neg hlow, if_neg (by omega)]

theorem CopiedIn.none (s : State) (bp dst : Nat) (userSrc : Bool) (src : UInt64) :
    CopiedIn s bp dst userSrc src 0 s := by
  refine ⟨fun _ ↦ 0, fun k hk ↦ absurd hk (Nat.not_lt_zero k), (setBuffer_same ?_).symm⟩
  rw [putBytes_none]

/-- Copies one behind the other. -/
theorem CopiedIn.append (h : CopiedIn s bp dst userSrc src m t)
    (h' : CopiedIn t bp (dst + m) userSrc (src + UInt64.ofNat m) n u) :
    CopiedIn s bp dst userSrc src (m + n) u := by
  obtain ⟨f, hf, rfl⟩ := h
  obtain ⟨g, hg, rfl⟩ := h'
  refine ⟨fun k ↦ if k < m then f k else g (k - m), fun k hk ↦ ?_, ?_⟩
  · dsimp only
    by_cases hlow : k < m
    · rw [if_pos hlow]
      exact hf k hlow
    · rw [if_neg hlow, ← hg (k - m) (by omega), UInt64.add_assoc, ← UInt64.ofNat_add,
        Nat.add_sub_cancel' (Nat.le_of_not_lt hlow)]
      rfl
  · simp only [State.setBuffer, Function.update_self, Function.update_idem, putBytes_putBytes]

/-- A round of `copyin`. -/
theorem copiedIn_page (bp dst : Nat) (hpage : s.user (src.toNat / PAGE_SIZE) = some page)
    (hm : src.toNat % PAGE_SIZE + m ≤ PAGE_SIZE) :
    CopiedIn s bp dst true src m (s.setBuffer bp fun x ↦
      { x with data := putBytes x.data dst m fun k ↦ page (src.toNat % PAGE_SIZE + k) }) := by
  have hm' : src.toNat % 4096 + m ≤ 4096 := hm
  have hz := src.toNat_lt
  refine ⟨_, fun k hk ↦ ?_, rfl⟩
  have hk' : (UInt64.ofNat k).toNat = k := by
    rw [UInt64.toNat_ofNat']
    omega
  have ha : (src + UInt64.ofNat k).toNat = src.toNat + k := by
    rw [UInt64.toNat_add, hk']
    omega
  have hdiv : (src.toNat + k) / PAGE_SIZE = src.toNat / PAGE_SIZE := by
    change (src.toNat + k) / 4096 = src.toNat / 4096
    omega
  have hmod : (src.toNat + k) % PAGE_SIZE = src.toNat % PAGE_SIZE + k := by
    change (src.toNat + k) % 4096 = src.toNat % 4096 + k
    omega
  rw [State.sourceByte, if_pos rfl, State.userByte, ha, hdiv, hmod, hpage, Option.map_some]

/-- The loop of `copyin` copies up to the first page that is not there. -/
theorem copyinFrom_copies (hn : len ≤ n) :
    Ensures R (copyinFrom bp n dst src len) s fun ok t ↦
      ∃ m ≤ len, (ok = true → m = len) ∧
        (ok = false → m < len ∧ s.sourceByte true (src + UInt64.ofNat m) = none) ∧
          CopiedIn s bp dst true src m t := by
  induction n generalizing s dst src len with
  | zero =>
    obtain rfl : len = 0 := by omega
    exact ensures_pure ⟨0, le_rfl, fun _ ↦ rfl, fun h ↦ (by cases h), .none ..⟩
  | succ n ih =>
    unfold copyinFrom
    split
    · next hzero =>
      subst hzero
      exact ensures_pure ⟨0, le_rfl, fun _ ↦ rfl, fun h ↦ (by cases h), .none ..⟩
    · next hpos =>
      refine ensures_gets_bind ?_
      cases hpage : s.user (src.toNat / PAGE_SIZE) with
      | none =>
        refine ensures_pure ⟨0, Nat.zero_le _, fun h ↦ (by cases h), fun _ ↦ ⟨by omega, ?_⟩, .none ..⟩
        rw [show src + UInt64.ofNat 0 = src from UInt64.add_zero src, State.sourceByte, if_pos rfl,
          State.userByte, hpage, Option.map_none]
      | some page =>
        have ho : src.toNat % 4096 < 4096 := Nat.mod_lt _ (by decide)
        obtain ⟨m, hmdef⟩ : ∃ m, m = min (4096 - src.toNat % 4096) len := ⟨_, rfl⟩
        have hm : src.toNat % 4096 + m ≤ 4096 := by omega
        have hround := copiedIn_page bp dst hpage hm
        refine ensures_modify_bind ?_
        change Ensures R (copyinFrom bp n (dst + min (4096 - src.toNat % 4096) len)
          (src + UInt64.ofNat (4096 - src.toNat % 4096))
          (len - min (4096 - src.toNat % 4096) len)) _ _
        rw [← hmdef]
        by_cases hlast : m = len
        · -- the address of the last round does not matter
          subst hlast
          rw [Nat.sub_self]
          have hend : ∀ d a, copyinFrom bp n d a 0 = pure true := fun d a ↦ by
            cases n <;> rfl
          rw [hend]
          exact ensures_pure ⟨m, le_rfl, fun _ ↦ rfl, fun h ↦ (by cases h), hround⟩
        · rw [show 4096 - src.toNat % 4096 = m by omega]
          refine (ih (by omega)).imp ?_
          rintro ok u ⟨m', hle, hok, hfail, hcopied⟩
          refine ⟨m + m', by omega, fun h ↦ (by have := hok h; omega), fun h ↦ ?_,
            hround.append hcopied⟩
          obtain ⟨hlt, hnone⟩ := hfail h
          rw [UInt64.add_assoc, ← UInt64.ofNat_add] at hnone
          exact ⟨by omega, hnone⟩

/-- `eitherCopyin` copies up to the first page that is not there. -/
theorem eitherCopyin_copies (bp dst : Nat) (src : UInt64) (len : Nat) :
    Ensures R (eitherCopyin bp dst userSrc src len) s fun ok t ↦
      ∃ m ≤ len, (ok = true → m = len) ∧
        (ok = false → m < len ∧ s.sourceByte userSrc (src + UInt64.ofNat m) = none) ∧
          CopiedIn s bp dst userSrc src m t := by
  cases userSrc with
  | true => exact copyinFrom_copies le_rfl
  | false =>
    exact ensures_modify_bind (ensures_pure ⟨len, le_rfl, fun _ ↦ rfl, fun h ↦ (by cases h), _,
      fun _ _ ↦ rfl, rfl⟩)

end
end Orfos.Fs
