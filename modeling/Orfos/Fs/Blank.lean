import Orfos.Fs.Bitmap

/-!
# Fresh blocks

`allocateBlock` fills the block that it returns with zero bytes, but for the last one: `memset` of
`kernel/lib/string.cpp` ends one byte early. The block is blank if its last byte already was zero.
-/

namespace Orfos.Fs

open Orfos.Base Orfos.Base.Traced Orfos.Lib

/-- The byte of a filled block. -/
theorem memset_apply (data : Block) (ch : UInt8) (k : Fin BLOCK_SIZE) :
    memset data 0 ch BLOCK_SIZE k = if k.val < BLOCK_SIZE - 1 then ch else data k := by
  simp [memset, putBytes]

/-- A filled block is blank if and only if its last byte was zero. -/
theorem memset_blank_iff (data : Block) :
    (∀ k, memset data 0 0 BLOCK_SIZE k = 0) ↔ byteAt data (BLOCK_SIZE - 1) = 0 := by
  constructor
  · intro h
    have hlast := h ⟨1023, by decide⟩
    rw [memset_apply, if_neg (by decide)] at hlast
    exact hlast
  · intro h k
    rw [memset_apply]
    split
    · rfl
    · next hk =>
      have hval : k = ⟨1023, by decide⟩ := by
        have hlt : k.val < 1024 := k.isLt
        have hge : ¬ k.val < 1023 := hk
        apply Fin.ext
        change k.val = 1023
        omega
      rw [hval]
      exact h

/-- A word whose bytes are zero. -/
theorem getLe_of_zero {data : Block} {o n : Nat} (h : ∀ k < n, byteAt data (o + k) = 0) :
    getLe data o n = 0 := by
  rw [getLe_of_digits (v := 0) (by simpa using h), Nat.zero_mod]

/-- The entries of a filled indirect block are zero if and only if its last byte was. -/
theorem memset_entries_iff (data : Block) :
    (∀ k < NUM_INDIRECT_BLOCKS, getU32 (memset data 0 0 BLOCK_SIZE) (4 * k) = 0) ↔
      byteAt data (BLOCK_SIZE - 1) = 0 := by
  constructor
  · intro h
    have hlast := h 255 (by decide)
    have hnat : getLe (memset data 0 0 BLOCK_SIZE) 1020 4 % 2 ^ 32 = 0 := by
      have := congrArg UInt32.toNat hlast
      rwa [getU32, UInt32.toNat_ofNat'] at this
    have hbyte : byteAt (memset data 0 0 BLOCK_SIZE) 1023 = data ⟨1023, by decide⟩ := by
      rw [byteAt, dif_pos (by decide), memset_apply, if_neg (by decide)]
    have hlt := (data ⟨1023, by decide⟩).toNat_lt
    have hlt₀ := (byteAt (memset data 0 0 BLOCK_SIZE) 1020).toNat_lt
    have hlt₁ := (byteAt (memset data 0 0 BLOCK_SIZE) (1020 + 1)).toNat_lt
    have hlt₂ := (byteAt (memset data 0 0 BLOCK_SIZE) (1020 + 1 + 1)).toNat_lt
    simp only [getLe, hbyte] at hnat
    have hz : (data ⟨1023, by decide⟩).toNat = 0 := by omega
    exact UInt8.toNat_inj.mp hz
  · intro h k hk
    have hblank := (memset_blank_iff data).mpr h
    rw [getU32, getLe_of_zero]
    · rfl
    · intro j _
      unfold byteAt
      split
      · exact hblank _
      · rfl

/-- The cached and logged content of a block is blank. -/
structure Fresh (t : State) (a : UInt32) : Prop where
  logged : a ∈ t.log.header
  cached : ∃ i buf, slot t a = some (i, buf) ∧ buf.valid = true ∧ ∀ k, buf.data k = 0

section

variable {s t : State} {a : UInt32} {held : Finset UInt32}

/-- A logged block is cached. -/
theorem fresh_iff (h : Calm t t.log.header.toFinset held) (ha : a ∈ t.log.header) :
    Fresh t a ↔ ∀ k, view t a k = 0 := by
  cases hs : slot t a with
  | none =>
    have hpins := (h.absent a hs).1
    exact absurd (List.mem_toFinset.mpr ha) hpins
  | some p =>
    obtain ⟨i, buf⟩ := p
    have hview : view t a = buf.data := by rw [view, hs]
    rw [hview]
    constructor
    · rintro ⟨-, j, buf', hs', -, hzero⟩
      rw [hs] at hs'
      cases hs'
      exact hzero
    · intro hzero
      exact ⟨ha, i, buf, hs, (h.cached a i buf hs).2.1, hzero⟩

/-- The block that `allocateBlock` returns is the first that is not marked. It is blank, and maps
nothing as an indirect block, if and only if its last byte was zero. -/
theorem fresh_iff_last_zero (h : Calm s s.log.header.toFinset held)
    (hr : Runs Room (allocateBlock s.log.device) s a t) (ha : a ≠ 0) :
    (a < s.superBlock.size ∧ marked s a = false ∧ ∀ c < a, marked s c = true) ∧
      (Fresh t a ↔ byteAt (marks s a a) (BLOCK_SIZE - 1) = 0) ∧
      ((∀ k < NUM_INDIRECT_BLOCKS, getU32 (view t a) (4 * k) = 0) ↔
        byteAt (marks s a a) (BLOCK_SIZE - 1) = 0) := by
  have hpost := (allocateBlock_allocates h).of_runs hr
  rcases hpost with ⟨hzero, -⟩ | hg
  · exact absurd hzero ha
  · have hlogged : a ∈ t.log.header := by
      rw [hg.log]
      exact Log.mem_logged _ a
    have hview : view t a = memset (marks s a a) 0 0 BLOCK_SIZE := by
      rw [hg.view, Function.update_self]
    refine ⟨⟨hg.lt, hg.free, hg.least⟩, ?_, ?_⟩
    · rw [fresh_iff hg.calm hlogged, hview]
      exact memset_blank_iff _
    · rw [hview]
      exact memset_entries_iff _

end

/-- A disk on which the blocks up to 63 are marked, and block 64 has a last byte. -/
def recycledDisk (last : UInt8) (b : UInt32) : Block :=
  if b = 46 then fun k ↦ if k.val < 8 then 0xff else 0
  else if b = 64 then fun k ↦ if k.val = 1023 then last else 1
  else Block.zero

/-- The kernel inside a transaction on that disk. -/
def recycled (last : UInt8) : State :=
  { started (recycledDisk last) with log := ⟨2, 31, 1, false, 1, []⟩ }

theorem recycled_calm (last : UInt8) :
    Calm (recycled last) (recycled last).log.header.toFinset ∅ :=
  calm_of_empty fun _ ↦ rfl

theorem recycled_runs (last : UInt8) (hv : (allocateBlock 1 (recycled last)).value = some 64)
    (hm : Met Room (allocateBlock 1) (recycled last)) :
    Runs Room (allocateBlock (recycled last).log.device) (recycled last) 64
      (allocateBlock 1 (recycled last)).state := ⟨hv, rfl, hm⟩

theorem fresh_recycled_zero : Fresh (allocateBlock 1 (recycled 0)).state 64 :=
  (fresh_iff_last_zero (recycled_calm 0)
    (recycled_runs 0 (by decide +kernel) (by decide +kernel)) (by decide)).2.1.mpr
      (by decide +kernel)

/-- The last byte of a freed block is still there. -/
theorem stale_recycled :
    ¬ ∀ s held a t, Calm s s.log.header.toFinset held →
      Runs Room (allocateBlock s.log.device) s a t → a ≠ 0 → Fresh t a := by
  intro h
  have hfresh := h _ _ _ _ (recycled_calm 7)
    (recycled_runs 7 (by decide +kernel) (by decide +kernel)) (by decide)
  rcases (allocateBlock_allocates (recycled_calm 7)).of_runs
    (recycled_runs 7 (by decide +kernel) (by decide +kernel)) with ⟨hz, -⟩ | hg
  · cases hz
  · have hblank := (fresh_iff hg.calm hfresh.logged).mp hfresh ⟨1023, by decide⟩
    revert hblank
    decide +kernel

end Orfos.Fs
