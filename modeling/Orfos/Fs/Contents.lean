import Orfos.Base.Overwrite
import Orfos.Disk.Files
import Orfos.Fs.Direct

/-!
# The files of a consistent file system

A file system is a store of lists of bytes, one for each inode. It is healthy if no block is in two
places, the blocks that are marked are those in some place, and no file has a hole. A write to the
direct blocks of a file keeps it so, overwrites a part of the list of that file, and leaves the
others alone.
-/

namespace Orfos.Fs

open Orfos.Base Orfos.Base.Traced Orfos.Lib Orfos.Disk

/-- The inode in a slot. -/
def inodeIn (sb : SuperBlock) (v : UInt32 → Block) (m : UInt32) : DiskInode :=
  DiskInode.load (v (iblock m sb)) (dinodeAt m)

/-- The block at a block number of an inode, 0 for none. -/
def blockIn (v : UInt32 → Block) (d : DiskInode) (k : Nat) : UInt32 :=
  if h : k < NUM_DIRECT_BLOCKS then d.directBlocks ⟨k, h⟩
  else if d.indirectBlock = 0 then 0
  else getU32 (v d.indirectBlock) (4 * (k - NUM_DIRECT_BLOCKS))

/-- The block in a position, 0 for none. -/
def place (sb : SuperBlock) (v : UInt32 → Block) : Position → UInt32
  | .data m k => blockIn v (inodeIn sb v m) k
  | .indirect m => (inodeIn sb v m).indirectBlock

/-- The bytes of the file of an inode. -/
def files (sb : SuperBlock) (v : UInt32 → Block) (m : UInt32) : List UInt8 :=
  fileBytes v (inodeIn sb v m)

/-- A position of an inode. -/
abbrev Position.Inside (sb : SuperBlock) (p : Position) : Prop := p.Within (· < sb.numInodes)

/-- The contents of a disk on which each block is in at most one position, the marks are those of the
blocks in positions and of the blocks in front of the data, and no file has a hole. -/
structure Healthy (sb : SuperBlock) (v : UInt32 → Block) : Prop where
  data : ∀ p, Position.Inside sb p → place sb v p ≠ 0 →
    dataStart sb ≤ (place sb v p).toNat ∧ place sb v p < sb.size
  marked : ∀ p, Position.Inside sb p → place sb v p ≠ 0 → bitOf sb v (place sb v p) = true
  once : ∀ p q, Position.Inside sb p → Position.Inside sb q → place sb v p = place sb v q →
    place sb v p ≠ 0 → p = q
  all : ∀ b : UInt32, dataStart sb ≤ b.toNat → b < sb.size → bitOf sb v b = true →
    ∃ p, Position.Inside sb p ∧ place sb v p = b
  guarded : ∀ b < sb.size, bitOf sb v b = false → dataStart sb ≤ b.toNat
  whole : ∀ m < sb.numInodes, ∀ k, k * BLOCK_SIZE < (inodeIn sb v m).size.toNat →
    place sb v (.data m k) ≠ 0
  size : ∀ m < sb.numInodes, (inodeIn sb v m).size.toNat ≤ MAX_FILE * BLOCK_SIZE

/-- The bytes behind those that a write has counted are in a new block. -/
def Spilled (s : State) (i o k e : Nat) : Prop :=
  e = k ∨ k < e ∧ ∃ j : Fin NUM_DIRECT_BLOCKS, BLOCK_SIZE * j.val ≤ o + k ∧
    o + e ≤ BLOCK_SIZE * (j.val + 1) ∧ directs s i j = 0

section

variable {sb : SuperBlock} {v v' : UInt32 → Block} {s t : State} {i o k e : Nat} {m b : UInt32}
  {f : Nat → UInt8} {p q : Position}

theorem length_files : (files sb v m).length = (inodeIn sb v m).size.toNat := by
  rw [files, fileBytes, List.length_map, List.length_range]

/-- A byte of a file without holes. -/
theorem Healthy.getElem?_files (h : Healthy sb v) (hm : m < sb.numInodes) {x : Nat}
    (hx : x < (inodeIn sb v m).size.toNat) : (files sb v m)[x]? =
      some (byteAt (v (place sb v (.data m (x / BLOCK_SIZE)))) (x % BLOCK_SIZE)) := by
  have hne := h.whole m hm (x / BLOCK_SIZE) (Nat.lt_of_le_of_lt (Nat.div_mul_le_self x _) hx)
  have hblock : blockAt v (inodeIn sb v m) (x / BLOCK_SIZE) =
      place sb v (.data m (x / BLOCK_SIZE)) := by
    rw [place, blockIn] at hne ⊢
    rw [blockAt]
    split
    · rfl
    · next hge =>
      rw [dif_neg hge] at hne
      by_cases hzero : (inodeIn sb v m).indirectBlock = 0
      · rw [if_pos hzero] at hne
        exact absurd rfl hne
      · rw [if_neg hzero]
  rw [files, fileBytes, List.getElem?_map, List.getElem?_range hx, Option.map_some, hblock]

/-- The positions in front of the end of a file. -/
theorem Healthy.inside (h : Healthy sb v) (hm : m < sb.numInodes) {x : Nat}
    (hx : x < (inodeIn sb v m).size.toNat) : Position.Inside sb (.data m (x / BLOCK_SIZE)) := by
  have hsize : (inodeIn sb v m).size.toNat ≤ MAX_FILE * 1024 := h.size m hm
  refine ⟨hm, ?_⟩
  change x / 1024 < _
  omega

/-! ### Contents that agree -/

/-- The slots and the data are the same. -/
theorem inodeIn_congr (hs : Layout s) (hv : ∀ b : UInt32, s.superBlock.inodeStart.toNat ≤ b.toNat →
    v' b = v b) (hm : m < s.superBlock.numInodes) :
    inodeIn s.superBlock v' m = inodeIn s.superBlock v m := by
  have hplace := hs.iblock_toNat hm
  rw [inodeIn, hv _ (by omega), inodeIn]

theorem place_congr (h : Healthy s.superBlock v) (hs : Layout s)
    (hv : ∀ b : UInt32, s.superBlock.inodeStart.toNat ≤ b.toNat → v' b = v b)
    (hp : Position.Inside s.superBlock p) : place s.superBlock v' p = place s.superBlock v p := by
  have horder := hs.order
  cases p with
  | indirect m => rw [place, inodeIn_congr hs hv hp, place]
  | data m k =>
    rw [place, inodeIn_congr hs hv hp.1, place, blockIn, blockIn]
    split
    · rfl
    · split
      · rfl
      · next hne =>
        have hdata : dataStart s.superBlock ≤ (inodeIn s.superBlock v m).indirectBlock.toNat :=
          (h.data (.indirect m) hp.1 hne).1
        rw [hv _ (Nat.le_trans (by omega) hdata)]

/-- What is in front of the inodes has no part in the files. -/
theorem Healthy.congr (h : Healthy s.superBlock v) (hs : Layout s)
    (hv : ∀ b : UInt32, s.superBlock.inodeStart.toNat ≤ b.toNat → v' b = v b) :
    Healthy s.superBlock v' := by
  have horder := hs.order
  have hbit : ∀ b < s.superBlock.size, bitOf s.superBlock v' b = bitOf s.superBlock v b :=
    fun b hb ↦ by
      have hplace := hs.bblock_toNat hb
      rw [bitOf, hv _ (by omega), bitOf]
  have hplace : ∀ {p}, Position.Inside s.superBlock p →
      place s.superBlock v' p = place s.superBlock v p := place_congr h hs hv
  refine ⟨fun p hp hne ↦ ?_, fun p hp hne ↦ ?_, fun p q hp hq he hne ↦ ?_, fun b hlow hb hm ↦ ?_,
    fun b hb hm ↦ ?_, fun m hm k hk ↦ ?_, fun m hm ↦ ?_⟩
  · rw [hplace hp] at hne ⊢
    exact h.data p hp hne
  · rw [hplace hp] at hne ⊢
    rw [hbit _ (h.data p hp hne).2]
    exact h.marked p hp hne
  · rw [hplace hp] at hne he
    rw [hplace hq] at he
    exact h.once p q hp hq he hne
  · rw [hbit b hb] at hm
    obtain ⟨p, hp, hpb⟩ := h.all b hlow hb hm
    exact ⟨p, hp, (hplace hp).trans hpb⟩
  · exact h.guarded b hb ((hbit b hb).symm.trans hm)
  · rw [inodeIn_congr hs hv hm] at hk
    have hin : Position.Inside s.superBlock (.data m k) := by
      have hsize : _ ≤ MAX_FILE * 1024 := h.size m hm
      refine ⟨hm, ?_⟩
      change k * 1024 < _ at hk
      omega
    rw [hplace hin]
    exact h.whole m hm k hk
  · rw [inodeIn_congr hs hv hm]
    exact h.size m hm

theorem files_congr (h : Healthy s.superBlock v) (hs : Layout s)
    (hv : ∀ b : UInt32, s.superBlock.inodeStart.toNat ≤ b.toNat → v' b = v b)
    (hm : m < s.superBlock.numInodes) : files s.superBlock v' m = files s.superBlock v m := by
  have horder := hs.order
  have hnode := inodeIn_congr hs hv hm
  apply List.ext_getElem?
  intro x
  by_cases hx : x < (inodeIn s.superBlock v m).size.toNat
  · have hp := h.inside hm hx
    have hdata := (h.data _ hp (h.whole m hm _
      (Nat.lt_of_le_of_lt (Nat.div_mul_le_self x _) hx))).1
    rw [h.getElem?_files hm hx, (h.congr hs hv).getElem?_files hm (by rwa [hnode]),
      place_congr h hs hv hp, hv _ (Nat.le_trans (by omega) hdata)]
  · rw [List.getElem?_eq_none (by rw [length_files, hnode]; omega),
      List.getElem?_eq_none (by rw [length_files]; omega)]

/-! ### A write -/

/-- A file of a healthy file system whose inode is in memory as it is in its slot. -/
structure Present (s : State) (i : Nat) : Prop where
  healthy : Healthy s.superBlock (view s)
  inside : Open s ∅
  layout : Layout s
  device : (s.itable.inodes i).device = s.log.device
  inum : (s.itable.inodes i).inum < s.superBlock.numInodes
  slot : dinodeOf s (s.itable.inodes i).inum = (s.itable.inodes i).dinode

/-- The block at a direct block number. -/
theorem Present.place_data (h : Present s i) (j : Fin NUM_DIRECT_BLOCKS) :
    place s.superBlock (view s) (.data (s.itable.inodes i).inum j.val) = directs s i j := by
  have hslot : inodeIn s.superBlock (view s) (s.itable.inodes i).inum =
      (s.itable.inodes i).dinode := h.slot
  rw [place, hslot, blockIn, dif_pos j.isLt, directs]

theorem Present.data_inside (h : Present s i) (j : Fin NUM_DIRECT_BLOCKS) :
    Position.Inside s.superBlock (.data (s.itable.inodes i).inum j.val) :=
  ⟨h.inum, Nat.lt_of_lt_of_le j.isLt (by decide)⟩

/-- Blocks in positions are in use. -/
theorem Healthy.inUse (h : Healthy s.superBlock (view s)) (hp : Position.Inside s.superBlock p)
    (hne : place s.superBlock (view s) p ≠ 0) : InUse s (place s.superBlock (view s) p) :=
  ⟨(h.data p hp hne).1, (h.data p hp hne).2, h.marked p hp hne⟩

theorem Present.direct (h : Present s i) : Direct s i := by
  refine ⟨h.inside, h.layout, h.healthy.guarded, h.device, h.inum, fun j l he hne ↦ ?_,
    fun j hj ↦ ?_⟩
  · rw [← h.place_data j] at he hne
    rw [← h.place_data l] at he
    have hpos := h.healthy.once _ _ (h.data_inside j) (h.data_inside l) he hne
    injection hpos with _ hjl
    exact Fin.ext hjl
  · rw [← h.place_data j] at hj ⊢
    exact h.healthy.inUse (h.data_inside j) hj

/-- The blocks in other positions are not among the direct blocks of the file. -/
theorem Present.place_ne_directs (h : Present s i) (hp : Position.Inside s.superBlock p)
    (hother : ∀ j : Fin NUM_DIRECT_BLOCKS, p ≠ .data (s.itable.inodes i).inum j.val)
    (hne : place s.superBlock (view s) p ≠ 0) (j : Fin NUM_DIRECT_BLOCKS) :
    directs s i j ≠ place s.superBlock (view s) p := by
  intro he
  rw [← h.place_data j] at he
  exact hother j (h.healthy.once _ _ hp (h.data_inside j) he.symm hne)

/-- The blocks in other positions have not changed. -/
theorem Saved.view_place (h : Saved s i f o k e t) (hs : Present s i)
    (hp : Position.Inside s.superBlock p)
    (hother : ∀ j : Fin NUM_DIRECT_BLOCKS, p ≠ .data (s.itable.inodes i).inum j.val)
    (hne : place s.superBlock (view s) p ≠ 0) :
    view t (place s.superBlock (view s) p) = view s (place s.superBlock (view s) p) :=
  h.others _ (hs.healthy.inUse hp hne) (hs.place_ne_directs hp hother hne)

theorem Saved.inodeIn_self (h : Saved s i f o k e t) :
    inodeIn s.superBlock (view t) (s.itable.inodes i).inum = (t.itable.inodes i).dinode := by
  rw [← h.slot, dinodeOf, h.setting.superBlock, inodeIn]

theorem Saved.inodeIn_of_ne (h : Saved s i f o k e t) (hm : m < s.superBlock.numInodes)
    (hne : m ≠ (s.itable.inodes i).inum) :
    inodeIn s.superBlock (view t) m = inodeIn s.superBlock (view s) m := by
  have hslots := h.slots m hm hne
  rwa [dinodeOf, dinodeOf, h.setting.superBlock] at hslots

/-- Only the direct block numbers of the file have changed, and its size. -/
theorem Saved.inodeIn_eq (h : Saved s i f o k e t) (hs : Present s i)
    (hm : m < s.superBlock.numInodes) : ∃ d z, inodeIn s.superBlock (view t) m =
      { inodeIn s.superBlock (view s) m with directBlocks := d, size := z } := by
  by_cases hne : m = (s.itable.inodes i).inum
  · subst hne
    obtain ⟨z, hz⟩ := h.node
    refine ⟨directs t i, z, ?_⟩
    rw [h.inodeIn_self, hz, ← hs.slot]
    rfl
  · exact ⟨_, _, h.inodeIn_of_ne hm hne⟩

theorem Saved.place_of_ne (h : Saved s i f o k e t) (hs : Present s i)
    (hp : Position.Inside s.superBlock p)
    (hother : ∀ j : Fin NUM_DIRECT_BLOCKS, p ≠ .data (s.itable.inodes i).inum j.val) :
    place s.superBlock (view t) p = place s.superBlock (view s) p := by
  cases p with
  | indirect m =>
    obtain ⟨d, z, he⟩ := h.inodeIn_eq hs hp
    rw [place, he, place]
  | data m c =>
    obtain ⟨hm, -⟩ := hp
    rw [place, place, blockIn, blockIn]
    by_cases hc : c < NUM_DIRECT_BLOCKS
    · rw [dif_pos hc, dif_pos hc, h.inodeIn_of_ne hm]
      rintro rfl
      exact hother ⟨c, hc⟩ rfl
    · obtain ⟨d, z, he⟩ := h.inodeIn_eq hs hm
      rw [dif_neg hc, dif_neg hc, he]
      dsimp only
      split
      · rfl
      · next hne =>
        have hview := h.view_place hs (p := .indirect m) hm (fun j ↦ by simp) hne
        rw [place] at hview
        rw [hview]

theorem Saved.place_direct (h : Saved s i f o k e t) (j : Fin NUM_DIRECT_BLOCKS) :
    place s.superBlock (view t) (.data (s.itable.inodes i).inum j.val) = directs t i j := by
  rw [place, h.inodeIn_self, blockIn, dif_pos j.isLt, directs]

/-- The block of a position inside a file. -/
theorem Healthy.whole_inside (h : Healthy sb v) (hm : m < sb.numInodes) {c : Nat}
    (hc : c * BLOCK_SIZE < (inodeIn sb v m).size.toNat) : Position.Inside sb (.data m c) := by
  have hsize : _ ≤ MAX_FILE * 1024 := h.size m hm
  change c * 1024 < _ at hc
  exact ⟨hm, by omega⟩

/-- A write leaves no hole. -/
theorem Saved.whole (h : Saved s i f o k e t) (hs : Present s i)
    (ho : o ≤ (s.itable.inodes i).dinode.size.toNat) (hend : o + k ≤ NUM_DIRECT_BLOCKS * BLOCK_SIZE)
    (hm : m < s.superBlock.numInodes) {c : Nat}
    (hc : c * BLOCK_SIZE < (inodeIn s.superBlock (view t) m).size.toNat) :
    place s.superBlock (view t) (.data m c) ≠ 0 := by
  have hlast : o + k ≤ 12 * 1024 := hend
  have hslot : inodeIn s.superBlock (view s) (s.itable.inodes i).inum =
    (s.itable.inodes i).dinode := hs.slot
  -- the blocks that were there before
  have hbefore : c * BLOCK_SIZE < (inodeIn s.superBlock (view s) m).size.toNat →
      place s.superBlock (view t) (.data m c) ≠ 0 := fun hc ↦ by
    have hne := hs.healthy.whole m hm c hc
    by_cases hj : ∃ j : Fin NUM_DIRECT_BLOCKS,
        Position.data m c = .data (s.itable.inodes i).inum j.val
    · obtain ⟨j, hj⟩ := hj
      rw [hj, hs.place_data] at hne
      rw [hj, h.place_direct, h.kept j hne]
      exact hne
    · rw [h.place_of_ne hs (hs.healthy.whole_inside hm hc) (not_exists.mp hj)]
      exact hne
  by_cases hne : m = (s.itable.inodes i).inum
  · subst hne
    by_cases hin : c * BLOCK_SIZE < (s.itable.inodes i).dinode.size.toNat
    · exact hbefore (hslot ▸ hin)
    · change c * 1024 < _ at hc
      change ¬ c * 1024 < _ at hin
      rw [h.inodeIn_self, h.length] at hc
      have hc12 : c < NUM_DIRECT_BLOCKS := by
        change c < 12
        omega
      have hnew := (h.written ⟨c, hc12⟩ 0 (by decide) (by change o ≤ 1024 * c + 0; omega)
        (by change 1024 * c + 0 < o + k; omega)).1
      rwa [← h.place_direct] at hnew
  · rw [h.inodeIn_of_ne hm hne] at hc
    exact hbefore hc

/-- A write keeps a file system healthy. -/
theorem Saved.healthy (h : Saved s i f o k e t) (hs : Present s i) (ht : Open t ∅)
    (ho : o ≤ (s.itable.inodes i).dinode.size.toNat)
    (hend : o + k ≤ NUM_DIRECT_BLOCKS * BLOCK_SIZE) : Healthy s.superBlock (view t) := by
  have hsb := h.setting.superBlock
  have hdt := h.direct hs.direct ht
  have hbit : ∀ b, Fs.marked t b = bitOf s.superBlock (view t) b := fun b ↦ by
    rw [Fs.marked, hsb, bitOf]
  have howned : ∀ j, directs t i j ≠ 0 → dataStart s.superBlock ≤ (directs t i j).toNat ∧
      directs t i j < s.superBlock.size ∧ bitOf s.superBlock (view t) (directs t i j) = true :=
    fun j hj ↦ by
      obtain ⟨hdata, hlt, hmarked⟩ := hdt.owned j hj
      rw [hsb] at hdata hlt
      exact ⟨hdata, hlt, hbit _ ▸ hmarked⟩
  -- a direct block of the file is in no other position
  have hapart : ∀ q, Position.Inside s.superBlock q →
      (∀ j : Fin NUM_DIRECT_BLOCKS, q ≠ .data (s.itable.inodes i).inum j.val) → ∀ j,
        directs t i j = place s.superBlock (view t) q → directs t i j ≠ 0 → False :=
    fun q hq hother j he hne ↦ by
      rw [h.place_of_ne hs hq hother] at he
      rw [he] at hne
      exact h.of_directs (hs.healthy.inUse hq hne) (hs.place_ne_directs hq hother hne) j he
  refine ⟨fun p hp hne ↦ ?_, fun p hp hne ↦ ?_, fun p q hp hq he hne ↦ ?_, fun b hlow hb hm ↦ ?_,
    fun b hb hm ↦ ?_, fun m hm c hc ↦ h.whole hs ho hend hm hc, fun m hm ↦ ?_⟩
  · by_cases hj : ∃ j : Fin NUM_DIRECT_BLOCKS, p = .data (s.itable.inodes i).inum j.val
    · obtain ⟨j, rfl⟩ := hj
      rw [h.place_direct] at hne ⊢
      exact ⟨(howned j hne).1, (howned j hne).2.1⟩
    · rw [h.place_of_ne hs hp (not_exists.mp hj)] at hne ⊢
      exact hs.healthy.data p hp hne
  · by_cases hj : ∃ j : Fin NUM_DIRECT_BLOCKS, p = .data (s.itable.inodes i).inum j.val
    · obtain ⟨j, rfl⟩ := hj
      rw [h.place_direct] at hne ⊢
      exact (howned j hne).2.2
    · rw [h.place_of_ne hs hp (not_exists.mp hj)] at hne ⊢
      have huse := hs.healthy.inUse hp hne
      rw [← hbit]
      exact (h.marks _ huse.lt).mpr (.inl huse.marked)
  · by_cases hj : ∃ j : Fin NUM_DIRECT_BLOCKS, p = .data (s.itable.inodes i).inum j.val
    · obtain ⟨j, rfl⟩ := hj
      rw [h.place_direct] at he hne
      by_cases hl : ∃ l : Fin NUM_DIRECT_BLOCKS, q = .data (s.itable.inodes i).inum l.val
      · obtain ⟨l, rfl⟩ := hl
        rw [h.place_direct] at he
        rw [h.once j l he hne]
      · exact (hapart q hq (not_exists.mp hl) j he hne).elim
    · by_cases hl : ∃ l : Fin NUM_DIRECT_BLOCKS, q = .data (s.itable.inodes i).inum l.val
      · obtain ⟨l, rfl⟩ := hl
        rw [he, h.place_direct] at hne
        rw [h.place_direct] at he
        exact (hapart p hp (not_exists.mp hj) l he.symm hne).elim
      · rw [h.place_of_ne hs hp (not_exists.mp hj)] at he hne
        rw [h.place_of_ne hs hq (not_exists.mp hl)] at he
        exact hs.healthy.once p q hp hq he hne
  · rw [← hbit, h.marks b hb] at hm
    obtain hm | ⟨-, j, rfl⟩ := hm
    · obtain ⟨p, hp, rfl⟩ := hs.healthy.all b hlow hb hm
      have hne : place s.superBlock (view s) p ≠ 0 := InUse.ne_zero ⟨hlow, hb, hm⟩
      refine ⟨p, hp, ?_⟩
      by_cases hj : ∃ j : Fin NUM_DIRECT_BLOCKS, p = .data (s.itable.inodes i).inum j.val
      · obtain ⟨j, rfl⟩ := hj
        rw [hs.place_data] at hne ⊢
        rw [h.place_direct, h.kept j hne]
      · exact h.place_of_ne hs hp (not_exists.mp hj)
    · exact ⟨_, hs.data_inside j, h.place_direct j⟩
  · have hguard := hdt.guarded b (by rwa [hsb]) (by rwa [hbit])
    rwa [hsb] at hguard
  · by_cases hne : m = (s.itable.inodes i).inum
    · subst hne
      have hsize := hs.healthy.size _ hm
      rw [show inodeIn s.superBlock (view s) (s.itable.inodes i).inum = _ from hs.slot] at hsize
      rw [h.inodeIn_self, h.length]
      exact max_le hsize (Nat.le_trans hend (by decide))
    · rw [h.inodeIn_of_ne hm hne]
      exact hs.healthy.size m hm

/-- The bytes of other files, and those that the write did not touch. -/
theorem Saved.byte_of_outside (h : Saved s i f o k e t) (hs : Present s i)
    (hspill : Spilled s i o k e) (hm : m < s.superBlock.numInodes) {x : Nat}
    (hx : x < (inodeIn s.superBlock (view s) m).size.toNat)
    (hout : m = (s.itable.inodes i).inum → ¬ (o ≤ x ∧ x < o + k)) :
    byteAt (view t (place s.superBlock (view t) (.data m (x / BLOCK_SIZE)))) (x % BLOCK_SIZE) =
      byteAt (view s (place s.superBlock (view s) (.data m (x / BLOCK_SIZE)))) (x % BLOCK_SIZE) := by
  have hp := hs.healthy.inside hm hx
  have hne := hs.healthy.whole m hm _ (Nat.lt_of_le_of_lt (Nat.div_mul_le_self x _) hx)
  by_cases hj : ∃ j : Fin NUM_DIRECT_BLOCKS,
      Position.data m (x / BLOCK_SIZE) = .data (s.itable.inodes i).inum j.val
  case neg => rw [h.place_of_ne hs hp (not_exists.mp hj), h.view_place hs hp (not_exists.mp hj) hne]
  obtain ⟨j, hj⟩ := hj
  injection hj with hmi hxj
  subst hmi
  rw [hxj, hs.place_data] at hne
  rw [hxj, h.place_direct, hs.place_data, h.kept j hne]
  refine h.old j _ (Nat.mod_lt _ (by decide)) hne ?_
  change x / 1024 = j.val at hxj
  change ¬ (o ≤ 1024 * j.val + x % 1024 ∧ 1024 * j.val + x % 1024 < o + e)
  have hxout := hout rfl
  obtain rfl | ⟨-, l, hlow, hhigh, hzero⟩ := hspill
  · omega
  · change 1024 * l.val ≤ _ at hlow
    change _ ≤ 1024 * (l.val + 1) at hhigh
    have hjl : j ≠ l := fun he ↦ hne (he ▸ hzero)
    rw [Ne, Fin.ext_iff] at hjl
    omega

/-- A write overwrites a part of the list of its file. -/
theorem Saved.files_put (h : Saved s i f o k e t) (hs : Present s i) (ht : Open t ∅)
    (hspill : Spilled s i o k e) (ho : o ≤ (s.itable.inodes i).dinode.size.toNat)
    (hend : o + k ≤ NUM_DIRECT_BLOCKS * BLOCK_SIZE) (hm : m < s.superBlock.numInodes) :
    files s.superBlock (view t) m =
      put (files s.superBlock (view s)) (s.itable.inodes i).inum o ((List.range k).map f) m := by
  have hlast : o + k ≤ 12 * 1024 := hend
  have hht := h.healthy hs ht ho hend
  have hlen : ((List.range k).map f).length = k := by
    rw [List.length_map, List.length_range]
  by_cases hne : m = (s.itable.inodes i).inum
  · subst hne
    have hslot : inodeIn s.superBlock (view s) (s.itable.inodes i).inum =
      (s.itable.inodes i).dinode := hs.slot
    have hnode := h.inodeIn_self
    have hlength := h.length
    rw [put_self]
    refine eq_overwrite (by rwa [length_files, hslot]) ?_ (fun x hx ↦ ?_) fun x hx hout ↦ ?_
    · rw [length_files, length_files, hnode, hslot, hlength, hlen]
    · rw [hlen] at hx
      have hdiv : (o + x) / 1024 < 12 := by omega
      rw [hht.getElem?_files hm (by rw [hnode, hlength]; omega), List.getElem?_map,
        List.getElem?_range hx, Option.map_some]
      have hbyte := (h.written ⟨(o + x) / BLOCK_SIZE, hdiv⟩ ((o + x) % BLOCK_SIZE)
        (Nat.mod_lt _ (by decide)) (by change o ≤ 1024 * ((o + x) / 1024) + (o + x) % 1024; omega)
        (by change 1024 * ((o + x) / 1024) + (o + x) % 1024 < o + k; omega)).2
      rw [← h.place_direct, Nat.div_add_mod, Nat.add_sub_cancel_left] at hbyte
      rw [hbyte]
    · rw [length_files] at hx
      rw [hlen] at hout
      rw [hht.getElem?_files hm, hs.healthy.getElem?_files hm hx,
        h.byte_of_outside hs hspill hm hx fun _ ↦ hout]
      rw [hslot] at hx
      rw [hnode, hlength]
      omega
  · rw [put_of_ne hne]
    have hnode := h.inodeIn_of_ne hm hne
    apply List.ext_getElem?
    intro x
    by_cases hx : x < (inodeIn s.superBlock (view s) m).size.toNat
    · rw [hht.getElem?_files hm (by rwa [hnode]), hs.healthy.getElem?_files hm hx,
        h.byte_of_outside hs hspill hm hx fun he ↦ absurd he hne]
    · rw [List.getElem?_eq_none (by rw [length_files, hnode]; omega),
        List.getElem?_eq_none (by rw [length_files]; omega)]

/-- A write keeps a file present. -/
theorem Saved.present (h : Saved s i f o k e t) (hs : Present s i) (ht : Open t ∅)
    (ho : o ≤ (s.itable.inodes i).dinode.size.toNat)
    (hend : o + k ≤ NUM_DIRECT_BLOCKS * BLOCK_SIZE) : Present t i := by
  have hdt := h.direct hs.direct ht
  refine ⟨h.setting.superBlock ▸ h.healthy hs ht ho hend, ht, hdt.layout, hdt.device, hdt.inum, ?_⟩
  rw [h.inum, h.slot]

end
end Orfos.Fs
