import Mathlib.Data.List.Perm.Basic
import Mathlib.Algebra.BigOperators.Group.List.Basic
import Orfos.Disk.Length

/-!
# The build on the image that there is

The zero-fill loop leaves an image of 1025 blocks. As long as the files end in front of the last one,
the build does what it does on an image in which every block exists.
-/

namespace Orfos.Disk

open Orfos.Base Orfos.Fs

/-- The image with the blocks that the zero-fill loop leaves. -/
def Image.short (d : Image) : Image := { d with length := 1025 }

section

variable {junk : Junk} {d d' d₁ : Image} {x i : UInt32} {nodes nodes' : UInt32 → DiskInode}
  {live : UInt32 → Prop} {order order' : List Position} {contents contents' : UInt32 → List UInt8}
  {k n : Nat} {dinode dinode' : DiskInode} {offset offset' : UInt32} {p : List UInt8}

/-! ### The sectors that are used -/

theorem readSector_short (hf : d.failed = false) (hx : x.toNat < 1025) :
    readSector junk d.short x = (d.blocks x, d.short) :=
  readSector_of_lt (d := d.short) hf hx

theorem writeSector_short (hw : Whole d) (hx : x.toNat < 1025) (buf : Block) :
    writeSector d.short x buf = (writeSector d x buf).short := by
  rw [writeSector_whole hw, writeSector_of_lt (d := d.short) hw.failed hx]
  rfl

theorem fill_short (hw : Whole d) (hx : x.toNat < 1025) (o : Nat) (p : List UInt8) :
    fill junk d.short x o p = (fill junk d x o p).short := by
  rw [fill, readSector_short hw.failed hx, fill, readSector_whole hw]
  exact writeSector_short hw hx _

theorem writeInode_short (hw : Whole d) (hi : i.toNat < NUM_INODES) (n : DiskInode) :
    writeInode junk d.short i n = (writeInode junk d i n).short := by
  have hx : (iblock i sb).toNat < 1025 := Nat.lt_trans (iblock_lt hi) (by decide)
  rw [writeInode, readSector_short hw.failed hx, writeInode, readSector_whole hw]
  exact writeSector_short hw hx _

theorem directBlock_short (k : Fin NUM_DIRECT_BLOCKS) :
    directBlock d.short dinode k =
      ((directBlock d dinode k).1, (directBlock d dinode k).2.1, (directBlock d dinode k).2.2.short) := by
  rw [directBlock, directBlock]
  split <;> rfl

theorem indirectBlock_short :
    indirectBlock d.short dinode = ((indirectBlock d dinode).1, (indirectBlock d dinode).2.short) := by
  rw [indirectBlock, indirectBlock]
  split <;> rfl

theorem indirectEntry_short (hw : Whole d) (hx : x.toNat < 1025) :
    indirectEntry junk d.short x k =
      ((indirectEntry junk d x k).1, (indirectEntry junk d x k).2.short) := by
  rw [indirectEntry, readSector_short hw.failed hx, indirectEntry, readSector_whole hw]
  dsimp only
  split
  · rw [Prod.mk.injEq]
    exact ⟨rfl, writeSector_short (d := { d with freeBlock := d.freeBlock + 1 })
      ⟨hw.failed, hw.length⟩ hx _⟩
  · rfl

/-- `findBlock` uses the indirect block. -/
theorem findBlock_short (hw : Whole d) (hfind : findBlock junk d dinode k = some (x, dinode', d'))
    (hx : NUM_DIRECT_BLOCKS ≤ k → dinode'.indirectBlock.toNat < 1025) :
    findBlock junk d.short dinode k = some (x, dinode', d'.short) := by
  unfold findBlock at hfind ⊢
  split at hfind
  · next hk => rw [dif_pos hk, directBlock_short, Option.some.inj hfind]
  · next hk =>
    rw [dif_neg hk]
    split at hfind
    · next hlt =>
      rw [if_pos hlt, indirectBlock_short]
      have hw' : Whole (indirectBlock d dinode).2 := by
        rw [indirectBlock]
        split
        · exact ⟨hw.failed, hw.length⟩
        · exact hw
      dsimp only at hfind ⊢
      simp only [Option.some.injEq, Prod.mk.injEq] at hfind
      obtain ⟨hsector, hnode, himage⟩ := hfind
      rw [indirectEntry_short hw' (by rw [hnode]; exact hx (Nat.not_lt.mp hk))]
      rw [hsector, himage, hnode]
    · cases hfind

/-! ### What `findBlock` leaves alone -/

/-- Behind the end of a file its blocks are blank. -/
def Blank (blocks : UInt32 → Block) (nodes : UInt32 → DiskInode) (order : List Position)
    (contents : UInt32 → List UInt8) : Prop :=
  ∀ i k, .data i k ∈ order → ∀ o < BLOCK_SIZE, (contents i).length ≤ k * BLOCK_SIZE + o →
    byteAt (blocks (target blocks nodes (.data i k))) o = 0

theorem byteAt_zero (o : Nat) : byteAt Block.zero o = 0 := by
  unfold byteAt
  split
  · rfl
  · rfl

/-- For a direct block a number is put into the inode. -/
theorem findBlock_direct (hk : k < NUM_DIRECT_BLOCKS)
    (hfind : findBlock junk d dinode k = some (x, dinode', d')) :
    d'.blocks = d.blocks ∧ dinode'.indirectBlock = dinode.indirectBlock ∧
      ∀ m, dinode.directBlocks m ≠ 0 → dinode'.directBlocks m = dinode.directBlocks m := by
  rw [findBlock, dif_pos hk, Option.some.injEq, directBlock] at hfind
  split at hfind
  · next hz =>
    cases hfind
    refine ⟨rfl, rfl, fun m hm ↦ Function.update_of_ne ?_ _ _⟩
    rintro rfl
    exact hm hz
  · cases hfind
    exact ⟨rfl, rfl, fun _ _ ↦ rfl⟩

/-- For a block behind them a number is put into the indirect block. -/
theorem findBlock_indirect (hw : Whole d) (hk : NUM_DIRECT_BLOCKS ≤ k)
    (hfind : findBlock junk d dinode k = some (x, dinode', d')) :
    dinode'.directBlocks = dinode.directBlocks ∧
      (dinode.indirectBlock ≠ 0 → dinode'.indirectBlock = dinode.indirectBlock) ∧
      (∀ y ≠ dinode'.indirectBlock, d'.blocks y = d.blocks y) ∧
      ∀ m, getU32 (d.blocks dinode'.indirectBlock) (4 * m) ≠ 0 →
        getU32 (d'.blocks dinode'.indirectBlock) (4 * m) =
          getU32 (d.blocks dinode'.indirectBlock) (4 * m) := by
  have hblock : (indirectBlock d dinode).1.directBlocks = dinode.directBlocks ∧
      (dinode.indirectBlock ≠ 0 → (indirectBlock d dinode).1.indirectBlock = dinode.indirectBlock) ∧
      (indirectBlock d dinode).2.blocks = d.blocks ∧ Whole (indirectBlock d dinode).2 := by
    rw [indirectBlock]
    split
    · next hz => exact ⟨rfl, fun hne ↦ absurd hz hne, rfl, hw.failed, hw.length⟩
    · exact ⟨rfl, fun _ ↦ rfl, rfl, hw⟩
  obtain ⟨hdirect, hind, hblocks, hw'⟩ := hblock
  rw [findBlock, dif_neg (Nat.not_lt.mpr hk)] at hfind
  split at hfind
  · dsimp only at hfind
    simp only [Option.some.injEq, Prod.mk.injEq] at hfind
    obtain ⟨-, rfl, rfl⟩ := hfind
    refine ⟨hdirect, hind, ?_⟩
    rw [indirectEntry, readSector_whole hw']
    dsimp only
    split
    · next hz =>
      have hw₁ : Whole { (indirectBlock d dinode).2 with
          freeBlock := (indirectBlock d dinode).2.freeBlock + 1 } := ⟨hw'.failed, hw'.length⟩
      rw [writeSector_whole hw₁]
      dsimp only
      rw [hblocks] at hz ⊢
      refine ⟨fun y hy ↦ Function.update_of_ne hy _ _, fun m hm ↦ ?_⟩
      rw [Function.update_self, getU32, getU32, putU32]
      refine congrArg UInt32.ofNat (getLe_putLe_disjoint _ _ ?_)
      have hne : m ≠ k - NUM_DIRECT_BLOCKS := by
        rintro rfl
        exact hm hz
      omega
    · exact ⟨fun y _ ↦ congrFun hblocks y, fun m _ ↦ by rw [hblocks]⟩
  · cases hfind

/-- Positions keep their blocks. -/
theorem Found.target_old (hn : Numbered d.blocks nodes d.freeBlock live order) (hw : Whole d)
    (hf : Found d nodes live order contents i k x dinode' d' order')
    (hfind : findBlock junk d (nodes i) k = some (x, dinode', d')) {q : Position} (hq : q ∈ order) :
    target d'.blocks (Function.update nodes i dinode') q = target d.blocks nodes q := by
  have hne := hn.ne_zero hq
  by_cases hk : k < NUM_DIRECT_BLOCKS
  · obtain ⟨hblocks, hind, hdirect⟩ := findBlock_direct hk hfind
    rw [hblocks]
    by_cases hqi : q.inum = i
    · subst hqi
      cases q with
      | data j m =>
        change blockAt _ (Function.update nodes j _ j) m = blockAt _ (nodes j) m
        change blockAt _ (nodes j) m ≠ 0 at hne
        rw [Function.update_self]
        unfold blockAt at hne ⊢
        split
        · next hm =>
          rw [dif_pos hm] at hne
          exact hdirect _ hne
        · rw [hind]
          rfl
      | indirect j =>
        change (Function.update nodes j _ j).indirectBlock = (nodes j).indirectBlock
        rw [Function.update_self]
        exact hind
    · exact target_update_of_ne hqi
  · have hk := Nat.not_lt.mp hk
    obtain ⟨hdirect, hind, hother, hentry⟩ := findBlock_indirect hw hk hfind
    have hmine : .indirect i ∈ order' := (hf.mem_iff _).mpr (.inr (.inr ⟨rfl, hk⟩))
    by_cases hqi : q.inum = i
    · subst hqi
      cases q with
      | data j m =>
        change blockAt _ (Function.update nodes j _ j) m = blockAt _ (nodes j) m
        change blockAt _ (nodes j) m ≠ 0 at hne
        change dinode'.directBlocks = (nodes j).directBlocks at hdirect
        rw [Function.update_self]
        unfold blockAt at hne ⊢
        split
        · rw [hdirect]
        · next hm =>
          rw [dif_neg hm] at hne
          have hsame := hind (hn.ne_zero (hn.rooted _ hq (Nat.not_lt.mp hm)))
          change dinode'.indirectBlock = (nodes j).indirectBlock at hsame
          rw [hsame] at hentry ⊢
          exact hentry _ hne
      | indirect j =>
        change (Function.update nodes j _ j).indirectBlock = (nodes j).indirectBlock
        rw [Function.update_self]
        exact hind hne
    · rw [target_update_of_ne hqi]
      cases q with
      | data j m =>
        have hji : j ≠ i := hqi
        change blockAt _ (nodes j) m = blockAt _ (nodes j) m
        unfold blockAt
        split
        · rfl
        · next hm =>
          -- the indirect block of another inode
          have hroot := hn.rooted _ hq (Nat.not_lt.mp hm)
          have hapart : (nodes j).indirectBlock ≠ dinode'.indirectBlock := by
            intro he
            have htargets : target d'.blocks (Function.update nodes i dinode') (.indirect j) =
                target d'.blocks (Function.update nodes i dinode') (.indirect i) := by
              change (Function.update nodes i dinode' j).indirectBlock =
                (Function.update nodes i dinode' i).indirectBlock
              rw [Function.update_of_ne hji, Function.update_self, he]
            injection hf.numbered.inj ((hf.mem_iff _).mpr (.inl hroot)) hmine htargets with hj
            exact hji hj
          rw [hother _ hapart]
      | indirect j => rfl

/-- The blocks of positions keep their bytes, and a new one is blank. -/
theorem Found.block_old (hw : Whole d)
    (hf : Found d nodes live order contents i k x dinode' d' order')
    (hfind : findBlock junk d (nodes i) k = some (x, dinode', d')) {j : UInt32} {m : Nat}
    (hq : .data j m ∈ order') :
    d'.blocks (target d'.blocks (Function.update nodes i dinode') (.data j m)) =
      d.blocks (target d'.blocks (Function.update nodes i dinode') (.data j m)) := by
  by_cases hk : k < NUM_DIRECT_BLOCKS
  · rw [(findBlock_direct hk hfind).1]
  · have hk := Nat.not_lt.mp hk
    refine (findBlock_indirect hw hk hfind).2.2.1 _ fun he ↦ ?_
    have hmine : .indirect i ∈ order' := (hf.mem_iff _).mpr (.inr (.inr ⟨rfl, hk⟩))
    have htargets : target d'.blocks (Function.update nodes i dinode') (.data j m) =
        target d'.blocks (Function.update nodes i dinode') (.indirect i) := by
      change _ = (Function.update nodes i dinode' i).indirectBlock
      rw [Function.update_self, he]
    cases hf.numbered.inj hq hmine htargets

theorem Blank.found (h : Blank d.blocks nodes order contents)
    (hn : Numbered d.blocks nodes d.freeBlock live order) (hw : Whole d)
    (hf : Found d nodes live order contents i k x dinode' d' order')
    (hfind : findBlock junk d (nodes i) k = some (x, dinode', d')) :
    Blank d'.blocks (Function.update nodes i dinode') order' contents := by
  intro j m hq o ho hle
  rw [hf.block_old hw hfind hq]
  by_cases hold : .data j m ∈ order
  · rw [hf.target_old hn hw hfind hold]
    exact h j m hold o ho hle
  · -- a block that is used for the first time
    have hge := (hf.numbered.range hq).1
    by_cases hlt : target d'.blocks (Function.update nodes i dinode') (.data j m) < d.freeBlock
    · obtain ⟨p, hp, he⟩ := hn.all hge hlt
      rw [← hf.target_old hn hw hfind hp] at he
      rw [hf.numbered.inj ((hf.mem_iff _).mpr (.inl hp)) hq he] at hp
      exact absurd hp hold
    · rw [hn.fresh _ (UInt32.not_lt.mp hlt), byteAt_zero]

theorem length_le_appended {c : List UInt8} {j : UInt32} :
    (contents j).length ≤ (Function.update contents i (contents i ++ c) j).length := by
  by_cases hj : j = i
  · rw [hj, Function.update_self, List.length_append]
    exact Nat.le_add_right _ _
  · rw [Function.update_of_ne hj]

/-- Bytes are added to the last block of a file. -/
theorem Blank.append (h : Blank d.blocks nodes order contents)
    (hn : Numbered d.blocks nodes d.freeBlock live order) {c : List UInt8}
    {blocks : UInt32 → Block}
    (hk : .data i ((contents i).length / BLOCK_SIZE) ∈ order)
    (hx : x = target d.blocks nodes (.data i ((contents i).length / BLOCK_SIZE)))
    (hb : blocks = Function.update d.blocks x
      (putBytes (d.blocks x) ((contents i).length % BLOCK_SIZE) c.length fun m ↦ c.getD m 0)) :
    Blank blocks nodes order (Function.update contents i (contents i ++ c)) := by
  have hind : ∀ i', .indirect i' ∈ order →
      blocks (nodes i').indirectBlock = d.blocks (nodes i').indirectBlock := by
    intro i' hi'
    have hne : (nodes i').indirectBlock ≠ x := fun he ↦ by
      cases hn.inj hi' hk (he.trans hx)
    rw [hb, Function.update_of_ne hne]
  intro j m hq o ho hle
  rw [target_of_blocks (hn.rooted _ hq) hind, hb]
  by_cases he : Position.data j m = .data i ((contents i).length / BLOCK_SIZE)
  · injection he with hj hm
    subst hj
    rw [Function.update_self, List.length_append] at hle
    rw [hm, ← hx, Function.update_self, byteAt_putBytes _ _ _ _ _ ho, if_neg, hx]
    · refine h j _ hk o ho ?_
      rw [← hm]
      omega
    · rw [hm] at hle
      change _ ≤ (contents j).length / 1024 * 1024 + o at hle
      change ¬ ((contents j).length % 1024 ≤ o ∧ o < (contents j).length % 1024 + _)
      omega
  · rw [Function.update_of_ne fun hx' ↦ he (hn.inj hq hk (hx'.trans hx))]
    exact h j m hq o ho (Nat.le_trans length_le_appended hle)

/-! ### The loop of `appendInode` -/

/-- Longer files have more blocks. -/
theorem Shaped.mono {blocks blocks' : UInt32 → Block} {free free' : UInt32}
    {live' : UInt32 → Prop} (h : Shaped live order contents) (h' : Shaped live' order' contents')
    (hn : Numbered blocks nodes free live order) (hn' : Numbered blocks' nodes' free' live' order')
    (hl : ∀ i, live i → live' i ∧ (contents i).length ≤ (contents' i).length) : free ≤ free' := by
  have hsub : order ⊆ order' := by
    intro p hp
    cases p with
    | data i k =>
      have hi := (hn.within _ hp).1
      obtain ⟨hi', hle⟩ := hl i hi
      exact ((h' i hi').1 k).mpr (Nat.lt_of_lt_of_le (((h i hi).1 k).mp hp) hle)
    | indirect i =>
      have hi : live i := hn.within _ hp
      obtain ⟨hi', hle⟩ := hl i hi
      exact (h' i hi').2.mpr (Nat.lt_of_lt_of_le ((h i hi).2.mp hp) hle)
  have hlen := (List.subperm_of_subset hn.nodup hsub).length_le
  have hcount := hn.count
  have hcount' := hn'.count
  rw [UInt32.le_iff_toNat_le]
  omega

/-- The state of the loop, with blank bytes behind the ends of the files. -/
structure Neat (d : Image) (nodes : UInt32 → DiskInode) (live : UInt32 → Prop)
    (order : List Position) (contents : UInt32 → List UInt8) (i offset : UInt32) : Prop where
  loop : Loop d nodes live order contents i offset
  blank : Blank d.blocks nodes order contents

/-- The bytes that a round of the loop appends. -/
def chunk (l : Nat) (p : List UInt8) : List UInt8 :=
  p.take (min p.length ((l / BLOCK_SIZE + 1) * BLOCK_SIZE - l))

/-- A round of the loop finds a block and fills it. -/
theorem Neat.round (junk : Junk) (hlive : ∀ i, live i → i.toNat < NUM_INODES) (hi : live i)
    (h : Neat d nodes live order contents i offset) (hp : p ≠ [])
    (hmax : (contents i).length + p.length ≤ MAX_FILE * BLOCK_SIZE) :
    ∃ x dinode d₁ order₁,
      findBlock junk d (nodes i) ((contents i).length / BLOCK_SIZE) = some (x, dinode, d₁) ∧
        Found d nodes live order contents i ((contents i).length / BLOCK_SIZE) x dinode d₁ order₁ ∧
        Behind d (fill junk d₁ x ((contents i).length % BLOCK_SIZE)
          (chunk (contents i).length p)) ∧
        Neat (fill junk d₁ x ((contents i).length % BLOCK_SIZE) (chunk (contents i).length p))
          (Function.update nodes i dinode) live order₁
          (Function.update contents i (contents i ++ chunk (contents i).length p)) i
          (offset + UInt32.ofNat (chunk (contents i).length p).length) := by
  have hpos := List.length_pos_of_ne_nil hp
  have hmax' : (contents i).length + p.length ≤ 274432 := hmax
  have hlen : (chunk (contents i).length p).length =
      min p.length (((contents i).length / 1024 + 1) * 1024 - (contents i).length) := by
    rw [chunk, List.length_take]
    exact Nat.min_eq_left (Nat.min_le_left _ _)
  set c := chunk (contents i).length p
  have hk : (contents i).length / BLOCK_SIZE < MAX_FILE := by
    change (contents i).length / 1024 < 268
    omega
  obtain ⟨hl, hb⟩ := h
  obtain ⟨x, dinode, d₁, order₁, hfind, hf⟩ :=
    findBlock_found junk hl.whole hlive hl.numbered hl.holds hi hk
  have hw₁ := hf.behind.whole hl.whole
  have hmem := (hf.mem_iff (.data i ((contents i).length / BLOCK_SIZE))).mpr (.inr (.inl rfl))
  have hfit : (contents i).length % BLOCK_SIZE + c.length ≤ BLOCK_SIZE := by
    change (contents i).length % 1024 + c.length ≤ 1024
    omega
  obtain ⟨hn₂, hh₂⟩ := Holds.append hf.numbered hf.holds hmem hfit hf.block rfl
  have hblank := (hb.found hl.numbered hl.whole hf hfind).append (c := c) hf.numbered hmem
    hf.block rfl
  refine ⟨x, dinode, d₁, order₁, hfind, hf, ?_, ?_, ?_⟩
  · rw [fill_whole hw₁]
    refine hf.behind.trans ⟨rfl, fun b hb ↦ Function.update_of_ne ?_ _ _⟩
    rintro rfl
    have hge := (hf.numbered.range hmem).1
    rw [← hf.block] at hge
    omega
  · rw [fill_whole hw₁]
    refine ⟨⟨hw₁.failed, hw₁.length⟩, hn₂, hh₂, hl.shaped.append (by omega) hfit hf.mem_iff, ?_⟩
    rw [UInt32.toNat_add, UInt32.toNat_ofNat', hl.offset, Function.update_self, List.length_append]
    omega
  · rw [fill_whole hw₁]
    exact hblank

/-- The loop does the same on the image that there is. -/
theorem Neat.appendFrom (junk : Junk) (hlive : ∀ i, live i → i.toNat < NUM_INODES) (hi : live i)
    (n : Nat) (h : Neat d nodes live order contents i offset) (hp : p.length ≤ n)
    (hmax : (contents i).length + p.length ≤ MAX_FILE * BLOCK_SIZE) :
    ∃ dinode offset' d' order',
      appendFrom junk n d (nodes i) offset p = some (dinode, offset', d') ∧ Behind d d' ∧
        Neat d' (Function.update nodes i dinode) live order'
          (Function.update contents i (contents i ++ p)) i offset' ∧
        (d'.freeBlock.toNat ≤ 1025 →
          Disk.appendFrom junk n d.short (nodes i) offset p = some (dinode, offset', d'.short)) := by
  induction n generalizing d nodes order contents offset p with
  | zero =>
    have hnil : p = [] := List.eq_nil_of_length_eq_zero (Nat.le_zero.mp hp)
    refine ⟨nodes i, offset, d, order, rfl, .refl d, ?_, fun _ ↦ rfl⟩
    rwa [hnil, List.append_nil, Function.update_eq_self, Function.update_eq_self]
  | succ n ih =>
    unfold Disk.appendFrom
    split
    · next hnil =>
      refine ⟨nodes i, offset, d, order, rfl, .refl d, ?_, fun _ ↦ rfl⟩
      rwa [hnil, List.append_nil, Function.update_eq_self, Function.update_eq_self]
    · next hnil =>
      have hmod : (contents i).length - (contents i).length / BLOCK_SIZE * BLOCK_SIZE =
          (contents i).length % BLOCK_SIZE := by
        change _ - _ / 1024 * 1024 = _ % 1024
        omega
      obtain ⟨x, dinode, d₁, order₁, hfind, hf, hbehind, h₁⟩ := h.round junk hlive hi hnil hmax
      dsimp only
      rw [h.loop.offset, hfind, hmod]
      dsimp only
      have hlen : (chunk (contents i).length p).length = min p.length
          (((contents i).length / BLOCK_SIZE + 1) * BLOCK_SIZE - (contents i).length) := by
        rw [chunk, List.length_take]
        exact Nat.min_eq_left (Nat.min_le_left _ _)
      have hpos := List.length_pos_of_ne_nil hnil
      have hlen' : (chunk (contents i).length p).length = min p.length
          (((contents i).length / 1024 + 1) * 1024 - (contents i).length) := hlen
      rw [← hlen]
      have hchunk : p.take (chunk (contents i).length p).length = chunk (contents i).length p := by
        rw [hlen, chunk]
      rw [hchunk]
      set c := chunk (contents i).length p
      have hall : c ++ p.drop c.length = p := by
        rw [← hchunk, List.length_take, Nat.min_eq_left (by omega), List.take_append_drop]
      have hself : (Function.update contents i (contents i ++ c) i).length =
          (contents i).length + c.length := by
        rw [Function.update_self, List.length_append]
      obtain ⟨dinode₂, offset₂, d₂, order₂, he, hb, h₂, hshort⟩ :=
        ih h₁ (p := p.drop c.length) (by rw [List.length_drop]; omega) (by
          rw [hself, List.length_drop]
          change _ ≤ 274432
          have hmax' : (contents i).length + p.length ≤ 274432 := hmax
          omega)
      rw [Function.update_self] at he hshort
      refine ⟨dinode₂, offset₂, d₂, order₂, he, hbehind.trans hb, ?_, fun hle ↦ ?_⟩
      · rw [Function.update_idem, Function.update_idem, Function.update_self, List.append_assoc,
          hall] at h₂
        exact h₂
      · -- the sectors are in front of the next free block, which is on the image
        have hw₁ := hf.behind.whole h.loop.whole
        have hfill : (fill junk d₁ x ((contents i).length % BLOCK_SIZE) c).freeBlock =
            d₁.freeBlock := by rw [fill_whole hw₁]
        have hmono := h₁.loop.shaped.mono h₂.loop.shaped h₁.loop.numbered h₂.loop.numbered
          fun j hj ↦ ⟨hj, length_le_appended⟩
        rw [hfill, UInt32.le_iff_toNat_le] at hmono
        have hsector : ∀ q ∈ order₁,
            (target d₁.blocks (Function.update nodes i dinode) q).toNat < 1025 := by
          intro q hq
          have hlt := UInt32.lt_iff_toNat_lt.mp (hf.numbered.range hq).2
          omega
        rw [findBlock_short h.loop.whole hfind fun hk ↦ ?_]
        · dsimp only
          rw [fill_short hw₁]
          · exact hshort hle
          · rw [hf.block]
            exact hsector _ ((hf.mem_iff _).mpr (.inr (.inl rfl)))
        · have hind := hsector _ ((hf.mem_iff _).mpr (.inr (.inr ⟨rfl, hk⟩)))
          change (Function.update nodes i dinode i).indirectBlock.toNat < 1025 at hind
          rwa [Function.update_self] at hind

/-! ### The calls -/

/-- What holds after every call of a build that `make_disk` does. -/
structure Build.Tidy (b : Build) (order : List Position) : Prop where
  kept : b.Kept order
  blank : Blank b.image.blocks (inodeAt b.image.blocks) order b.contents
  idle : ∀ i : UInt32, i.toNat < NUM_INODES → ¬ Live b.image i →
    inodeAt b.image.blocks i = ⟨0, 0, 0, 0, 0, fun _ ↦ 0, 0⟩
  front : ∀ x : UInt32, x.toNat < sb.inodeStart.toNat →
    b.image.blocks x = if x = 1 then superBlockBytes else Block.zero

/-- From `b` to `b'` by `f`, which does the same on the image that there is. -/
structure Build.Carries (b b' : Build) (f : Image → Option Image) : Prop where
  runs : f b.image = some b'.image
  short : b'.image.freeBlock.toNat ≤ 1025 → f b.image.short = some b'.image.short
  le : b.image.freeBlock ≤ b'.image.freeBlock

theorem Build.Carries.bind {b b' b'' : Build} {f g : Image → Option Image} (h : b.Carries b' f)
    (h' : b'.Carries b'' g) : b.Carries b'' fun d ↦ (f d).bind g := by
  refine ⟨?_, fun hle ↦ ?_, UInt32.le_trans h.le h'.le⟩
  · rw [h.runs, Option.bind_some, h'.runs]
  · have hle' := UInt32.le_iff_toNat_le.mp h'.le
    rw [h.short (by omega), Option.bind_some, h'.short hle]

/-- An inode is stored. -/
theorem Blank.stored {blocks : UInt32 → Block} {nodes nodes' : UInt32 → DiskInode}
    {free x : UInt32} (h : Blank blocks nodes order contents)
    (hn : Numbered blocks nodes free live order)
    (hs : ∀ i, live i → SameBlocks (nodes i) (nodes' i)) (hx : x.toNat < numMeta) (buf : Block) :
    Blank (Function.update blocks x buf) nodes' order contents := by
  have hne : ∀ p ∈ order, target blocks nodes p ≠ x := fun p hp he ↦ by
    have hge := (hn.range hp).1
    rw [he] at hge
    omega
  intro i k hq o ho hle
  have hind : ∀ i, .indirect i ∈ order →
      Function.update blocks x buf (nodes i).indirectBlock = blocks (nodes i).indirectBlock :=
    fun i hi ↦ Function.update_of_ne (hne _ hi) _ _
  rw [target_of_same (hn.within _ hq) hs, target_of_blocks (hn.rooted _ hq) hind,
    Function.update_of_ne (hne _ hq)]
  exact h i k hq o ho hle

theorem Blank.congr {blocks : UInt32 → Block} {nodes nodes' : UInt32 → DiskInode}
    (h : Blank blocks nodes order contents)
    (hs : ∀ i k, .data i k ∈ order → nodes' i = nodes i ∧ contents' i = contents i) :
    Blank blocks nodes' order contents' := by
  intro i k hq o ho hle
  obtain ⟨hnode, hcontent⟩ := hs i k hq
  have htarget : target blocks nodes' (.data i k) = target blocks nodes (.data i k) := by
    change blockAt _ _ _ = blockAt _ _ _
    rw [hnode]
  rw [htarget]
  exact h i k hq o ho (hcontent ▸ hle)

/-- The inodes after one of them was stored, where the others are as before. -/
theorem inodeAt_stored (hi : i.toNat < NUM_INODES)
    (hblocks : ∀ b : UInt32, b.toNat < numMeta → d'.blocks b = d.blocks b) (n : DiskInode)
    (j : UInt32) (hj : j.toNat < NUM_INODES) :
    inodeAt (Function.update d'.blocks (iblock i sb)
      (n.store (dinodeAt i) (d'.blocks (iblock i sb)))) j =
        Function.update (inodeAt d.blocks) i n j := by
  rw [inodeAt_store hi hj]
  by_cases hji : j = i
  · rw [hji, Function.update_self, Function.update_self]
  · rw [Function.update_of_ne hji, Function.update_of_ne hji, inodeAt, inodeAt,
      hblocks _ (iblock_lt hj)]

theorem appendInode_of {n n' : DiskInode} {o : UInt32} (hr : readInode junk d i = (n, d))
    (he : appendFrom junk p.length d n n.size p = some (n', o, d')) :
    appendInode junk d i p = some (writeInode junk d' i { n' with size := o }) := by
  rw [appendInode, hr]
  dsimp only
  rw [he]

theorem readInode_short (hf : d.failed = false) (hi : i.toNat < NUM_INODES) :
    readInode junk d.short i = (inodeAt d.blocks i, d.short) := by
  have hx : (iblock i sb).toNat < 1025 := Nat.lt_trans (iblock_lt hi) (by decide)
  rw [readInode, readSector_short hf hx]
  rfl

/-- Inodes are behind the superblock and the log. -/
theorem ne_iblock (hi : i.toNat < NUM_INODES) (hx : x.toNat < sb.inodeStart.toNat) :
    x ≠ iblock i sb := by
  rintro rfl
  have hx' : (iblock i sb).toNat < 32 := hx
  rw [iblock_toNat hi] at hx'
  omega

/-- `allocateInode`. -/
theorem allocateInode_tidy {b : Build} (junk : Junk) (h : b.Tidy order)
    (hlt : b.image.freeInode.toNat < NUM_INODES) (type : UInt16) :
    ∃ b' : Build, b'.Tidy order ∧
      allocateInode junk b.image type = (b.image.freeInode, b'.image) ∧
      allocateInode junk b.image.short type = (b.image.freeInode, b'.image.short) ∧
      b'.contents = Function.update b.contents b.image.freeInode [] ∧
      b'.image.freeInode = b.image.freeInode + 1 ∧ b'.image.freeBlock = b.image.freeBlock := by
  obtain ⟨b', hstep, hkept⟩ : ∃ b', b.step junk (.allocateInode type) = some b' ∧
      b'.Kept order := allocateInode_kept h.kept hlt
  rw [Build.step, allocateInode, Option.some.injEq] at hstep
  subst hstep
  set i := b.image.freeInode
  set n : DiskInode := ⟨type, 0, 0, 1, 0, fun _ ↦ 0, 0⟩
  have hw : Whole { b.image with freeInode := i + 1 } := ⟨h.kept.whole.failed, h.kept.whole.length⟩
  have hwrite : writeInode junk { b.image with freeInode := i + 1 } i n = _ :=
    writeInode_whole hw i n
  have hnode : ∀ j : UInt32, j.toNat < NUM_INODES →
      inodeAt (Function.update b.image.blocks (iblock i sb)
        (n.store (dinodeAt i) (b.image.blocks (iblock i sb)))) j =
          Function.update (inodeAt b.image.blocks) i n j := fun j hj ↦ inodeAt_store hlt hj n
  have hnot : ¬ Live b.image i := fun hl ↦ absurd hl.2 (UInt32.lt_irrefl _)
  have hne : ∀ j, Live b.image j → j ≠ i := by
    rintro j hj rfl
    exact hnot hj
  refine ⟨_, ⟨hkept, ?_, ?_, fun x hx ↦ ?_⟩, rfl, ?_, rfl, ?_, ?_⟩
  · have hsame : ∀ j, Live b.image j → SameBlocks (inodeAt b.image.blocks j)
        (Function.update (inodeAt b.image.blocks) i n j) := fun j hj ↦ by
      rw [Function.update_of_ne (hne j hj)]
      exact ⟨rfl, rfl⟩
    have hblank := h.blank.stored h.kept.numbered hsame (iblock_lt hlt)
      (n.store (dinodeAt i) (b.image.blocks (iblock i sb)))
    dsimp only
    rw [hwrite]
    refine hblank.congr fun j k hq ↦ ?_
    have hj := (h.kept.numbered.within _ hq).1
    exact ⟨hnode j (h.kept.live_lt hj), Function.update_of_ne (hne j hj) _ _⟩
  · intro j hj hidle
    have hgrow : Live b.image j ∨ j = i → 1 ≤ j.toNat ∧ j < i + 1 := by
      have hge : 1 ≤ i.toNat := h.kept.inodes.1
      have hone : (i + 1).toNat = i.toNat + 1 := by
        have hlt' : i.toNat < 200 := hlt
        rw [UInt32.toNat_add]
        change (i.toNat + 1) % 4294967296 = _
        omega
      change (1 ≤ j.toNat ∧ j < i) ∨ j = i → _
      rw [UInt32.lt_iff_toNat_lt, UInt32.lt_iff_toNat_lt, hone, ← UInt32.toNat_inj]
      omega
    dsimp only at hidle ⊢
    rw [hwrite] at hidle ⊢
    rw [hnode j hj, Function.update_of_ne fun he ↦ hidle (hgrow (.inr he))]
    exact h.idle j hj fun hl ↦ hidle (hgrow (.inl hl))
  · dsimp only
    rw [hwrite]
    exact (Function.update_of_ne (ne_iblock hlt hx) _ _).trans (h.front x hx)
  · rw [allocateInode]
    exact congrArg (Prod.mk i) (writeInode_short hw hlt n)
  · dsimp only
    rw [hwrite]
  · dsimp only
    rw [hwrite]

/-- `appendInode`. -/
theorem appendInode_tidy {b : Build} (junk : Junk) (h : b.Tidy order)
    (hf : b.Fits (.appendInode i p)) :
    ∃ b' order', b'.Tidy order' ∧ b.Carries b' (fun d ↦ appendInode junk d i p) ∧
      b'.contents = Function.update b.contents i (b.contents i ++ p) ∧
      b'.image.freeInode = b.image.freeInode := by
  obtain ⟨b', order', hstep, hkept⟩ : ∃ b' order',
      b.step junk (.appendInode i p) = some b' ∧ b'.Kept order' := appendInode_kept h.kept hf
  obtain ⟨hi, hmax⟩ := hf
  have hlive : ∀ j, Live b.image j → j.toNat < NUM_INODES := fun j hj ↦ h.kept.live_lt hj
  have hlt := hlive i hi
  have hneat : Neat b.image (inodeAt b.image.blocks) (Live b.image) order b.contents i
      (inodeAt b.image.blocks i).size :=
    ⟨⟨h.kept.whole, h.kept.numbered, h.kept.holds, h.kept.shaped, (h.kept.size i hi).1⟩, h.blank⟩
  obtain ⟨n, offset, d, order₁, he, hb, hneat', hshort⟩ :=
    hneat.appendFrom junk hlive hi p.length (Nat.le_refl _) hmax
  have hw := hb.whole h.kept.whole
  have hread : readInode junk b.image i = (inodeAt b.image.blocks i, b.image) := by
    rw [readInode, readSector_whole h.kept.whole]
    rfl
  have hresult := appendInode_of hread he
  rw [Build.step, hresult, Option.map_some, Option.some.injEq] at hstep
  subst hstep
  have hwrite : writeInode junk d i { n with size := offset } = _ := writeInode_whole hw i _
  -- the inodes on the image
  have hnode := inodeAt_stored hlt hb.blocks { n with size := offset }
  have hsame : ∀ j, Live b.image j → SameBlocks (Function.update (inodeAt b.image.blocks) i n j)
      (inodeAt (writeInode junk d i { n with size := offset }).blocks j) := by
    intro j hj
    rw [hwrite, hnode j (hlive j hj)]
    by_cases hji : j = i
    · rw [hji, Function.update_self, Function.update_self]
      exact ⟨rfl, rfl⟩
    · rw [Function.update_of_ne hji, Function.update_of_ne hji]
      exact ⟨rfl, rfl⟩
  have hinode : (writeInode junk d i { n with size := offset }).freeInode = b.image.freeInode := by
    rw [hwrite, hb.frame]
  have hlives : Live (writeInode junk d i { n with size := offset }) = Live b.image :=
    funext fun j ↦ by rw [Live, hinode, Live]
  refine ⟨_, order', ⟨hkept, ?_, ?_, fun x hx ↦ ?_⟩, ⟨hresult, fun hle ↦ ?_, ?_⟩, rfl, hinode⟩
  · have hblank := hneat'.blank.stored hneat'.loop.numbered hsame (iblock_lt hlt)
      (DiskInode.store { n with size := offset } (dinodeAt i) (d.blocks (iblock i sb)))
    rw [hwrite]
    rw [hwrite] at hblank
    intro j k hq
    refine hblank j k ?_
    have hj : Live b.image j := hlives ▸ (hkept.numbered.within _ hq).1
    refine ((hneat'.loop.shaped j hj).1 k).mpr (((hkept.shaped j ?_).1 k).mp hq)
    exact (hkept.numbered.within _ hq).1
  · intro j hj hnot
    dsimp only at hnot ⊢
    rw [hlives] at hnot
    rw [hwrite, hnode j hj, Function.update_of_ne, h.idle j hj hnot]
    rintro rfl
    exact hnot hi
  · dsimp only
    rw [hwrite]
    refine (Function.update_of_ne (ne_iblock hlt hx) _ _).trans ?_
    rw [hb.blocks x (Nat.lt_trans hx (by decide)), h.front x hx]
  · have hle' : d.freeBlock.toNat ≤ 1025 := by
      dsimp only at hle
      rwa [hwrite] at hle
    rw [appendInode_of (readInode_short h.kept.whole.failed hlt) (hshort hle'),
      writeInode_short hw hlt]
  · exact h.kept.shaped.mono hkept.shaped h.kept.numbered hkept.numbered fun j hj ↦
      ⟨hlives ▸ hj, length_le_appended⟩

end
end Orfos.Disk
