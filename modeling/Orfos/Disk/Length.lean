import Orfos.Disk.Files

/-!
# The length of an image

The zero-fill loop of `make_disk` goes from one sector to the next with the stride of bytes, so it
writes the sectors 0 and 1024 only. Every later write is to a sector that was read before, and a
read behind the end stops the stream. The image always has 1025 blocks, where the superblock says
2000.
-/

namespace Orfos.Disk

open Orfos.Base Orfos.Fs

/-- What the kernel assumes of an image: its blocks exist, they were all read when it was built, and
the files have no holes. -/
structure Assumed (d : Image) : Prop where
  complete : sb.size.toNat ≤ d.length
  reads : d.failed = false
  filled : ∀ i, Live d i → ∀ k, k * BLOCK_SIZE < (inodeAt d.blocks i).size.toNat →
    blockAt d.blocks (inodeAt d.blocks i) k ≠ 0

section

variable {junk : Junk} {d d' : Image} {x : UInt32}

theorem length_readSector : (readSector junk d x).2.length = d.length := by
  unfold readSector
  split
  · rfl
  · rfl

/-- A write to a sector that was read. -/
theorem length_read_write (junk : Junk) (h : d'.length = (readSector junk d x).2.length)
    (hf : d'.failed = (readSector junk d x).2.failed) (buf : Block) :
    (writeSector d' x buf).length = d.length := by
  rw [length_readSector] at h
  unfold writeSector
  split
  · exact h
  · next hok =>
    rw [hf] at hok
    have hx : x.toNat < d.length := by
      unfold readSector at hok
      split at hok
      · next hlt => exact hlt.2
      · exact absurd rfl hok
    change max d'.length (x.toNat + 1) = d.length
    omega

theorem length_writeInode {i : UInt32} {n : DiskInode} :
    (writeInode junk d i n).length = d.length := length_read_write junk rfl rfl _

theorem length_fill {o : Nat} {p : List UInt8} : (fill junk d x o p).length = d.length :=
  length_read_write junk rfl rfl _

theorem length_directBlock {n : DiskInode} {k : Fin NUM_DIRECT_BLOCKS} :
    (directBlock d n k).2.2.length = d.length := by
  unfold directBlock
  split
  · rfl
  · rfl

theorem length_indirectBlock {n : DiskInode} : (indirectBlock d n).2.length = d.length := by
  unfold indirectBlock
  split
  · rfl
  · rfl

theorem length_indirectEntry {k : Nat} : (indirectEntry junk d x k).2.length = d.length := by
  unfold indirectEntry
  dsimp only
  split
  · refine length_read_write junk ?_ ?_ _
    · rfl
    · rfl
  · exact length_readSector

theorem length_findBlock {n n' : DiskInode} {k : Nat}
    (h : findBlock junk d n k = some (x, n', d')) : d'.length = d.length := by
  unfold findBlock at h
  split at h
  · have hd := congrArg (fun r ↦ r.2.2.length) (Option.some.inj h)
    exact hd.symm.trans length_directBlock
  · split at h
    · simp only [Option.some.injEq, Prod.mk.injEq] at h
      obtain ⟨-, -, rfl⟩ := h
      rw [length_indirectEntry, length_indirectBlock]
    · cases h

theorem length_appendFrom {m : Nat} {n n' : DiskInode} {offset offset' : UInt32} {p : List UInt8}
    (h : appendFrom junk m d n offset p = some (n', offset', d')) : d'.length = d.length := by
  induction m generalizing d n offset p with
  | zero =>
    cases h
    rfl
  | succ m ih =>
    unfold appendFrom at h
    split at h
    · cases h
      rfl
    · dsimp only at h
      split at h
      · cases h
      · next hfind => rw [ih h, length_fill, length_findBlock hfind]

theorem length_appendInode {i : UInt32} {p : List UInt8}
    (h : appendInode junk d i p = some d') : d'.length = d.length := by
  unfold appendInode at h
  dsimp only at h
  split at h
  · cases h
  · next happ =>
    cases h
    rw [length_writeInode, length_appendFrom happ]
    exact length_readSector

theorem length_appendChunks {i : UInt32} {ps : List (List UInt8)}
    (h : appendChunks junk i d ps = some d') : d'.length = d.length := by
  induction ps generalizing d with
  | nil =>
    cases h
    rfl
  | cons p ps ih =>
    obtain ⟨d₁, h₁, h⟩ := Option.bind_eq_some_iff.mp h
    rw [ih h, length_appendInode h₁]

theorem length_addFiles {root : UInt32} {fs : List Source}
    (h : addFiles junk root d fs = some d') : d'.length = d.length := by
  induction fs generalizing d with
  | nil =>
    cases h
    rfl
  | cons f fs ih =>
    obtain ⟨d₁, h₁, h⟩ := Option.bind_eq_some_iff.mp h
    obtain ⟨d₂, h₂, h⟩ := Option.bind_eq_some_iff.mp h
    rw [ih h, length_appendChunks h₂, length_appendInode h₁]
    exact length_writeInode

theorem length_finish {root : UInt32} (hd : d.length = 1025)
    (h : finish junk root d = some d') : d'.length = 1025 := by
  unfold finish allocateBlock at h
  dsimp only at h
  split at h
  · rw [← Option.some.inj h]
    unfold writeSector
    split
    · rw [length_writeInode]
      exact length_readSector.trans hd
    · change max (writeInode _ _ _ _).length 46 = 1025
      rw [length_writeInode]
      have hread : (readInode junk d root).2.length = 1025 := length_readSector.trans hd
      omega
  · cases h

/-- The zero-fill loop writes two sectors. -/
theorem length_zeroFrom : (zeroFrom FS_SIZE 0 opened).length = 1025 := by decide +kernel

theorem length_format : format.length = 1025 := by
  unfold format writeSector
  split
  · exact length_zeroFrom
  · change max (zeroFrom FS_SIZE 0 opened).length 2 = 1025
    rw [length_zeroFrom]
    rfl

theorem length_populate {files : List Source} (hd : d.length = 1025)
    (h : populate junk files d = some d') : d'.length = 1025 := by
  obtain ⟨d₁, h₁, h⟩ := Option.bind_eq_some_iff.mp h
  obtain ⟨d₂, h₂, h⟩ := Option.bind_eq_some_iff.mp h
  obtain ⟨d₃, h₃, h⟩ := Option.bind_eq_some_iff.mp h
  refine length_finish ?_ h
  rw [length_addFiles h₃, length_appendInode h₂, length_appendInode h₁]
  exact length_writeInode.trans hd

/-- Every image has 1025 blocks. -/
theorem length_make_disk {files : List Source} (h : make_disk junk files = some d) :
    d.length = 1025 := length_populate length_format h

/-! ### An image without files -/

/-- An image with a short root directory, in inode 1 and at most one block. -/
structure Short (d : Image) (n : Nat) : Prop where
  failed : d.failed = false
  length : d.length = 1025
  size : (inodeAt d.blocks 1).size.toNat = n
  block : ((inodeAt d.blocks 1).directBlocks 0 = 0 ∧ d.freeBlock = 46) ∨
    ((inodeAt d.blocks 1).directBlocks 0 = 46 ∧ d.freeBlock = 47)

theorem iblock_one : (iblock 1 sb).toNat = 32 := by decide

theorem Short.readInode {n : Nat} (h : Short d n) :
    readInode junk d 1 = (inodeAt d.blocks 1, d) := by
  rw [Disk.readInode, readSector_of_lt h.failed (by rw [iblock_one, h.length]; decide)]
  rfl

/-- Inode 1 is stored. -/
theorem writeInode_one (junk : Junk) (hf : d.failed = false) (hl : d.length = 1025)
    (n : DiskInode) :
    (writeInode junk d 1 n).failed = false ∧ (writeInode junk d 1 n).length = 1025 ∧
      inodeAt (writeInode junk d 1 n).blocks 1 = n ∧
        (writeInode junk d 1 n).freeBlock = d.freeBlock := by
  have hlt : (iblock 1 sb).toNat < d.length := by
    rw [iblock_one, hl]
    decide
  rw [writeInode, readSector_of_lt hf hlt]
  dsimp only
  rw [writeSector_of_lt hf hlt]
  refine ⟨hf, hl, ?_, rfl⟩
  rw [inodeAt_store (by decide) (by decide), Function.update_self]

/-- A directory entry is appended. -/
theorem Short.append {n : Nat} (h : Short d n) {p : List UInt8} (hp : p.length = 16)
    (hn : n + 16 ≤ 1024) : ∃ d', appendInode junk d 1 p = some d' ∧ Short d' (n + 16) := by
  have hnil : p ≠ [] := by
    rintro rfl
    cases hp
  have hsize := h.size
  have hdiv : n / BLOCK_SIZE = 0 := by
    change n / 1024 = 0
    omega
  have hmin : min 16 (1024 - n) = 16 := by omega
  -- the block is 46, whether it is new or not
  obtain ⟨dinode, hfind, hat, hsame⟩ : ∃ dinode,
      findBlock junk d (inodeAt d.blocks 1) 0 = some (46, dinode, { d with freeBlock := 47 }) ∧
        dinode.directBlocks 0 = 46 ∧ dinode.size = (inodeAt d.blocks 1).size := by
    rw [findBlock, dif_pos (by decide)]
    change ∃ dinode, some (directBlock d _ 0) = _ ∧ _
    rcases h.block with ⟨hz, hfree⟩ | ⟨hz, hfree⟩
    · rw [directBlock, if_pos hz, hfree]
      exact ⟨_, rfl, Function.update_self 0 46 (inodeAt d.blocks 1).directBlocks, rfl⟩
    · rw [directBlock, if_neg (by rw [hz]; decide), hz, ← hfree]
      exact ⟨_, rfl, hz, rfl⟩
  have hf : Image.failed { d with freeBlock := 47 } = false := h.failed
  have hlt : (46 : UInt32).toNat < Image.length { d with freeBlock := 47 } := by
    change 46 < d.length
    rw [h.length]
    decide
  have hloop : ∃ d₁, appendFrom junk 16 d (inodeAt d.blocks 1) (inodeAt d.blocks 1).size p =
      some (dinode, (inodeAt d.blocks 1).size + UInt32.ofNat 16, d₁) ∧ d₁.failed = false ∧
        d₁.length = 1025 ∧ d₁.freeBlock = 47 := by
    unfold appendFrom
    rw [if_neg hnil]
    dsimp only
    rw [hsize, hdiv, hfind, hp]
    change ∃ d₁, appendFrom junk 15 _ _ (_ + UInt32.ofNat (min 16 (1024 - n)))
      (p.drop (min 16 (1024 - n))) = _ ∧ _
    rw [hmin, List.drop_eq_nil_of_le (by omega), fill, readSector_of_lt hf hlt]
    dsimp only
    rw [writeSector_of_lt hf hlt]
    exact ⟨_, rfl, h.failed, h.length, rfl⟩
  obtain ⟨d₁, happ, hf₁, hl₁, hfree₁⟩ := hloop
  obtain ⟨hf₂, hl₂, hinode, hfree₂⟩ := writeInode_one junk hf₁ hl₁
    { dinode with size := (inodeAt d.blocks 1).size + UInt32.ofNat 16 }
  refine ⟨_, ?_, hf₂, hl₂, ?_, .inr ⟨?_, hfree₂.trans hfree₁⟩⟩
  · rw [appendInode, h.readInode]
    dsimp only
    rw [hp, happ]
  · rw [hinode]
    change (_ + UInt32.ofNat 16).toNat = n + 16
    rw [UInt32.toNat_add, hsize, UInt32.toNat_ofNat']
    omega
  · rw [hinode]
    exact hat

/-- Without files an image is built. -/
theorem make_disk_nil (junk : Junk) : ∃ d, make_disk junk [] = some d := by
  have hformat : format.failed = false ∧ format.freeInode = 1 ∧ format.freeBlock = 46 := by
    decide +kernel
  obtain ⟨hf, hinode, hfree⟩ := hformat
  obtain ⟨hf₀, hl₀, hi₀, hfree₀⟩ := writeInode_one junk
    (d := { format with freeInode := format.freeInode + 1 }) hf length_format
    ⟨T_DIR, 0, 0, 1, 0, fun _ ↦ 0, 0⟩
  have hroot : allocateInode junk format T_DIR = (1, writeInode junk
      { format with freeInode := format.freeInode + 1 } 1 ⟨T_DIR, 0, 0, 1, 0, fun _ ↦ 0, 0⟩) := by
    rw [allocateInode, hinode]
  have h₀ : Short (writeInode junk { format with freeInode := format.freeInode + 1 } 1
      ⟨T_DIR, 0, 0, 1, 0, fun _ ↦ 0, 0⟩) 0 :=
    ⟨hf₀, hl₀, by rw [hi₀]; rfl, .inl ⟨by rw [hi₀], hfree₀.trans hfree⟩⟩
  obtain ⟨d₁, he₁, h₁⟩ := h₀.append (p := entry 1 [0x2e]) rfl (by decide)
  obtain ⟨d₂, he₂, h₂⟩ := h₁.append (p := entry 1 [0x2e, 0x2e]) rfl (by decide)
  rw [make_disk, populate, hroot]
  dsimp only
  rw [he₁, Option.bind_some, he₂, Option.bind_some, addFiles, Option.bind_some, finish,
    h₂.readInode]
  dsimp only
  have hfree₃ := (writeInode_one junk h₂.failed h₂.length { inodeAt d₂.blocks 1 with
    size := UInt32.ofNat (((inodeAt d₂.blocks 1).size.toNat / BLOCK_SIZE + 1) * BLOCK_SIZE) }).2.2.2
  rw [allocateBlock, hfree₃, if_pos]
  · exact ⟨_, rfl⟩
  · rcases h₂.block with ⟨-, hb⟩ | ⟨-, hb⟩
    · rw [hb]
      decide
    · rw [hb]
      decide

/-- `make_disk` never builds an image that the kernel can rely on. -/
theorem image_incomplete (junk : Junk) (files : List Source) :
    ¬ ∃ d, make_disk junk files = some d ∧ Assumed d := by
  rintro ⟨d, h, ha⟩
  have hlen := length_make_disk h
  have hcomplete : 2000 ≤ d.length := ha.complete
  omega

/-- The image without files ends at sector 1024. -/
theorem nil_incomplete : (∃ d, make_disk (fun _ ↦ Block.zero) [] = some d) ∧
    ∀ d, make_disk (fun _ ↦ Block.zero) [] = some d → ¬ Assumed d := by
  refine ⟨make_disk_nil _, fun d h ha ↦ ?_⟩
  have hlen := length_make_disk h
  have hcomplete : 2000 ≤ d.length := ha.complete
  omega

end
end Orfos.Disk
