import Orfos.Base.Guarded
import Orfos.Disk.Mapping

/-!
# Appending to the files of an image

On an image in which every block exists, `allocateInode` and `appendInode` keep the bytes of all
files, whatever the chunks are and however they are interleaved. Every block from `numMeta` to
`freeBlock` is in exactly one position of one inode, and `allocateBlock` marks these blocks.
-/

namespace Orfos.Disk

open Orfos.Base Orfos.Fs

/-- All blocks exist. -/
structure Whole (d : Image) : Prop where
  failed : d.failed = false
  length : 2 ^ 32 ≤ d.length

/-- From `d` to `d'` only blocks behind the metadata were written and allocated. -/
structure Behind (d d' : Image) : Prop where
  frame : d' = { d with blocks := d'.blocks, freeBlock := d'.freeBlock }
  blocks : ∀ b : UInt32, b.toNat < numMeta → d'.blocks b = d.blocks b

/-- The files have the blocks that their lengths need. -/
def Shaped (live : UInt32 → Prop) (order : List Position) (contents : UInt32 → List UInt8) : Prop :=
  ∀ i, live i → (∀ k, .data i k ∈ order ↔ k * BLOCK_SIZE < (contents i).length) ∧
    (.indirect i ∈ order ↔ NUM_DIRECT_BLOCKS * BLOCK_SIZE < (contents i).length)

section

variable {junk : Junk} {d d' d'' : Image} {x : UInt32} {buf : Block}
  {nodes : UInt32 → DiskInode} {live : UInt32 → Prop} {order : List Position}
  {contents : UInt32 → List UInt8} {i : UInt32} {k : Nat}

theorem Behind.refl (d : Image) : Behind d d := ⟨rfl, fun _ _ ↦ rfl⟩

theorem Behind.trans (h : Behind d d') (h' : Behind d' d'') : Behind d d'' := by
  refine ⟨?_, fun b hb ↦ (h'.blocks b hb).trans (h.blocks b hb)⟩
  rw [h'.frame, h.frame]

theorem Behind.whole (h : Behind d d') (hw : Whole d) : Whole d' := by
  rw [h.frame]
  exact ⟨hw.failed, hw.length⟩

/-- A block that exists is read. -/
theorem readSector_of_lt (hf : d.failed = false) (hx : x.toNat < d.length) :
    readSector junk d x = (d.blocks x, d) := by
  rw [readSector, if_pos ⟨hf, hx⟩]

/-- A block that exists is written. -/
theorem writeSector_of_lt (hf : d.failed = false) (hx : x.toNat < d.length) (buf : Block) :
    writeSector d x buf = { d with blocks := Function.update d.blocks x buf } := by
  have hmax : max d.length (x.toNat + 1) = d.length := by omega
  rw [writeSector, if_neg (by rw [hf]; decide), hmax]

theorem Whole.lt (hw : Whole d) (x : UInt32) : x.toNat < d.length :=
  Nat.lt_of_lt_of_le x.toNat_lt hw.length

theorem readSector_whole (hw : Whole d) (x : UInt32) : readSector junk d x = (d.blocks x, d) :=
  readSector_of_lt hw.failed (hw.lt x)

theorem writeSector_whole (hw : Whole d) (x : UInt32) (buf : Block) :
    writeSector d x buf = { d with blocks := Function.update d.blocks x buf } :=
  writeSector_of_lt hw.failed (hw.lt x) buf

/-! ### One round of `appendInode` -/

/-- What `findBlock` has found for position `k` of inode `i`, and allocated if need be. -/
structure Found (d : Image) (nodes : UInt32 → DiskInode) (live : UInt32 → Prop)
    (order : List Position) (contents : UInt32 → List UInt8) (i : UInt32) (k : Nat) (x : UInt32)
    (dinode : DiskInode) (d' : Image) (order' : List Position) : Prop where
  behind : Behind d d'
  numbered : Numbered d'.blocks (Function.update nodes i dinode) d'.freeBlock live order'
  holds : Holds d'.blocks (Function.update nodes i dinode) live order' contents
  block : x = target d'.blocks (Function.update nodes i dinode) (.data i k)
  mem_iff : ∀ q, q ∈ order' ↔
    q ∈ order ∨ q = .data i k ∨ (q = .indirect i ∧ NUM_DIRECT_BLOCKS ≤ k)

/-- A direct block. -/
theorem directBlock_found (hn : Numbered d.blocks nodes d.freeBlock live order)
    (hh : Holds d.blocks nodes live order contents) (hroom : d.freeBlock.toNat < 60000)
    (hi : live i) (k : Fin NUM_DIRECT_BLOCKS) :
    ∃ order', Found d nodes live order contents i k.val (directBlock d (nodes i) k).1
      (directBlock d (nodes i) k).2.1 (directBlock d (nodes i) k).2.2 order' := by
  have hk : ¬ NUM_DIRECT_BLOCKS ≤ k.val := Nat.not_le.mpr k.isLt
  have hat : target d.blocks nodes (.data i k.val) = (nodes i).directBlocks k := by
    change blockAt _ _ _ = _
    rw [blockAt, dif_pos k.isLt]
  have hmax : k.val < MAX_FILE := Nat.lt_of_lt_of_le k.isLt (Nat.le_add_right _ _)
  by_cases hmem : .data i k.val ∈ order
  · have hne := hn.ne_zero hmem
    rw [hat] at hne
    rw [directBlock, if_neg hne]
    refine ⟨order, .refl d, ?_, ?_, ?_, fun q ↦ ⟨.inl, ?_⟩⟩
    · rwa [Function.update_eq_self]
    · rwa [Function.update_eq_self]
    · rw [Function.update_eq_self, hat]
    · rintro (hq | rfl | ⟨-, hge⟩)
      · exact hq
      · exact hmem
      · exact absurd hge hk
  · have hz := hn.zero (.data i k.val) ⟨hi, hmax⟩ (fun hge ↦ absurd hge hk) hmem
    rw [hat] at hz
    rw [directBlock, if_pos hz]
    obtain ⟨hnew, hsame⟩ := hn.direct hroom hi k hmem rfl
    refine ⟨order ++ [.data i k.val], ⟨rfl, fun _ _ ↦ rfl⟩, hnew, ?_, ?_, fun q ↦ ?_⟩
    · exact hh.of_same (fun q hq ↦ List.mem_append_left _ hq)
        (fun q hq ↦ hsame q fun he ↦ hmem (he ▸ hq)) fun _ _ _ ↦ rfl
    · change _ = blockAt _ (Function.update nodes i _ i) k.val
      rw [Function.update_self, blockAt, dif_pos k.isLt]
      exact (Function.update_self k d.freeBlock (nodes i).directBlocks).symm
    · rw [List.mem_append, List.mem_singleton]
      constructor
      · rintro (hq | hq)
        · exact .inl hq
        · exact .inr (.inl hq)
      · rintro (hq | hq | ⟨-, hge⟩)
        · exact .inl hq
        · exact .inr hq
        · exact absurd hge hk

/-- The indirect block of an inode. -/
theorem indirectBlock_found (hn : Numbered d.blocks nodes d.freeBlock live order)
    (hh : Holds d.blocks nodes live order contents) (hroom : d.freeBlock.toNat < 60000)
    (hi : live i) :
    ∃ order', Behind d (indirectBlock d (nodes i)).2 ∧
      Numbered (indirectBlock d (nodes i)).2.blocks
        (Function.update nodes i (indirectBlock d (nodes i)).1)
        (indirectBlock d (nodes i)).2.freeBlock live order' ∧
      Holds (indirectBlock d (nodes i)).2.blocks
        (Function.update nodes i (indirectBlock d (nodes i)).1) live order' contents ∧
      ∀ q, q ∈ order' ↔ q ∈ order ∨ q = .indirect i := by
  by_cases hmem : .indirect i ∈ order
  · have hne : (nodes i).indirectBlock ≠ 0 := hn.ne_zero hmem
    rw [indirectBlock, if_neg hne]
    refine ⟨order, .refl d, ?_, ?_, fun q ↦ ⟨.inl, ?_⟩⟩
    · rwa [Function.update_eq_self]
    · rwa [Function.update_eq_self]
    · rintro (hq | rfl)
      · exact hq
      · exact hmem
  · have hz : (nodes i).indirectBlock = 0 := hn.zero (.indirect i) hi trivial hmem
    rw [indirectBlock, if_pos hz]
    obtain ⟨hnew, hsame⟩ := hn.indirect hroom hi hmem rfl
    refine ⟨order ++ [.indirect i], ⟨rfl, fun _ _ ↦ rfl⟩, hnew, ?_, fun q ↦ ?_⟩
    · exact hh.of_same (fun q hq ↦ List.mem_append_left _ hq) hsame fun _ _ _ ↦ rfl
    · rw [List.mem_append, List.mem_singleton]

/-- An entry of the indirect block. -/
theorem indirectEntry_found (junk : Junk) (hw : Whole d)
    (hn : Numbered d.blocks nodes d.freeBlock live order)
    (hh : Holds d.blocks nodes live order contents) (hroom : d.freeBlock.toNat < 60000)
    (hi : live i) (hk : NUM_DIRECT_BLOCKS ≤ k) (hmax : k < MAX_FILE)
    (hind : .indirect i ∈ order) :
    ∃ order' x d', indirectEntry junk d (nodes i).indirectBlock (k - NUM_DIRECT_BLOCKS) = (x, d') ∧
      Behind d d' ∧ Numbered d'.blocks nodes d'.freeBlock live order' ∧
      Holds d'.blocks nodes live order' contents ∧ x = target d'.blocks nodes (.data i k) ∧
      ∀ q, q ∈ order' ↔ q ∈ order ∨ q = .data i k := by
  have hat : ∀ blocks, target blocks nodes (.data i k) =
      getU32 (blocks (nodes i).indirectBlock) (4 * (k - NUM_DIRECT_BLOCKS)) := fun blocks ↦ by
    change blockAt _ _ _ = _
    rw [blockAt, dif_neg (Nat.not_lt.mpr hk)]
  have hrange := hn.range hind
  rw [indirectEntry, readSector_whole hw]
  dsimp only
  by_cases hmem : .data i k ∈ order
  · have hne := hn.ne_zero hmem
    rw [hat] at hne
    rw [if_neg hne]
    refine ⟨order, _, d, rfl, .refl d, hn, hh, (hat _).symm, fun q ↦ ⟨.inl, ?_⟩⟩
    rintro (hq | rfl)
    · exact hq
    · exact hmem
  · have hz := hn.zero (.data i k) ⟨hi, hmax⟩ (fun _ ↦ hind) hmem
    rw [hat] at hz
    rw [if_pos hz]
    obtain ⟨hnew, hsame⟩ := hn.entry hroom hi hind hk hmax hmem rfl
    have hw' : Whole { d with freeBlock := d.freeBlock + 1 } := ⟨hw.failed, hw.length⟩
    rw [writeSector_whole hw']
    have hother : ∀ b, b ≠ (nodes i).indirectBlock →
        Function.update d.blocks (nodes i).indirectBlock
          (putU32 (d.blocks (nodes i).indirectBlock) (4 * (k - NUM_DIRECT_BLOCKS)) d.freeBlock) b =
            d.blocks b := fun b hb ↦ Function.update_of_ne hb _ _
    refine ⟨order ++ [.data i k], _, _, rfl, ⟨rfl, fun b hb ↦ hother b ?_⟩, hnew, ?_, ?_,
      fun q ↦ ?_⟩
    · rintro rfl
      exact absurd hb (Nat.not_lt.mpr hrange.1)
    · refine hh.of_same (fun q hq ↦ List.mem_append_left _ hq) hsame fun i' k' hq ↦ hother _ ?_
      intro he
      cases hn.inj hq hind he
    · rw [hat]
      dsimp only
      rw [Function.update_self]
      refine (getU32_putU32_same _ _ ?_).symm
      have hmax' : k < 268 := hmax
      have hk' : 12 ≤ k := hk
      change 4 * (k - 12) + 4 ≤ 1024
      omega
    · rw [List.mem_append, List.mem_singleton]

/-- `findBlock` finds a block for each position of a file. -/
theorem findBlock_found (junk : Junk) (hw : Whole d) (hlive : ∀ i, live i → i.toNat < NUM_INODES)
    (hn : Numbered d.blocks nodes d.freeBlock live order)
    (hh : Holds d.blocks nodes live order contents) (hi : live i) (hmax : k < MAX_FILE) :
    ∃ x dinode d' order', findBlock junk d (nodes i) k = some (x, dinode, d') ∧
      Found d nodes live order contents i k x dinode d' order' := by
  have hroom := hn.room hlive
  unfold findBlock
  by_cases hk : k < NUM_DIRECT_BLOCKS
  · rw [dif_pos hk]
    obtain ⟨order', hf⟩ := directBlock_found hn hh hroom hi ⟨k, hk⟩
    exact ⟨_, _, _, order', rfl, hf⟩
  · have hk := Nat.not_lt.mp hk
    have hlt : k - NUM_DIRECT_BLOCKS < NUM_INDIRECT_BLOCKS := by
      have hk' : 12 ≤ k := hk
      have hmax' : k < 268 := hmax
      change k - 12 < 256
      omega
    rw [dif_neg (Nat.not_lt.mpr hk), if_pos hlt]
    obtain ⟨order₁, hb₁, hn₁, hh₁, hm₁⟩ := indirectBlock_found hn hh hroom hi
    dsimp only
    set n := (indirectBlock d (nodes i)).1
    set d₁ := (indirectBlock d (nodes i)).2
    have hself : Function.update nodes i n i = n := Function.update_self ..
    obtain ⟨order₂, x, d₂, he, hb₂, hn₂, hh₂, hx, hm₂⟩ :=
      indirectEntry_found junk (hb₁.whole hw) hn₁ hh₁ (hn₁.room hlive) hi hk hmax
        ((hm₁ _).mpr (.inr rfl))
    rw [hself] at he
    refine ⟨x, n, d₂, order₂, by rw [he], hb₁.trans hb₂, hn₂, hh₂, hx, fun q ↦ ?_⟩
    rw [hm₂, hm₁]
    constructor
    · rintro ((hq | hq) | hq)
      · exact .inl hq
      · exact .inr (.inr ⟨hq, hk⟩)
      · exact .inr (.inl hq)
    · rintro (hq | hq | ⟨hq, -⟩)
      · exact .inl (.inl hq)
      · exact .inr hq
      · exact .inl (.inr hq)

/-! ### The loop of `appendInode` -/

/-- The state of the loop, with the inode at `nodes i` and its length in `offset`. -/
structure Loop (d : Image) (nodes : UInt32 → DiskInode) (live : UInt32 → Prop)
    (order : List Position) (contents : UInt32 → List UInt8) (i offset : UInt32) : Prop where
  whole : Whole d
  numbered : Numbered d.blocks nodes d.freeBlock live order
  holds : Holds d.blocks nodes live order contents
  shaped : Shaped live order contents
  offset : offset.toNat = (contents i).length

theorem fill_whole (hw : Whole d) (x : UInt32) (o : Nat) (p : List UInt8) :
    fill junk d x o p = { d with
      blocks := Function.update d.blocks x
        (putBytes (d.blocks x) o p.length fun k ↦ p.getD k 0) } := by
  rw [fill, readSector_whole hw]
  exact writeSector_whole hw x _

/-- The files have the shape that they need after a chunk is added to the last block. -/
theorem Shaped.append {order' : List Position} (h : Shaped live order contents) {c : List UInt8}
    (hne : 0 < c.length)
    (hfit : (contents i).length % BLOCK_SIZE + c.length ≤ BLOCK_SIZE)
    (hm : ∀ q, q ∈ order' ↔ q ∈ order ∨ q = .data i ((contents i).length / BLOCK_SIZE) ∨
      (q = .indirect i ∧ NUM_DIRECT_BLOCKS ≤ (contents i).length / BLOCK_SIZE)) :
    Shaped live order' (Function.update contents i (contents i ++ c)) := by
  have hfit : (contents i).length % 1024 + c.length ≤ 1024 := hfit
  intro j hj
  obtain ⟨hdata, hind⟩ := h j hj
  by_cases hji : j = i
  · subst hji
    rw [Function.update_self, List.length_append]
    constructor
    · intro k
      rw [hm, hdata]
      simp only [Position.data.injEq, true_and, reduceCtorEq, false_and, or_false]
      change k * 1024 < _ ∨ k = _ / 1024 ↔ k * 1024 < _
      omega
    · rw [hm, hind]
      simp only [reduceCtorEq, true_and, false_or]
      change 12 * 1024 < _ ∨ 12 ≤ _ / 1024 ↔ 12 * 1024 < _
      omega
  · rw [Function.update_of_ne hji]
    constructor
    · intro k
      rw [hm, hdata]
      simp [hji]
    · rw [hm, hind]
      simp [hji]

/-- The loop appends its bytes. -/
theorem appendFrom_loop (junk : Junk) (hlive : ∀ i, live i → i.toNat < NUM_INODES) (hi : live i)
    (n : Nat) {offset : UInt32} {p : List UInt8} (hl : Loop d nodes live order contents i offset)
    (hp : p.length ≤ n) (hmax : (contents i).length + p.length ≤ MAX_FILE * BLOCK_SIZE) :
    ∃ dinode offset' d' order',
      appendFrom junk n d (nodes i) offset p = some (dinode, offset', d') ∧ Behind d d' ∧
        Loop d' (Function.update nodes i dinode) live order'
          (Function.update contents i (contents i ++ p)) i offset' := by
  induction n generalizing d nodes order contents offset p with
  | zero =>
    have hnil : p = [] := List.eq_nil_of_length_eq_zero (Nat.le_zero.mp hp)
    refine ⟨nodes i, offset, d, order, rfl, .refl d, ?_⟩
    rwa [hnil, List.append_nil, Function.update_eq_self, Function.update_eq_self]
  | succ n ih =>
    unfold appendFrom
    split
    · next hnil =>
      refine ⟨nodes i, offset, d, order, rfl, .refl d, ?_⟩
      rwa [hnil, List.append_nil, Function.update_eq_self, Function.update_eq_self]
    · next hnil =>
      have hpos := List.length_pos_of_ne_nil hnil
      dsimp only
      rw [hl.offset]
      set len := min p.length
        (((contents i).length / BLOCK_SIZE + 1) * BLOCK_SIZE - (contents i).length) with hlen
      have hlen' : len = min p.length
          (((contents i).length / 1024 + 1) * 1024 - (contents i).length) := hlen
      have hmax' : (contents i).length + p.length ≤ 274432 := hmax
      have htake : (p.take len).length = len := by
        rw [List.length_take]
        omega
      have hk : (contents i).length / BLOCK_SIZE < MAX_FILE := by
        change (contents i).length / 1024 < 268
        omega
      obtain ⟨x, n₁, d₁, order₁, hfind, hf⟩ :=
        findBlock_found junk hl.whole hlive hl.numbered hl.holds hi hk
      rw [hfind]
      dsimp only
      have hw₁ := hf.behind.whole hl.whole
      have hmem := (hf.mem_iff (.data i ((contents i).length / BLOCK_SIZE))).mpr (.inr (.inl rfl))
      have hfit : (contents i).length % BLOCK_SIZE + (p.take len).length ≤ BLOCK_SIZE := by
        rw [htake]
        change (contents i).length % 1024 + len ≤ 1024
        omega
      have hmod : (contents i).length - (contents i).length / BLOCK_SIZE * BLOCK_SIZE =
          (contents i).length % BLOCK_SIZE := by
        change _ - _ / 1024 * 1024 = _ % 1024
        omega
      obtain ⟨hn₂, hh₂⟩ := Holds.append hf.numbered hf.holds hmem hfit hf.block rfl
      have hshape := hl.shaped.append (by rw [htake]; omega) hfit hf.mem_iff
      rw [hmod, fill_whole hw₁]
      have hlen₂ : (Function.update contents i (contents i ++ p.take len) i).length =
          (contents i).length + len := by
        rw [Function.update_self, List.length_append, htake]
      have hoffset : (offset + UInt32.ofNat len).toNat = (contents i).length + len := by
        rw [UInt32.toNat_add, UInt32.toNat_ofNat', hl.offset]
        omega
      have hloop : Loop { d₁ with
            blocks := Function.update d₁.blocks x
              (putBytes (d₁.blocks x) ((contents i).length % BLOCK_SIZE) (p.take len).length
                fun k ↦ (p.take len).getD k 0) } (Function.update nodes i n₁) live order₁
          (Function.update contents i (contents i ++ p.take len)) i (offset + UInt32.ofNat len) :=
        ⟨⟨hw₁.failed, hw₁.length⟩, hn₂, hh₂, hshape, by rw [hlen₂, hoffset]⟩
      have hdrop : (p.drop len).length = p.length - len := List.length_drop
      obtain ⟨n₂, offset₂, d₂, order₂, he, hb, hl₂⟩ := ih hloop (p := p.drop len) (by omega) (by
        rw [hlen₂, hdrop]
        change _ ≤ 274432
        omega)
      rw [Function.update_self] at he
      refine ⟨n₂, offset₂, d₂, order₂, he, ?_, ?_⟩
      · refine (hf.behind.trans ⟨rfl, fun b hb ↦ Function.update_of_ne ?_ _ _⟩).trans hb
        rintro rfl
        have hge := (hf.numbered.range hmem).1
        rw [← hf.block] at hge
        omega
      · rw [Function.update_idem, Function.update_idem, Function.update_self, List.append_assoc,
          List.take_append_drop] at hl₂
        exact hl₂

/-! ### Inodes on the image -/

/-- The inode in its slot. -/
def inodeAt (blocks : UInt32 → Block) (i : UInt32) : DiskInode :=
  DiskInode.load (blocks (iblock i sb)) (dinodeAt i)

theorem iblock_toNat (hi : i.toNat < NUM_INODES) : (iblock i sb).toNat = i.toNat / 16 + 32 := by
  have hi : i.toNat < 200 := hi
  rw [iblock, UInt32.toNat_add, UInt32.toNat_div]
  change (i.toNat / 16 + 32) % 4294967296 = _
  omega

theorem iblock_lt (hi : i.toNat < NUM_INODES) : (iblock i sb).toNat < numMeta := by
  have hi' : i.toNat < 200 := hi
  rw [iblock_toNat hi]
  change _ < 46
  omega

/-- The inodes after one of them was stored. -/
theorem inodeAt_store {blocks : UInt32 → Block} {j : UInt32} (hi : i.toNat < NUM_INODES)
    (hj : j.toNat < NUM_INODES) (n : DiskInode) :
    inodeAt (Function.update blocks (iblock i sb) (n.store (dinodeAt i) (blocks (iblock i sb)))) j =
      Function.update (inodeAt blocks) i n j := by
  have hat : ∀ k : UInt32, dinodeAt k = 64 * (k.toNat % 16) := fun _ ↦ rfl
  have hib := iblock_toNat hi
  have hjb := iblock_toNat hj
  by_cases hji : j = i
  · subst hji
    rw [Function.update_self, inodeAt, Function.update_self]
    refine DiskInode.load_store_same n _ ?_
    rw [hat]
    change _ ≤ 1024
    omega
  · rw [Function.update_of_ne hji, inodeAt]
    by_cases hb : iblock j sb = iblock i sb
    · rw [hb, Function.update_self, DiskInode.load_store_other, inodeAt, hb]
      have hne : j.toNat ≠ i.toNat := fun he ↦ hji (UInt32.toNat_inj.mp he)
      have hbn := congrArg UInt32.toNat hb
      rw [hat, hat]
      omega
    · rw [Function.update_of_ne hb, inodeAt]

theorem writeInode_whole (hw : Whole d) (i : UInt32) (n : DiskInode) :
    writeInode junk d i n = { d with
      blocks := Function.update d.blocks (iblock i sb)
        (n.store (dinodeAt i) (d.blocks (iblock i sb))) } := by
  rw [writeInode, readSector_whole hw]
  exact writeSector_whole hw _ _

end
end Orfos.Disk
