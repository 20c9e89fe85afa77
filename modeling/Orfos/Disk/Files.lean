import Orfos.Disk.Append

/-!
# Files on an image

Any sequence of calls of `allocateInode` and `appendInode`. Beside the image runs what was appended
to each inode.
-/

namespace Orfos.Disk

open Orfos.Base Orfos.Fs

/-- An image, and what was appended to its inodes. -/
structure Build where
  image : Image
  contents : UInt32 → List UInt8

/-- A call of `allocateInode` or `appendInode`. -/
inductive Call where
  | allocateInode (type : UInt16)
  | appendInode (inum : UInt32) (p : List UInt8)

/-- The inodes that were allocated. -/
def Live (d : Image) (i : UInt32) : Prop := 1 ≤ i.toNat ∧ i < d.freeInode

instance (d : Image) (i : UInt32) : Decidable (Live d i) :=
  inferInstanceAs (Decidable (_ ∧ _))

namespace Build

/-- One call. -/
def step (junk : Junk) (b : Build) : Call → Option Build
  | .allocateInode type =>
    let (inum, d) := allocateInode junk b.image type
    some ⟨d, Function.update b.contents inum []⟩
  | .appendInode inum p =>
    (appendInode junk b.image inum p).map fun d ↦
      ⟨d, Function.update b.contents inum (b.contents inum ++ p)⟩

/-- There is an inode left, and a file stays within `MAX_FILE` blocks. -/
def Fits (b : Build) : Call → Prop
  | .allocateInode _ => b.image.freeInode.toNat < NUM_INODES
  | .appendInode inum p =>
    Live b.image inum ∧ (b.contents inum).length + p.length ≤ MAX_FILE * BLOCK_SIZE

instance (b : Build) (c : Call) : Decidable (b.Fits c) :=
  match c with
  | .allocateInode _ => inferInstanceAs (Decidable (_ < _))
  | .appendInode _ _ => inferInstanceAs (Decidable (_ ∧ _))

/-- Before the first inode is allocated, on an image whose blocks all exist and read as zero behind
the metadata. -/
structure Begins (b : Build) : Prop where
  whole : Whole b.image
  freeInode : b.image.freeInode = 1
  freeBlock : b.image.freeBlock = UInt32.ofNat numMeta
  fresh : ∀ x : UInt32, numMeta ≤ x.toNat → b.image.blocks x = Block.zero

end Build

/-- The bytes of a file, by its size and its block numbers. -/
def fileBytes (blocks : UInt32 → Block) (dinode : DiskInode) : List UInt8 :=
  (List.range dinode.size.toNat).map fun j ↦
    byteAt (blocks (blockAt blocks dinode (j / BLOCK_SIZE))) (j % BLOCK_SIZE)

/-- A position that a file uses. -/
def Used (d : Image) : Position → Prop
  | .data i k => Live d i ∧ k * BLOCK_SIZE < (inodeAt d.blocks i).size.toNat
  | .indirect i => Live d i ∧ NUM_DIRECT_BLOCKS * BLOCK_SIZE < (inodeAt d.blocks i).size.toNat

/-- The block of a position. -/
abbrev blockOf (d : Image) (p : Position) : UInt32 := target d.blocks (inodeAt d.blocks) p

/-- What an image promises: the files have the bytes that were appended to them, each block in use
is in exactly one position, and `allocateBlock` marks exactly the blocks in use if they fit into one
block of the bitmap. -/
structure Build.Law (b : Build) : Prop where
  content : ∀ i, Live b.image i →
    fileBytes b.image.blocks (inodeAt b.image.blocks i) = b.contents i
  range : ∀ p, Used b.image p →
    numMeta ≤ (blockOf b.image p).toNat ∧ blockOf b.image p < b.image.freeBlock
  once : ∀ p q, Used b.image p → Used b.image q → blockOf b.image p = blockOf b.image q → p = q
  all : ∀ x : UInt32, numMeta ≤ x.toNat → x < b.image.freeBlock →
    ∃ p, Used b.image p ∧ blockOf b.image p = x
  marked : if b.image.freeBlock.toNat < BITS_PER_BLOCK then
      ∃ d, allocateBlock b.image b.image.freeBlock = some d ∧
        ∀ x, x < BITS_PER_BLOCK →
          bitAt (d.blocks sb.bmapStart) x = decide (x < b.image.freeBlock.toNat)
    else allocateBlock b.image b.image.freeBlock = none

section

variable {junk : Junk} {d : Image} {blocks : UInt32 → Block} {nodes nodes' : UInt32 → DiskInode}
  {free : UInt32} {live live' : UInt32 → Prop} {order : List Position}
  {contents : UInt32 → List UInt8} {i : UInt32} {b b' : Build}

/-! ### Changes of the inodes -/

/-- Inodes with the same block numbers. -/
def SameBlocks (n n' : DiskInode) : Prop :=
  n'.directBlocks = n.directBlocks ∧ n'.indirectBlock = n.indirectBlock

theorem target_of_same {p : Position} (hp : p.Within live)
    (h : ∀ i, live i → SameBlocks (nodes i) (nodes' i)) :
    target blocks nodes' p = target blocks nodes p := by
  cases p with
  | data i k =>
    obtain ⟨hd, hi⟩ := h i hp.1
    change blockAt _ _ _ = blockAt _ _ _
    rw [blockAt, blockAt, hd, hi]
  | indirect i => exact (h i hp).2

theorem Numbered.of_same (h : Numbered blocks nodes free live order)
    (hs : ∀ i, live i → SameBlocks (nodes i) (nodes' i)) :
    Numbered blocks nodes' free live order := by
  refine ⟨h.count, fun j p hp ↦ ?_, h.nodup, h.within, h.rooted, fun p hw hr hp ↦ ?_, h.fresh⟩
  · rw [target_of_same (h.within p (List.mem_of_getElem? hp)) hs, h.target j p hp]
  · rw [target_of_same hw hs, h.zero p hw hr hp]

theorem Holds.of_nodes (hn : Numbered blocks nodes free live order)
    (h : Holds blocks nodes live order contents)
    (hs : ∀ i, live i → SameBlocks (nodes i) (nodes' i)) :
    Holds blocks nodes' live order contents := by
  intro i hi j x hj
  obtain ⟨hd, hx⟩ := h i hi j x hj
  exact ⟨hd, by rw [target_of_same (hn.within _ hd) hs, hx]⟩

/-- A block of the metadata is written. -/
theorem meta_written (hn : Numbered blocks nodes free live order)
    (h : Holds blocks nodes live order contents) {x : UInt32} (hx : x.toNat < numMeta)
    (buf : Block) :
    Numbered (Function.update blocks x buf) nodes free live order ∧
      Holds (Function.update blocks x buf) nodes live order contents := by
  have hne : ∀ p ∈ order, target blocks nodes p ≠ x := fun p hp he ↦ by
    have hge := (hn.range hp).1
    rw [he] at hge
    omega
  have hind : ∀ i, .indirect i ∈ order →
      Function.update blocks x buf (nodes i).indirectBlock = blocks (nodes i).indirectBlock :=
    fun i hi ↦ Function.update_of_ne (hne _ hi) _ _
  refine ⟨hn.of_blocks hind fun y hy ↦ ?_, h.of_same (fun _ hq ↦ hq) (fun q hq ↦ ?_) ?_⟩
  · have hfree := hn.count
    have hy := UInt32.le_iff_toNat_le.mp hy
    rw [Function.update_of_ne, hn.fresh y (UInt32.le_iff_toNat_le.mpr hy)]
    rintro rfl
    omega
  · exact target_of_blocks (hn.rooted q hq) hind
  · exact fun i k hq ↦ Function.update_of_ne (hne _ hq) _ _

/-- One more inode without blocks. -/
theorem Numbered.enlarge (h : Numbered blocks nodes free live order)
    (hi : ¬ live i) (hl : ∀ j, live' j ↔ live j ∨ j = i)
    (hz : (∀ k, (nodes i).directBlocks k = 0) ∧ (nodes i).indirectBlock = 0) :
    Numbered blocks nodes free live' order := by
  have hgrow : ∀ p : Position, p.Within live → p.Within live' := by
    intro p hp
    cases p with
    | data j k => exact ⟨(hl j).mpr (.inl hp.1), hp.2⟩
    | indirect j => exact (hl j).mpr (.inl hp)
  refine ⟨h.count, h.target, h.nodup, fun p hp ↦ hgrow p (h.within p hp), h.rooted,
    fun p hw hr hp ↦ ?_, h.fresh⟩
  by_cases hpi : p.inum = i
  · subst hpi
    cases p with
    | data j k =>
      change blockAt _ _ _ = 0
      unfold blockAt
      split
      · exact hz.1 _
      · next hk => exact absurd (h.within _ (hr (Nat.not_lt.mp hk))) hi
    | indirect j => exact hz.2
  · refine h.zero p ?_ hr hp
    cases p with
    | data j k => exact ⟨((hl j).mp hw.1).resolve_right hpi, hw.2⟩
    | indirect j => exact ((hl j).mp hw).resolve_right hpi

/-! ### The invariant -/

/-- What holds after every call. -/
structure Build.Kept (b : Build) (order : List Position) : Prop where
  whole : Whole b.image
  inodes : 1 ≤ b.image.freeInode.toNat ∧ b.image.freeInode.toNat ≤ NUM_INODES
  numbered : Numbered b.image.blocks (inodeAt b.image.blocks) b.image.freeBlock (Live b.image) order
  holds : Holds b.image.blocks (inodeAt b.image.blocks) (Live b.image) order b.contents
  shaped : Shaped (Live b.image) order b.contents
  size : ∀ i, Live b.image i →
    (inodeAt b.image.blocks i).size.toNat = (b.contents i).length ∧
      (b.contents i).length ≤ MAX_FILE * BLOCK_SIZE

theorem Build.Kept.live_lt (h : b.Kept order) (hi : Live b.image i) : i.toNat < NUM_INODES :=
  Nat.lt_of_lt_of_le (UInt32.lt_iff_toNat_lt.mp hi.2) h.inodes.2

/-- `allocateInode`. -/
theorem allocateInode_kept (h : b.Kept order) {type : UInt16} (hf : b.Fits (.allocateInode type)) :
    ∃ b', b.step junk (.allocateInode type) = some b' ∧ b'.Kept order := by
  have hlt : b.image.freeInode.toNat < 200 := hf
  set i := b.image.freeInode with hidef
  have hw' : Whole { b.image with freeInode := i + 1 } := ⟨h.whole.failed, h.whole.length⟩
  have hone : (i + 1).toNat = i.toNat + 1 := by
    rw [UInt32.toNat_add]
    change (i.toNat + 1) % 4294967296 = _
    omega
  refine ⟨_, rfl, ?_⟩
  change Build.Kept ⟨writeInode junk { b.image with freeInode := i + 1 } i _, _⟩ order
  rw [writeInode_whole hw']
  set n : DiskInode := ⟨type, 0, 0, 1, 0, fun _ ↦ 0, 0⟩ with hn
  set blocks := Function.update b.image.blocks (iblock i sb)
    (n.store (dinodeAt i) (b.image.blocks (iblock i sb))) with hblocks
  have hnot : ¬ Live b.image i := fun hl ↦ absurd hl.2 (UInt32.lt_irrefl _)
  have hlive : ∀ j, Live { b.image with blocks := blocks, freeInode := i + 1 } j ↔
      Live b.image j ∨ j = i := by
    intro j
    have hge : 1 ≤ i.toNat := h.inodes.1
    change 1 ≤ j.toNat ∧ j < i + 1 ↔ (1 ≤ j.toNat ∧ j < i) ∨ j = i
    rw [UInt32.lt_iff_toNat_lt, UInt32.lt_iff_toNat_lt, hone, ← UInt32.toNat_inj]
    omega
  have hnode : ∀ j, Live b.image j ∨ j = i → inodeAt blocks j = Function.update
      (inodeAt b.image.blocks) i n j := by
    intro j hj
    refine inodeAt_store hlt ?_ n
    rcases hj with hj | rfl
    · exact h.live_lt hj
    · exact hlt
  have hold : ∀ j, Live b.image j → inodeAt blocks j = inodeAt b.image.blocks j := by
    intro j hj
    rw [hnode j (.inl hj), Function.update_of_ne]
    rintro rfl
    exact hnot hj
  have hnew : inodeAt blocks i = n := by rw [hnode i (.inr rfl), Function.update_self]
  have hsame : ∀ j, Live b.image j → SameBlocks (inodeAt b.image.blocks j) (inodeAt blocks j) :=
    fun j hj ↦ by
      rw [hold j hj]
      exact ⟨rfl, rfl⟩
  obtain ⟨hn₁, hh₁⟩ := meta_written h.numbered h.holds (iblock_lt hlt)
    (n.store (dinodeAt i) (b.image.blocks (iblock i sb)))
  have hn₂ := hn₁.of_same hsame
  have hh₂ := hh₁.of_nodes hn₁ hsame
  refine ⟨⟨h.whole.failed, h.whole.length⟩, ?_, ?_, ?_, ?_, ?_⟩
  · change 1 ≤ (i + 1).toNat ∧ (i + 1).toNat ≤ 200
    omega
  · refine hn₂.enlarge hnot hlive ?_
    rw [hnew]
    exact ⟨fun _ ↦ rfl, rfl⟩
  · intro j hj k x hk
    rcases (hlive j).mp hj with hj | rfl
    · refine hh₂ j hj k x ?_
      have hne : j ≠ i := by
        rintro rfl
        exact hnot hj
      change (Function.update b.contents i [] j)[k]? = some x at hk
      rwa [Function.update_of_ne hne] at hk
    · change (Function.update b.contents i [] i)[k]? = some x at hk
      rw [Function.update_self] at hk
      cases hk
  · intro j hj
    change (∀ k, _ ↔ _ < (Function.update b.contents i [] j).length) ∧
      (_ ↔ _ < (Function.update b.contents i [] j).length)
    rcases (hlive j).mp hj with hj | rfl
    · have hne : j ≠ i := by
        rintro rfl
        exact hnot hj
      rw [Function.update_of_ne hne]
      exact h.shaped j hj
    · rw [Function.update_self]
      refine ⟨fun k ↦ iff_of_false (fun hq ↦ ?_) (Nat.not_lt_zero _),
        iff_of_false (fun hq ↦ ?_) (Nat.not_lt_zero _)⟩
      · exact hnot (h.numbered.within _ hq).1
      · exact hnot (h.numbered.within _ hq)
  · intro j hj
    change (inodeAt blocks j).size.toNat = (Function.update b.contents i [] j).length ∧
      (Function.update b.contents i [] j).length ≤ _
    rcases (hlive j).mp hj with hj | rfl
    · have hne : j ≠ i := by
        rintro rfl
        exact hnot hj
      rw [hold j hj, Function.update_of_ne hne]
      exact h.size j hj
    · rw [hnew, Function.update_self]
      exact ⟨rfl, Nat.zero_le _⟩

/-- `appendInode`. -/
theorem appendInode_kept (h : b.Kept order) {p : List UInt8} (hf : b.Fits (.appendInode i p)) :
    ∃ b' order', b.step junk (.appendInode i p) = some b' ∧ b'.Kept order' := by
  obtain ⟨hi, hmax⟩ := hf
  have hlt := h.live_lt hi
  have hloop : Loop b.image (inodeAt b.image.blocks) (Live b.image) order b.contents i
      (inodeAt b.image.blocks i).size :=
    ⟨h.whole, h.numbered, h.holds, h.shaped, (h.size i hi).1⟩
  obtain ⟨n, offset, d, order', he, hb, hl⟩ :=
    appendFrom_loop junk (fun j hj ↦ h.live_lt hj) hi p.length hloop (le_refl _) hmax
  have hw := hb.whole h.whole
  have hread : readInode junk b.image i = (inodeAt b.image.blocks i, b.image) := by
    rw [readInode, readSector_whole h.whole]
    rfl
  have hlive : ∀ j, Live d j ↔ Live b.image j := fun j ↦ by rw [hb.frame]; rfl
  set n' : DiskInode := { n with size := offset } with hn'
  set blocks := Function.update d.blocks (iblock i sb)
    (n'.store (dinodeAt i) (d.blocks (iblock i sb))) with hblocks
  have hresult : appendInode junk b.image i p = some { d with blocks := blocks } := by
    rw [appendInode, hread]
    dsimp only
    rw [he]
    dsimp only
    rw [writeInode_whole hw]
  refine ⟨⟨{ d with blocks := blocks }, _⟩, order', by rw [Build.step, hresult]; rfl, ?_⟩
  -- the inodes on the image, of which one was stored
  have hold : ∀ j, Live b.image j → inodeAt d.blocks j = inodeAt b.image.blocks j := fun j hj ↦ by
    rw [inodeAt, inodeAt, hb.blocks _ (iblock_lt (h.live_lt hj))]
  have hnode : ∀ j, Live b.image j →
      inodeAt blocks j = Function.update (inodeAt b.image.blocks) i n' j := by
    intro j hj
    rw [inodeAt_store hlt (h.live_lt hj)]
    by_cases hji : j = i
    · rw [hji, Function.update_self, Function.update_self]
    · rw [Function.update_of_ne hji, Function.update_of_ne hji, hold j hj]
  have hsame : ∀ j, Live b.image j →
      SameBlocks (Function.update (inodeAt b.image.blocks) i n j) (inodeAt blocks j) := by
    intro j hj
    rw [hnode j hj]
    by_cases hji : j = i
    · rw [hji, Function.update_self, Function.update_self]
      exact ⟨rfl, rfl⟩
    · rw [Function.update_of_ne hji, Function.update_of_ne hji]
      exact ⟨rfl, rfl⟩
  obtain ⟨hn₁, hh₁⟩ := meta_written hl.numbered hl.holds (iblock_lt hlt)
    (n'.store (dinodeAt i) (d.blocks (iblock i sb)))
  have hn₂ := hn₁.of_same hsame
  have hh₂ := hh₁.of_nodes hn₁ hsame
  have hlives : Live { d with blocks := blocks } = Live b.image := funext fun j ↦
    propext (hlive j)
  refine ⟨⟨hw.failed, hw.length⟩, ?_, ?_, ?_, ?_, ?_⟩
  · change 1 ≤ d.freeInode.toNat ∧ d.freeInode.toNat ≤ NUM_INODES
    rw [hb.frame]
    exact h.inodes
  · rw [hlives]
    exact hn₂
  · rw [hlives]
    exact hh₂
  · rw [hlives]
    exact hl.shaped
  · rw [hlives]
    intro j hj
    change (inodeAt blocks j).size.toNat =
        (Function.update b.contents i (b.contents i ++ p) j).length ∧
      (Function.update b.contents i (b.contents i ++ p) j).length ≤ _
    rw [hnode j hj]
    by_cases hji : j = i
    · subst hji
      have hoffset := hl.offset
      rw [Function.update_self] at hoffset
      rw [Function.update_self, Function.update_self, hn']
      refine ⟨hoffset, ?_⟩
      rw [List.length_append]
      exact hmax
    · rw [Function.update_of_ne hji, Function.update_of_ne hji]
      exact h.size j hj

/-! ### The law -/

/-- The bitmap that `allocateBlock` writes. -/
theorem bitAt_bitmap {n : Nat} (hn : n ≤ BITS_PER_BLOCK) (x : Nat) :
    bitAt ((List.range n).foldl setBit Block.zero) x = decide (x < n) := by
  induction n with
  | zero =>
    have hz : bitAt Block.zero x = false := by
      rw [bitAt_eq]
      have hbyte : byteAt Block.zero (x / 8) = 0 := by
        unfold byteAt
        split
        · rfl
        · rfl
      rw [hbyte]
      exact Nat.zero_testBit _
    simpa using hz
  | succ n ih =>
    have hn' : n + 1 ≤ 8192 := hn
    have hlt : n / 8 < BLOCK_SIZE := by
      change n / 8 < 1024
      omega
    rw [List.range_succ, List.foldl_append]
    change bitAt (setBit _ n) x = _
    rw [bitAt_setBit _ _ hlt, ih (by omega), ← Bool.decide_or]
    simp only [decide_eq_decide]
    omega

namespace Build

theorem Kept.mem_iff (h : b.Kept order) (p : Position) : p ∈ order ↔ Used b.image p := by
  cases p with
  | data i k =>
    constructor
    · intro hp
      have hi := (h.numbered.within _ hp).1
      refine ⟨hi, ?_⟩
      rw [(h.size i hi).1]
      exact ((h.shaped i hi).1 k).mp hp
    · rintro ⟨hi, hk⟩
      rw [(h.size i hi).1] at hk
      exact ((h.shaped i hi).1 k).mpr hk
  | indirect i =>
    constructor
    · intro hp
      have hi : Live b.image i := h.numbered.within _ hp
      refine ⟨hi, ?_⟩
      rw [(h.size i hi).1]
      exact (h.shaped i hi).2.mp hp
    · rintro ⟨hi, hk⟩
      rw [(h.size i hi).1] at hk
      exact (h.shaped i hi).2.mpr hk

/-- The bytes of a file. -/
theorem Kept.content (h : b.Kept order) (hi : Live b.image i) :
    fileBytes b.image.blocks (inodeAt b.image.blocks i) = b.contents i := by
  apply List.ext_getElem?
  intro j
  have hsize := (h.size i hi).1
  rw [fileBytes, List.getElem?_map, hsize]
  by_cases hj : j < (b.contents i).length
  · have hget := List.getElem?_eq_getElem hj
    obtain ⟨-, hbyte⟩ := h.holds i hi j _ hget
    rw [List.getElem?_range hj, hget, Option.map_some, ← hbyte]
    rfl
  · rw [List.getElem?_eq_none (by rw [List.length_range]; omega), List.getElem?_eq_none (by omega)]
    rfl

theorem Kept.law (h : b.Kept order) : b.Law := by
  refine ⟨fun i hi ↦ h.content hi, fun p hp ↦ ?_, fun p q hp hq he ↦ ?_, fun x hx hlt ↦ ?_, ?_⟩
  · exact h.numbered.range ((h.mem_iff p).mpr hp)
  · exact h.numbered.inj ((h.mem_iff p).mpr hp) ((h.mem_iff q).mpr hq) he
  · obtain ⟨p, hp, he⟩ := h.numbered.all hx hlt
    exact ⟨p, (h.mem_iff p).mp hp, he⟩
  · unfold allocateBlock
    split
    · next hlt =>
      rw [writeSector_whole h.whole]
      refine ⟨_, rfl, fun x _ ↦ ?_⟩
      dsimp only
      rw [Function.update_self]
      exact bitAt_bitmap (Nat.le_of_lt hlt) x
    · rfl

theorem Begins.kept (h : b.Begins) : b.Kept [] := by
  have hnone : ∀ i, ¬ Live b.image i := by
    rintro i ⟨hge, hlt⟩
    rw [h.freeInode, UInt32.lt_iff_toNat_lt] at hlt
    change i.toNat < 1 at hlt
    omega
  refine ⟨h.whole, ?_, ?_, ?_, ?_, ?_⟩
  · rw [h.freeInode]
    decide
  · refine ⟨?_, nofun, List.nodup_nil, nofun, nofun, fun p hp ↦ ?_, fun x hx ↦ h.fresh x ?_⟩
    · rw [h.freeBlock]
      rfl
    · cases p with
      | data i k => exact absurd hp.1 (hnone i)
      | indirect i => exact absurd hp (hnone i)
    · rw [h.freeBlock] at hx
      exact UInt32.le_iff_toNat_le.mp hx
  · exact fun i hi ↦ absurd hi (hnone i)
  · exact fun i hi ↦ absurd hi (hnone i)
  · exact fun i hi ↦ absurd hi (hnone i)

/-- Every call that fits returns, and the law is kept. -/
theorem step_kept (junk : Junk) (h : b.Kept order) {c : Call} (hf : b.Fits c) :
    ∃ b' order', b.step junk c = some b' ∧ b'.Kept order' := by
  cases c with
  | allocateInode type =>
    obtain ⟨b', he, hk⟩ := allocateInode_kept h hf
    exact ⟨b', order, he, hk⟩
  | appendInode inum p => exact appendInode_kept h hf

/-- After any sequence of calls the files have the bytes that were appended to them, the blocks in
use are each in one position, and the bitmap marks them. The calls return. -/
theorem append_law (junk : Junk) {b₀ b : Build} (h₀ : b₀.Begins)
    (hr : Run (step junk) Fits b₀ b) : b.Law ∧ ∀ c, b.Fits c → (b.step junk c).isSome := by
  have hall : ∃ order, b.Kept order := by
    refine hr.invariant (I := fun b ↦ ∃ order, b.Kept order) ⟨[], h₀.kept⟩ ?_
    rintro b c b' ⟨order, h⟩ hf hs
    obtain ⟨b₁, order', he, hk⟩ := step_kept junk h hf
    rw [hs] at he
    cases he
    exact ⟨order', hk⟩
  obtain ⟨order, h⟩ := hall
  refine ⟨h.law, fun c hf ↦ ?_⟩
  obtain ⟨b', -, he, -⟩ := step_kept junk h hf
  rw [he]
  rfl

/-- A blank image. -/
def blank : Build where
  image := ⟨fun _ ↦ Block.zero, 2 ^ 32, false, 0, 1, UInt32.ofNat numMeta⟩
  contents _ := []

theorem blank_begins : blank.Begins := ⟨⟨rfl, le_refl _⟩, rfl, rfl, fun _ _ ↦ rfl⟩

/-- A file with three bytes. -/
theorem append_law_blank :
    (final (step fun _ ↦ Block.zero) blank [.allocateInode T_FILE, .appendInode 1 [1, 2, 3]]).Law :=
  (append_law (fun _ ↦ Block.zero) blank_begins
    (run_final (by decide +kernel) (by decide +kernel))).1

end Build

end
end Orfos.Disk
