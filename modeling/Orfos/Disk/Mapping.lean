import Mathlib.Data.Finset.Card
import Mathlib.Data.Finset.Range
import Mathlib.Data.List.GetD
import Orfos.Disk.MakeDisk
import Orfos.Fs.Slots

/-!
# The blocks of the files on an image

The positions of files that have a block, in the order in which they got it. The blocks are handed
out one after the other, so a position has the block with its place in this order as its number.
-/

namespace Orfos.Disk

open Orfos.Base Orfos.Fs

/-- A place for a block number: in an inode or its indirect block, or the number of the indirect
block. -/
inductive Position where
  | data (inum : UInt32) (k : Nat)
  | indirect (inum : UInt32)
  deriving DecidableEq

/-- The number of a block of a file. -/
def blockAt (blocks : UInt32 → Block) (dinode : DiskInode) (k : Nat) : UInt32 :=
  if h : k < NUM_DIRECT_BLOCKS then dinode.directBlocks ⟨k, h⟩
  else getU32 (blocks dinode.indirectBlock) (4 * (k - NUM_DIRECT_BLOCKS))

/-- The block number in a position. -/
def target (blocks : UInt32 → Block) (nodes : UInt32 → DiskInode) : Position → UInt32
  | .data i k => blockAt blocks (nodes i) k
  | .indirect i => (nodes i).indirectBlock

/-- A position of an inode in use. -/
def Position.Within (live : UInt32 → Prop) : Position → Prop
  | .data i k => live i ∧ k < MAX_FILE
  | .indirect i => live i

/-- A position that is there: in the inode, or in an indirect block that is there. -/
def Position.Rooted (order : List Position) : Position → Prop
  | .data i k => NUM_DIRECT_BLOCKS ≤ k → .indirect i ∈ order
  | .indirect _ => True

/-- The positions in `order` have the blocks from `numMeta` on, all others are zero, and so are the
blocks that are not used yet. -/
structure Numbered (blocks : UInt32 → Block) (nodes : UInt32 → DiskInode) (free : UInt32)
    (live : UInt32 → Prop) (order : List Position) : Prop where
  count : free.toNat = numMeta + order.length
  target : ∀ j p, order[j]? = some p → target blocks nodes p = UInt32.ofNat (numMeta + j)
  nodup : order.Nodup
  within : ∀ p ∈ order, p.Within live
  rooted : ∀ p ∈ order, p.Rooted order
  zero : ∀ p, p.Within live → p.Rooted order → p ∉ order → Disk.target blocks nodes p = 0
  fresh : ∀ b, free ≤ b → blocks b = Block.zero

/-- The bytes of the files are in their blocks. -/
def Holds (blocks : UInt32 → Block) (nodes : UInt32 → DiskInode) (live : UInt32 → Prop)
    (order : List Position) (contents : UInt32 → List UInt8) : Prop :=
  ∀ i, live i → ∀ j b, (contents i)[j]? = some b →
    .data i (j / BLOCK_SIZE) ∈ order ∧
      byteAt (blocks (target blocks nodes (.data i (j / BLOCK_SIZE)))) (j % BLOCK_SIZE) = b

section

variable {blocks blocks' : UInt32 → Block} {nodes nodes' : UInt32 → DiskInode} {free : UInt32}
  {live : UInt32 → Prop} {order : List Position} {contents : UInt32 → List UInt8}
  {p q : Position} {i : UInt32} {k : Nat}

/-! ### Block numbers -/

/-- Positions of fewer than 200 inodes in one number each. -/
private def Position.code : Position → Nat
  | .data i k => 269 * i.toNat + k
  | .indirect i => 269 * i.toNat + 268

private theorem code_lt (hlive : ∀ i, live i → i.toNat < NUM_INODES) (h : p.Within live) :
    p.code < 53800 := by
  cases p with
  | data i k =>
    have hi : i.toNat < 200 := hlive i h.1
    have hk : k < 268 := h.2
    change 269 * i.toNat + k < 53800
    omega
  | indirect i =>
    have hi : i.toNat < 200 := hlive i h
    change 269 * i.toNat + 268 < 53800
    omega

private theorem code_inj (hp : p.Within live) (hq : q.Within live) (h : p.code = q.code) :
    p = q := by
  cases p with
  | data i k =>
    have hk : k < 268 := hp.2
    cases q with
    | data i' k' =>
      have hk' : k' < 268 := hq.2
      change 269 * i.toNat + k = 269 * i'.toNat + k' at h
      have hi : i = i' := UInt32.toNat_inj.mp (by omega)
      have hkk : k = k' := by
        rw [hi] at h
        omega
      rw [hi, hkk]
    | indirect i' =>
      change 269 * i.toNat + k = 269 * i'.toNat + 268 at h
      omega
  | indirect i =>
    cases q with
    | data i' k' =>
      have hk' : k' < 268 := hq.2
      change 269 * i.toNat + 268 = 269 * i'.toNat + k' at h
      omega
    | indirect i' =>
      change 269 * i.toNat + 268 = 269 * i'.toNat + 268 at h
      rw [UInt32.toNat_inj.mp (by omega : i.toNat = i'.toNat)]

/-- There are few positions. -/
theorem Numbered.room (h : Numbered blocks nodes free live order)
    (hlive : ∀ i, live i → i.toNat < NUM_INODES) : free.toNat < 60000 := by
  have hlen : (order.map Position.code).length ≤ 53800 := by
    have hnodup : (order.map Position.code).Nodup :=
      h.nodup.map_on fun p hp q hq he ↦ code_inj (h.within p hp) (h.within q hq) he
    have hsub : (order.map Position.code).toFinset ⊆ Finset.range 53800 := by
      intro n hn
      obtain ⟨p, hp, rfl⟩ := List.mem_map.mp (List.mem_toFinset.mp hn)
      exact Finset.mem_range.mpr (code_lt hlive (h.within p hp))
    have hcard := Finset.card_le_card hsub
    rwa [List.toFinset_card_of_nodup hnodup, Finset.card_range] at hcard
  rw [List.length_map] at hlen
  have hfree : free.toNat = 46 + order.length := h.count
  omega

/-- The block of a position, by its place in the order. -/
theorem Numbered.place (h : Numbered blocks nodes free live order) (hp : p ∈ order) :
    ∃ j, order[j]? = some p ∧ (Disk.target blocks nodes p).toNat = numMeta + j ∧
      numMeta + j < free.toNat := by
  obtain ⟨j, hj, he⟩ := List.mem_iff_getElem.mp hp
  have hget : order[j]? = some p := by rw [List.getElem?_eq_getElem hj, he]
  have hfree : free.toNat = 46 + order.length := h.count
  have hlt := free.toNat_lt
  refine ⟨j, hget, ?_, ?_⟩
  · rw [h.target j p hget, UInt32.toNat_ofNat']
    change (46 + j) % 2 ^ 32 = 46 + j
    omega
  · change 46 + j < free.toNat
    omega

/-- Blocks of positions are behind the metadata and in use. -/
theorem Numbered.range (h : Numbered blocks nodes free live order) (hp : p ∈ order) :
    numMeta ≤ (Disk.target blocks nodes p).toNat ∧ Disk.target blocks nodes p < free := by
  obtain ⟨j, -, hj, hlt⟩ := h.place hp
  rw [UInt32.lt_iff_toNat_lt, hj]
  exact ⟨Nat.le_add_right _ _, hlt⟩

theorem Numbered.ne_zero (h : Numbered blocks nodes free live order) (hp : p ∈ order) :
    Disk.target blocks nodes p ≠ 0 := by
  intro hz
  have hge := (h.range hp).1
  rw [hz] at hge
  exact absurd hge (by decide)

/-- Different positions have different blocks. -/
theorem Numbered.inj (h : Numbered blocks nodes free live order) (hp : p ∈ order) (hq : q ∈ order)
    (he : Disk.target blocks nodes p = Disk.target blocks nodes q) : p = q := by
  obtain ⟨j, hj, hpj, -⟩ := h.place hp
  obtain ⟨j', hj', hqj, -⟩ := h.place hq
  have hjj : j = j' := by
    rw [he, hqj] at hpj
    omega
  rw [hjj, hj'] at hj
  exact (Option.some.inj hj).symm

/-- Every block in use has a position. -/
theorem Numbered.all (h : Numbered blocks nodes free live order) {b : UInt32}
    (hb : numMeta ≤ b.toNat) (hlt : b < free) :
    ∃ p ∈ order, Disk.target blocks nodes p = b := by
  have hlt := UInt32.lt_iff_toNat_lt.mp hlt
  have hfree := h.count
  have hj : b.toNat - numMeta < order.length := by omega
  refine ⟨order[b.toNat - numMeta], List.getElem_mem hj, ?_⟩
  rw [h.target _ _ (List.getElem?_eq_getElem hj), Nat.add_sub_cancel' hb, UInt32.ofNat_toNat]

/-- One more position gets the next block. -/
theorem Numbered.extend (h : Numbered blocks nodes free live order) (hroom : free.toNat < 60000)
    (hp : p ∉ order) (hwithin : p.Within live) (hrooted : p.Rooted order)
    (hsame : ∀ q ∈ order, Disk.target blocks' nodes' q = Disk.target blocks nodes q)
    (hnew : Disk.target blocks' nodes' p = free)
    (hzero : ∀ q, q.Within live → q.Rooted (order ++ [p]) → q ∉ order → q ≠ p →
      Disk.target blocks' nodes' q = 0)
    (hfresh : ∀ b, free < b → blocks' b = Block.zero) :
    Numbered blocks' nodes' (free + 1) live (order ++ [p]) := by
  have hfree := h.count
  have hone : (free + 1).toNat = free.toNat + 1 := by
    rw [UInt32.toNat_add]
    change (free.toNat + 1) % 4294967296 = free.toNat + 1
    omega
  have hgrow : ∀ q : Position, q.Rooted order → q.Rooted (order ++ [p]) := by
    intro q hq
    cases q with
    | data i k => exact fun hk ↦ List.mem_append_left _ (hq hk)
    | indirect i => trivial
  refine ⟨?_, ?_, ?_, ?_, ?_, ?_, ?_⟩
  · rw [hone, hfree, List.length_append, List.length_singleton]
    omega
  · intro j q hq
    by_cases hj : j < order.length
    · rw [List.getElem?_append_left hj] at hq
      rw [hsame q (List.mem_of_getElem? hq), h.target j q hq]
    · rw [List.getElem?_append_right (by omega)] at hq
      rw [List.getElem?_singleton] at hq
      split at hq
      · next hz =>
        cases hq
        have hj' : numMeta + j = free.toNat := by omega
        rw [hnew, hj', UInt32.ofNat_toNat]
      · cases hq
  · exact List.nodup_append.mpr ⟨h.nodup, List.nodup_singleton p, fun q hq r hr he ↦
      hp (by rw [← List.mem_singleton.mp hr, ← he]; exact hq)⟩
  · intro q hq
    rcases List.mem_append.mp hq with hq | hq
    · exact h.within q hq
    · rw [List.mem_singleton.mp hq]
      exact hwithin
  · intro q hq
    rcases List.mem_append.mp hq with hq | hq
    · exact hgrow q (h.rooted q hq)
    · rw [List.mem_singleton.mp hq]
      exact hgrow p hrooted
  · intro q hw hr hq
    rw [List.mem_append, List.mem_singleton, not_or] at hq
    exact hzero q hw hr hq.1 hq.2
  · intro b hb
    refine hfresh b ?_
    rw [UInt32.le_iff_toNat_le, hone] at hb
    rw [UInt32.lt_iff_toNat_lt]
    omega

/-! ### Changes -/

/-- The inode of a position. -/
def Position.inum : Position → UInt32
  | .data i _ => i
  | .indirect i => i

theorem target_update_of_ne {n : DiskInode} (h : q.inum ≠ i) :
    Disk.target blocks (Function.update nodes i n) q = Disk.target blocks nodes q := by
  cases q with
  | data i' k' =>
    have h : i' ≠ i := h
    rw [Disk.target, Disk.target, Function.update_of_ne h]
  | indirect i' =>
    have h : i' ≠ i := h
    rw [Disk.target, Disk.target, Function.update_of_ne h]

/-- Positions depend on the indirect blocks only. -/
theorem target_of_blocks (hq : q.Rooted order)
    (h : ∀ i, .indirect i ∈ order →
      blocks' (nodes i).indirectBlock = blocks (nodes i).indirectBlock) :
    Disk.target blocks' nodes q = Disk.target blocks nodes q := by
  cases q with
  | data i k =>
    change blockAt _ _ _ = blockAt _ _ _
    unfold blockAt
    split
    · rfl
    · next hk => rw [h i (hq (Nat.not_lt.mp hk))]
  | indirect i => rfl

/-- A block is written that is no indirect block and already in use. -/
theorem Numbered.of_blocks (h : Numbered blocks nodes free live order)
    (hind : ∀ i, .indirect i ∈ order →
      blocks' (nodes i).indirectBlock = blocks (nodes i).indirectBlock)
    (hfresh : ∀ b, free ≤ b → blocks' b = Block.zero) :
    Numbered blocks' nodes free live order := by
  refine ⟨h.count, fun j q hq ↦ ?_, h.nodup, h.within, h.rooted, fun q hw hr hq ↦ ?_, hfresh⟩
  · rw [target_of_blocks (h.rooted q (List.mem_of_getElem? hq)) hind, h.target j q hq]
  · rw [target_of_blocks hr hind, h.zero q hw hr hq]

/-- A direct block is allocated. -/
theorem Numbered.direct (h : Numbered blocks nodes free live order) (hroom : free.toNat < 60000)
    (hi : live i) (k : Fin NUM_DIRECT_BLOCKS) (hk : .data i k.val ∉ order)
    (hn : nodes' = Function.update nodes i { nodes i with
      directBlocks := Function.update (nodes i).directBlocks k free }) :
    Numbered blocks nodes' (free + 1) live (order ++ [.data i k.val]) ∧
      ∀ q, q ≠ .data i k.val → Disk.target blocks nodes' q = Disk.target blocks nodes q := by
  have hlt : k.val < 12 := k.isLt
  have hsame : ∀ q, q ≠ .data i k.val →
      Disk.target blocks nodes' q = Disk.target blocks nodes q := by
    intro q hq
    rw [hn]
    by_cases hqi : q.inum = i
    · subst hqi
      cases q with
      | data i' k' =>
        change blockAt _ (Function.update nodes i' _ i') k' = blockAt _ (nodes i') k'
        rw [Function.update_self]
        unfold blockAt
        split
        · next hk' =>
          have hne : (⟨k', hk'⟩ : Fin NUM_DIRECT_BLOCKS) ≠ k := by
            rintro rfl
            exact hq rfl
          exact Function.update_of_ne hne _ _
        · rfl
      | indirect i' =>
        change (Function.update nodes i' _ i').indirectBlock = (nodes i').indirectBlock
        rw [Function.update_self]
        rfl
    · exact target_update_of_ne hqi
  have hrooted : ∀ q : Position, q.Rooted (order ++ [.data i k.val]) → q.Rooted order := by
    intro q hq
    cases q with
    | data i' k' =>
      intro hk'
      rcases List.mem_append.mp (hq hk') with hmem | hmem
      · exact hmem
      · cases List.mem_singleton.mp hmem
    | indirect i' => trivial
  refine ⟨?_, hsame⟩
  refine h.extend hroom hk ⟨hi, by change k.val < 268; omega⟩ (fun hge ↦ ?_) (fun q hq ↦ ?_) ?_
    (fun q hw hr hq hne ↦ ?_) fun b hb ↦ h.fresh b (UInt32.le_of_lt hb)
  · exact absurd (show 12 ≤ k.val from hge) (by omega)
  · exact hsame q fun he ↦ hk (he ▸ hq)
  · rw [hn]
    change blockAt _ (Function.update nodes i _ i) k.val = free
    rw [Function.update_self, blockAt, dif_pos k.isLt]
    exact Function.update_self ..
  · rw [hsame q hne]
    exact h.zero q hw (hrooted q hr) hq

/-- An indirect block is allocated. -/
theorem Numbered.indirect (h : Numbered blocks nodes free live order)
    (hroom : free.toNat < 60000) (hi : live i) (hnot : .indirect i ∉ order)
    (hn : nodes' = Function.update nodes i { nodes i with indirectBlock := free }) :
    Numbered blocks nodes' (free + 1) live (order ++ [.indirect i]) ∧
      ∀ q ∈ order, Disk.target blocks nodes' q = Disk.target blocks nodes q := by
  have hsame : ∀ q, q ≠ .indirect i → (q.inum = i → q.Rooted order) →
      Disk.target blocks nodes' q = Disk.target blocks nodes q := by
    intro q hq hr
    rw [hn]
    by_cases hqi : q.inum = i
    · subst hqi
      cases q with
      | data i' k' =>
        change blockAt _ (Function.update nodes i' _ i') k' = blockAt _ (nodes i') k'
        rw [Function.update_self]
        unfold blockAt
        split
        · rfl
        · next hk' => exact absurd (hr rfl (Nat.not_lt.mp hk')) hnot
      | indirect i' => exact absurd rfl hq
    · exact target_update_of_ne hqi
  have hold : ∀ q ∈ order, Disk.target blocks nodes' q = Disk.target blocks nodes q :=
    fun q hq ↦ hsame q (fun he ↦ hnot (he ▸ hq)) fun _ ↦ h.rooted q hq
  refine ⟨h.extend hroom hnot hi trivial hold ?_ (fun q hw hr hq hne ↦ ?_)
    fun b hb ↦ h.fresh b (UInt32.le_of_lt hb), hold⟩
  · rw [hn]
    change (Function.update nodes i _ i).indirectBlock = free
    rw [Function.update_self]
  · by_cases hroot : q.inum = i → q.Rooted order
    · rw [hsame q hne hroot]
      refine h.zero q hw ?_ hq
      by_cases hqi : q.inum = i
      · exact hroot hqi
      · cases q with
        | data i' k' =>
          intro hk'
          rcases List.mem_append.mp (hr hk') with hmem | hmem
          · exact hmem
          · cases List.mem_singleton.mp hmem
            exact absurd rfl hqi
        | indirect i' => trivial
    · -- an entry of the new indirect block, which is blank
      rw [Classical.not_imp] at hroot
      obtain ⟨rfl, hroot⟩ := hroot
      cases q with
      | data i' k' =>
        have hk' : ¬ k' < NUM_DIRECT_BLOCKS := fun hlt ↦
          hroot fun hge ↦ absurd hlt (Nat.not_lt.mpr hge)
        rw [hn]
        change blockAt _ (Function.update nodes i' _ i') k' = 0
        rw [Function.update_self, blockAt, dif_neg hk', h.fresh free (UInt32.le_refl _)]
        exact getU32_zero _
      | indirect i' => exact absurd trivial hroot

/-- An entry of an indirect block is allocated. -/
theorem Numbered.entry (h : Numbered blocks nodes free live order) (hroom : free.toNat < 60000)
    (hi : live i) (hind : .indirect i ∈ order) (hk : NUM_DIRECT_BLOCKS ≤ k) (hmax : k < MAX_FILE)
    (hnot : .data i k ∉ order)
    (hb : blocks' = Function.update blocks (nodes i).indirectBlock
      (putU32 (blocks (nodes i).indirectBlock) (4 * (k - NUM_DIRECT_BLOCKS)) free)) :
    Numbered blocks' nodes (free + 1) live (order ++ [.data i k]) ∧
      ∀ q ∈ order, Disk.target blocks' nodes q = Disk.target blocks nodes q := by
  have hk12 : 12 ≤ k := hk
  have hk268 : k < 268 := hmax
  have hrange := h.range hind
  have hsame : ∀ q, q.Rooted order → q ≠ .data i k →
      Disk.target blocks' nodes q = Disk.target blocks nodes q := by
    intro q hr hq
    by_cases hqi : q.inum = i
    · subst hqi
      cases q with
      | data i' k' =>
        change blockAt _ _ _ = blockAt _ _ _
        unfold blockAt
        split
        · rfl
        · next hk' =>
          have hk' : ¬ k' < 12 := hk'
          have hne : k' ≠ k := by
            rintro rfl
            exact hq rfl
          change getU32 (blocks' (nodes i').indirectBlock) _ = _
          rw [hb]
          change getU32 (Function.update blocks (nodes i').indirectBlock _ _) _ = _
          rw [Function.update_self, getU32, getU32, putU32]
          refine congrArg UInt32.ofNat (getLe_putLe_disjoint _ _ ?_)
          change 4 * (k - 12) + 4 ≤ 4 * (k' - 12) ∨ 4 * (k' - 12) + 4 ≤ 4 * (k - 12)
          omega
      | indirect i' => rfl
    · cases q with
      | data i' k' =>
        change blockAt _ _ _ = blockAt _ _ _
        unfold blockAt
        split
        · rfl
        · next hk' =>
          have hmem := hr (Nat.not_lt.mp hk')
          have hne : (nodes i').indirectBlock ≠ (nodes i).indirectBlock := fun he ↦ by
            cases h.inj hmem hind he
            exact hqi rfl
          rw [hb, Function.update_of_ne hne]
      | indirect i' => rfl
  have hold : ∀ q ∈ order, Disk.target blocks' nodes q = Disk.target blocks nodes q :=
    fun q hq ↦ hsame q (h.rooted q hq) fun he ↦ hnot (he ▸ hq)
  refine ⟨h.extend hroom hnot ⟨hi, hmax⟩ (fun _ ↦ hind) hold ?_ (fun q hw hr hq hne ↦ ?_) ?_,
    hold⟩
  · change blockAt _ _ _ = free
    rw [blockAt, dif_neg (Nat.not_lt.mpr hk), hb, Function.update_self]
    refine getU32_putU32_same _ _ ?_
    change 4 * (k - 12) + 4 ≤ 1024
    omega
  · have hroot : q.Rooted order := by
      cases q with
      | data i' k' =>
        intro hk'
        rcases List.mem_append.mp (hr hk') with hmem | hmem
        · exact hmem
        · cases List.mem_singleton.mp hmem
      | indirect i' => trivial
    rw [hsame q hroot hne]
    exact h.zero q hw hroot hq
  · intro b hlt
    have hne : b ≠ (nodes i).indirectBlock := by
      rintro rfl
      exact absurd (UInt32.lt_trans hlt hrange.2) (UInt32.lt_irrefl _)
    rw [hb, Function.update_of_ne hne]
    exact h.fresh b (UInt32.le_of_lt hlt)

/-! ### Contents -/

theorem Holds.of_same {order' : List Position} (h : Holds blocks nodes live order contents)
    (hmem : ∀ q ∈ order, q ∈ order')
    (ht : ∀ q ∈ order, Disk.target blocks' nodes' q = Disk.target blocks nodes q)
    (hb : ∀ i k, .data i k ∈ order →
      blocks' (Disk.target blocks nodes (.data i k)) =
        blocks (Disk.target blocks nodes (.data i k))) :
    Holds blocks' nodes' live order' contents := by
  intro i hi j b hj
  obtain ⟨hd, hbyte⟩ := h i hi j b hj
  exact ⟨hmem _ hd, by rw [ht _ hd, hb _ _ hd, hbyte]⟩

/-- Bytes are added to the last block of a file. -/
theorem Holds.append (hn : Numbered blocks nodes free live order)
    (h : Holds blocks nodes live order contents) {c : List UInt8}
    (hk : .data i ((contents i).length / BLOCK_SIZE) ∈ order)
    (hfit : (contents i).length % BLOCK_SIZE + c.length ≤ BLOCK_SIZE)
    {x : UInt32} (hx : x = Disk.target blocks nodes (.data i ((contents i).length / BLOCK_SIZE)))
    (hb : blocks' = Function.update blocks x
      (putBytes (blocks x) ((contents i).length % BLOCK_SIZE) c.length fun m ↦ c.getD m 0)) :
    Numbered blocks' nodes free live order ∧
      Holds blocks' nodes live order (Function.update contents i (contents i ++ c)) := by
  have hfit : (contents i).length % 1024 + c.length ≤ 1024 := hfit
  have hind : ∀ i', .indirect i' ∈ order →
      blocks' (nodes i').indirectBlock = blocks (nodes i').indirectBlock := by
    intro i' hi'
    have hne : (nodes i').indirectBlock ≠ x := fun he ↦ by
      cases hn.inj hi' hk (he.trans hx)
    rw [hb, Function.update_of_ne hne]
  have htarget : ∀ q ∈ order, Disk.target blocks' nodes q = Disk.target blocks nodes q :=
    fun q hq ↦ target_of_blocks (hn.rooted q hq) hind
  refine ⟨hn.of_blocks hind fun b hle ↦ ?_, fun i' hi' j b hj ↦ ?_⟩
  · have hne : b ≠ x := by
      rintro rfl
      have hlt := (hn.range hk).2
      rw [← hx] at hlt
      exact absurd (UInt32.lt_of_lt_of_le hlt hle) (UInt32.lt_irrefl _)
    rw [hb, Function.update_of_ne hne]
    exact hn.fresh b hle
  · by_cases hi : i' = i
    · subst hi
      rw [Function.update_self] at hj
      by_cases hlt : j < (contents i').length
      · -- a byte from before
        rw [List.getElem?_append_left hlt] at hj
        obtain ⟨hd, hbyte⟩ := h i' hi' j b hj
        refine ⟨hd, ?_⟩
        rw [htarget _ hd, hb]
        by_cases he : Disk.target blocks nodes (.data i' (j / BLOCK_SIZE)) = x
        · have hpos := hn.inj hd hk (he.trans hx)
          injection hpos with _ hq
          have hq : j / 1024 = (contents i').length / 1024 := hq
          rw [he] at hbyte ⊢
          rw [Function.update_self, byteAt_putBytes _ _ _ _ _ (Nat.mod_lt _ (by decide)),
            if_neg, hbyte]
          change ¬ ((contents i').length % 1024 ≤ j % 1024 ∧ _)
          omega
        · rw [Function.update_of_ne he, hbyte]
      · -- a new byte
        rw [List.getElem?_append_right (by omega)] at hj
        obtain ⟨hm, hc⟩ := List.getElem?_eq_some_iff.mp hj
        have hq : j / BLOCK_SIZE = (contents i').length / BLOCK_SIZE := by
          change j / 1024 = _ / 1024
          omega
        have hr : j % 1024 = (contents i').length % 1024 + (j - (contents i').length) := by
          change j / 1024 = _ / 1024 at hq
          omega
        rw [hq]
        refine ⟨hk, ?_⟩
        rw [htarget _ hk, ← hx, hb, Function.update_self,
          byteAt_putBytes _ _ _ _ _ (Nat.mod_lt _ (by decide)), if_pos]
        · have hsub : j % BLOCK_SIZE - (contents i').length % BLOCK_SIZE =
              j - (contents i').length := by
            change j % 1024 - _ % 1024 = _
            omega
          rw [hsub, List.getD_eq_getElem _ _ hm, hc]
        · change _ % 1024 ≤ j % 1024 ∧ j % 1024 < _ % 1024 + _
          omega
    · rw [Function.update_of_ne hi] at hj
      obtain ⟨hd, hbyte⟩ := h i' hi' j b hj
      refine ⟨hd, ?_⟩
      have hne : Disk.target blocks nodes (.data i' (j / BLOCK_SIZE)) ≠ x := fun he ↦ by
        have hpos := hn.inj hd hk (he.trans hx)
        injection hpos with he' _
        exact hi he'
      rw [htarget _ hd, hb, Function.update_of_ne hne, hbyte]

end
end Orfos.Disk
