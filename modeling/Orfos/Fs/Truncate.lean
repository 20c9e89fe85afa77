import Orfos.Fs.Bitmap

/-!
# Truncating inodes

`Inode::truncate` frees the blocks of an inode one after the other: the direct ones, the ones in the
indirect block and the indirect block. Every mark that it clears is that of a block of the inode,
and each is cleared once. The runs below may rely on the assertions of `writeLog` only.
-/

namespace Orfos.Fs

open Orfos.Base Orfos.Base.Traced Orfos.Lib

/-- The buffer cache has room for the block, or the assertions of `writeLog` hold. -/
def Spare : Call → State → Prop
  | .writeLog _, s => s.log.Ready
  | .get d b, s => Room (.get d b) s
  | .diskWrite _, _ => True
  | .unlock _, _ => True

instance (c : Call) (s : State) : Decidable (Spare c s) :=
  match c with
  | .get d b => inferInstanceAs (Decidable (Room (.get d b) s))
  | .diskWrite _ => isTrue trivial
  | .writeLog _ => inferInstanceAs (Decidable s.log.Ready)
  | .unlock _ => isTrue trivial

/-- Programs that have to return as long as the cache and the log have room. -/
def writing : Terms := ⟨Spare, id, fun _ ↦ True, True⟩

theorem writing_logs : writing.Logs := fun _ _ _ h ↦ h

/-- The blocks at some places that are not 0. -/
def references {κ : Type} (f : κ → UInt32) (ks : List κ) : List UInt32 :=
  (ks.map f).filter (· ≠ 0)

/-- The entries of an indirect block. -/
def entries (s : State) (b : UInt32) (k : Nat) : UInt32 := getU32 (view s b) (4 * k)

/-- The indirect block of an inode behind the blocks in it. -/
def indirects (s : State) (d : DiskInode) : List UInt32 :=
  if d.indirectBlock = 0 then []
  else references (entries s d.indirectBlock) (List.range NUM_INDIRECT_BLOCKS) ++
    [d.indirectBlock]

/-- The blocks that an inode references. -/
def ownBlocks (s : State) (d : DiskInode) : List UInt32 :=
  references d.directBlocks (List.finRange NUM_DIRECT_BLOCKS) ++ indirects s d

/-- A disk inode without blocks. -/
def emptied (d : DiskInode) : DiskInode :=
  { d with size := 0, directBlocks := fun _ ↦ 0, indirectBlock := 0 }

/-- What a consistent file system says about an inode: its blocks are data blocks that are marked,
and none of them is referenced twice. Others may hold the buffers of other blocks. -/
structure Consistent (s : State) (held : Finset UInt32) (i : Nat) : Prop where
  inside : Open s held
  layout : Layout s
  device : (s.itable.inodes i).device = s.log.device
  inum : (s.itable.inodes i).inum < s.superBlock.numInodes
  once : (ownBlocks s (s.itable.inodes i).dinode).Nodup
  marked : ∀ b ∈ ownBlocks s (s.itable.inodes i).dinode, marked s b = true
  data : ∀ b ∈ ownBlocks s (s.itable.inodes i).dinode,
    dataStart s.superBlock ≤ b.toNat ∧ b < s.superBlock.size
  free : ∀ b ∈ ownBlocks s (s.itable.inodes i).dinode, bblock b s.superBlock ∉ held
  indirect : (s.itable.inodes i).dinode.indirectBlock ∉ held
  block : iblock (s.itable.inodes i).inum s.superBlock ∉ held

/-- What `truncate` has done: exactly the marks of the blocks of the inode are cleared, the inode is
empty in memory and in its slot, and other inodes and the data blocks are as they were. -/
structure Truncated (s : State) (held : Finset UInt32) (i : Nat) (t : State) : Prop where
  frame : t = { s with
    cache := t.cache
    log := { s.log with header := t.log.header }
    itable := (s.setInode i fun x ↦ { x with dinode := emptied x.dinode }).itable }
  inside : Open t held
  marks : ∀ b : UInt32, b.toNat / BITS_PER_BLOCK ≤ s.superBlock.size.toNat / BITS_PER_BLOCK →
    Fs.marked t b =
      (Fs.marked s b && decide (b ∉ ownBlocks s (s.itable.inodes i).dinode))
  slot : dinodeOf t (s.itable.inodes i).inum = emptied (s.itable.inodes i).dinode
  others : ∀ m < s.superBlock.numInodes, m ≠ (s.itable.inodes i).inum →
    dinodeOf t m = dinodeOf s m
  data : ∀ b : UInt32, dataStart s.superBlock ≤ b.toNat → view t b = view s b

/-- The blocks `bs` have been freed, and the inode is `d` in memory. -/
structure Freed (s : State) (held : Finset UInt32) (i : Nat) (bs : List UInt32) (d : DiskInode)
    (t : State) : Prop where
  frame : t = { s with
    cache := t.cache
    log := { s.log with header := t.log.header }
    itable := (s.setInode i fun x ↦ { x with dinode := d }).itable }
  inside : Open t held
  logged : s.log.header ⊆ t.log.header
  marks : ∀ b, bitOf s.superBlock (view t) b =
    (bitOf s.superBlock (view s) b && decide (b ∉ bs))
  others : ∀ c, (∀ b ∈ bs, c ≠ bblock b s.superBlock) → view t c = view s c

section

variable {s t : State} {held held' : Finset UInt32} {i : Nat} {b c : UInt32}
  {bs more : List UInt32} {d d' : DiskInode}

/-- A block in the middle of the blocks of an inode. -/
theorem Consistent.next (h : Consistent s held i)
    (hown : bs ++ b :: more = ownBlocks s (s.itable.inodes i).dinode) :
    b ∈ ownBlocks s (s.itable.inodes i).dinode ∧ b ∉ bs := by
  refine ⟨hown ▸ List.mem_append_right bs (List.mem_cons_self ..), fun hb ↦ ?_⟩
  have hnd := h.once
  rw [← hown] at hnd
  exact (List.nodup_append.mp hnd).2.2 b hb b (List.mem_cons_self ..) rfl

/-- The bitmap block of a block of an inode is a block of the bitmap. -/
theorem Consistent.bblock_area (h : Consistent s held i)
    (hb : b ∈ ownBlocks s (s.itable.inodes i).dinode) :
    s.superBlock.bmapStart.toNat ≤ (bblock b s.superBlock).toNat ∧
      (bblock b s.superBlock).toNat < dataStart s.superBlock := by
  obtain ⟨hplace, hbelow⟩ := h.layout.bblock_toNat (h.data b hb).2
  exact ⟨by omega, hbelow⟩

/-- A freed block is one less. -/
theorem Freed.next (hs : Consistent s held i) (h : Freed s held' i bs d t)
    (hown : bs ++ b :: more = ownBlocks s (s.itable.inodes i).dinode)
    (hfree : bblock b s.superBlock ∉ held') :
    Ensures writing.regime (freeBlock s.log.device b) t fun _ u ↦
      Moves t u (bblock b s.superBlock) ∧ Freed s held' i (bs ++ [b]) d u := by
  obtain ⟨hmem, hfresh⟩ := hs.next hown
  have hsb : t.superBlock = s.superBlock := by rw [h.frame]
  have hlog : t.log.device = s.log.device ∧ t.log.start = s.log.start ∧
      t.log.size = s.log.size := by
    rw [h.frame]
    exact ⟨rfl, rfl, rfl⟩
  have hmarked : Fs.marked t b = true := by
    have hbit := h.marks b
    rw [decide_eq_true hfresh, Bool.and_true] at hbit
    rw [Fs.marked, hsb]
    exact hbit.trans (hs.marked b hmem)
  have hout : ¬ InLog t.log.start t.log.size (bblock b s.superBlock) := by
    rw [hlog.2.1, hlog.2.2]
    have harea := hs.bblock_area hmem
    have horder := hs.layout.order
    exact hs.layout.notMem_log (by omega)
  rw [← hlog.1]
  refine (freeBlock_logs writing_logs h.inside.calm (fun _ ↦ trivial)
    (fun _ ↦ ⟨by rwa [hsb], hmarked⟩)).imp ?_
  rintro _ u ⟨hm, -, -, hlu, hroom, hu, hvu⟩
  rw [hsb] at hm hlu hvu
  have hlists : u.log.Lists := hlu ▸ h.inside.lists.logged hroom hout
  refine ⟨hm, ?_, hlists.toOpen hu, fun x hx ↦ ?_, fun x ↦ ?_, fun x hx ↦ ?_⟩
  · rw [hm.frame, h.frame]
  · rw [hlu, Log.logged]
    split
    · exact h.logged hx
    · exact List.mem_append_left _ (h.logged hx)
  · have hbit := @bitOf_update s.superBlock (view t) b x
      (clearBit (view t (bblock b s.superBlock)) (b.toNat % BITS_PER_BLOCK))
      (fun _ ↦ false) fun j ↦ by
        rw [bitAt_clearBit _ _ (by change b.toNat % 8192 / 8 < 1024; omega)]
        by_cases hj : j = b.toNat % BITS_PER_BLOCK <;> simp [hj]
    rw [hvu, hbit, h.marks x]
    by_cases hx : x = b <;> simp [hx]
  · rw [hvu, Function.update_of_ne (hx b (by simp))]
    exact h.others x fun y hy ↦ hx y (by simp [hy])

/-- The inode in memory after some blocks were freed. -/
theorem Freed.inode (h : Freed s held i bs d t) :
    t.itable.inodes i = { s.itable.inodes i with dinode := d } := by
  rw [h.frame]
  exact Function.update_self ..

/-- A change of the inode in memory. -/
theorem Freed.setDinode (h : Freed s held i bs d t) (f : DiskInode → DiskInode) (hf : f d = d') :
    Freed s held i bs d' (t.setInode i fun x ↦ { x with dinode := f x.dinode }) := by
  have hview : view (t.setInode i fun x ↦ { x with dinode := f x.dinode }) = view t :=
    view_congr rfl rfl rfl
  refine ⟨?_, h.inside.congr rfl rfl, h.logged, ?_, ?_⟩
  · subst hf
    rw [h.frame]
    simp [State.setInode]
  · rw [hview]
    exact h.marks
  · rw [hview]
    exact h.others

/-- The direct blocks `ks` are left. -/
def remaining (d : DiskInode) (ks : List (Fin NUM_DIRECT_BLOCKS)) : DiskInode :=
  { d with directBlocks := fun k ↦ if k ∈ ks then d.directBlocks k else 0 }

/-- A block of the inode is not in the bitmap. -/
theorem Consistent.ne_bblock (h : Consistent s held i)
    (hb : b ∈ ownBlocks s (s.itable.inodes i).dinode)
    (hc : c ∈ ownBlocks s (s.itable.inodes i).dinode) : c ≠ bblock b s.superBlock := by
  rintro rfl
  have harea := h.bblock_area hb
  have hdata := (h.data _ hc).1
  omega

/-- The cache may change as long as the contents stay. -/
theorem Freed.of_local (h : Freed s held i bs d t) {u : State} (hl : Local t u b)
    (hc : Calm u t.log.header.toFinset held') (hv : view u = view t) :
    Freed s held' i bs d u := by
  have hlog : u.log = t.log := by rw [hl.frame]
  refine ⟨?_, h.inside.of_local hl hc, ?_, ?_, ?_⟩
  · rw [hl.frame, h.frame]
  · rw [hlog]
    exact h.logged
  · rw [hv]
    exact h.marks
  · rw [hv]
    exact h.others

/-- The blocks of an inode are apart from those of the disk inodes. -/
theorem Consistent.iblock_lt (h : Consistent s held i) {n : UInt32}
    (hn : n < s.superBlock.numInodes) :
    (iblock n s.superBlock).toNat < s.superBlock.bmapStart.toNat :=
  (h.layout.iblock_toNat hn).2

/-- A bitmap block of the marks that `Truncated` is about. -/
theorem Consistent.mark_area (h : Consistent s held i)
    (hb : b.toNat / BITS_PER_BLOCK ≤ s.superBlock.size.toNat / BITS_PER_BLOCK) :
    s.superBlock.bmapStart.toNat ≤ (bblock b s.superBlock).toNat := by
  have hmap := h.layout.bitmap
  have hz := s.superBlock.size.toNat_lt
  have hdiv : (b / UInt32.ofNat BITS_PER_BLOCK).toNat = b.toNat / BITS_PER_BLOCK :=
    UInt32.toNat_div ..
  have hsum : b.toNat / BITS_PER_BLOCK + s.superBlock.bmapStart.toNat < 2 ^ 32 := by omega
  rw [bblock, UInt32.toNat_add, hdiv, Nat.mod_eq_of_lt hsum]
  exact Nat.le_add_left ..

/-- The end of `truncate`, when all blocks are freed. -/
theorem Freed.close (hs : Consistent s held i)
    (h : Freed s held i (ownBlocks s (s.itable.inodes i).dinode)
      { remaining (s.itable.inodes i).dinode [] with indirectBlock := 0 } t) :
    Ensures writing.regime (do
      Inode.setDinode i fun d ↦ { d with size := 0 }
      Inode.update i) t fun _ ↦ Truncated s held i := by
  have hempty : ({ remaining (s.itable.inodes i).dinode [] with
      indirectBlock := 0, size := 0 } : DiskInode) = emptied (s.itable.inodes i).dinode := by
    simp [remaining, emptied]
  have hset := h.setDinode (fun d ↦ { d with size := 0 }) hempty
  refine ensures_modify_bind ?_
  set u := t.setInode i fun x ↦ { x with dinode := { x.dinode with size := 0 } }
  have hinode := hset.inode
  have hinum : (u.itable.inodes i).inum = (s.itable.inodes i).inum := by rw [hinode]
  have hdinode : (u.itable.inodes i).dinode = emptied (s.itable.inodes i).dinode := by rw [hinode]
  have hsb : u.superBlock = s.superBlock := by rw [hset.frame]
  have hlog : u.log.device = s.log.device ∧ u.log.start = s.log.start ∧
      u.log.size = s.log.size := by
    rw [hset.frame]
    exact ⟨rfl, rfl, rfl⟩
  have hplace := hs.layout.iblock_toNat hs.inum
  have horder := hs.layout.order
  refine (Inode.update_logs writing_logs hset.inside (fun _ ↦ trivial) ?_ ?_ ?_).imp ?_
  · rw [hinode, hlog.1]
    exact hs.device
  · intro _
    rw [hinum, hsb]
    exact hs.block
  · rw [hinum, hsb, hlog.2.1, hlog.2.2]
    exact hs.layout.notMem_log (by omega)
  rintro _ w ⟨hm, hw, hvw⟩
  rw [hinum, hsb, hdinode] at hvw
  rw [hinum, hsb] at hm
  -- the disk inodes are not in the bitmap blocks of the freed blocks
  have hiblock : ∀ n < s.superBlock.numInodes,
      view u (iblock n s.superBlock) = view s (iblock n s.superBlock) := by
    intro n hn
    refine hset.others _ fun b hb he ↦ ?_
    have harea := hs.bblock_area hb
    have hbelow := hs.iblock_lt hn
    rw [he] at hbelow
    omega
  have hstore : ∀ m < s.superBlock.numInodes, dinodeOf w m =
      if m = (s.itable.inodes i).inum then emptied (s.itable.inodes i).dinode
      else dinodeOf s m := by
    intro m hmn
    have hlay : Layout u := hs.layout.congr hlog.2.1 hlog.2.2 hsb
    have hst := hlay.dinodeOf_store (t := w) (n := (s.itable.inodes i).inum) (m := m)
      (by rw [hsb]; exact hs.inum) (by rw [hsb]; exact hmn) (by rw [hm.frame])
      (d := emptied (s.itable.inodes i).dinode) (by rw [hvw, hsb])
    rw [hst, dinodeOf, dinodeOf, hsb, hiblock m hmn]
  refine ⟨?_, hw, fun b hb ↦ ?_, ?_, fun m hmn hne ↦ ?_, fun b hb ↦ ?_⟩
  · rw [hm.frame, hset.frame]
    rfl
  · have hne : bblock b s.superBlock ≠ iblock (s.itable.inodes i).inum s.superBlock := by
      intro he
      have harea := hs.mark_area hb
      rw [he] at harea
      omega
    have hsw : w.superBlock = s.superBlock := by rw [hm.frame, hsb]
    rw [Fs.marked, hsw, hvw, Function.update_of_ne hne]
    exact hset.marks b
  · rw [hstore _ hs.inum, if_pos rfl]
  · rw [hstore m hmn, if_neg hne]
  · have hne : b ≠ iblock (s.itable.inodes i).inum s.superBlock := by
      rintro rfl
      omega
    rw [hvw, Function.update_of_ne hne]
    refine hset.others _ fun c hc he ↦ ?_
    have harea := hs.bblock_area hc
    rw [← he] at harea
    omega

/-- The indirect block is as on the disk if it is not logged. -/
theorem Freed.clean (h : Freed s held' i bs d t) (hs : Consistent s held i)
    (hown : bs ++ [b] = ownBlocks s (s.itable.inodes i).dinode) (hfree : b ∉ held) :
    b ∈ t.log.header.toFinset ∨ view t b = t.disk b := by
  have hmem : ∀ c ∈ bs ++ [b], c ∈ ownBlocks s (s.itable.inodes i).dinode := by
    rw [hown]
    exact fun _ hc ↦ hc
  by_cases hb : b ∈ s.log.header
  · exact .inl (List.mem_toFinset.mpr (h.logged hb))
  · right
    have hview : view t b = view s b := h.others b fun c hc ↦
      hs.ne_bblock (hmem c (List.mem_append_left _ hc)) (hmem b (by simp))
    have hdisk : t.disk = s.disk := by rw [h.frame]
    rw [hview, hdisk]
    exact hs.inside.view_eq_disk hb hfree

end

/-- The disk of `mapped`: the blocks up to 62 are marked, and block 61 has the entry 62. -/
def mappedDisk (b : UInt32) : Block :=
  if b = 46 then fun k ↦ if k.val < 7 then 255 else if k.val = 7 then 127 else 0
  else if b = 61 then putU32 Block.zero 0 62
  else Block.zero

/-- A transaction with a locked file of two blocks, one of them behind the indirect block. -/
def mapped : State :=
  let s := (started mappedDisk).newInode 1 5
  let file : DiskInode := ⟨T_FILE, 0, 0, 0, 12304, Function.update (fun _ ↦ 0) 0 60, 61⟩
  let s := s.setInode 0 fun x ↦ { x with locked := true, valid := true, dinode := file }
  { s with log := { s.log with outstanding := 1 } }

end Orfos.Fs
