import Orfos.Fs.Directory

/-!
# Disk inodes in their slots

`Inode::update` stores the in-memory inode in the slot with its number, and nothing else changes.
-/

namespace Orfos.Fs

open Orfos.Base Orfos.Base.Traced Orfos.Lib

/-- A blank block has blank entries. -/
theorem getU32_zero (o : Nat) : getU32 Block.zero o = 0 := by
  have hbyte : ∀ k, byteAt Block.zero k = 0 := fun k ↦ by
    unfold byteAt
    split
    · rfl
    · rfl
  simp [getU32, getLe, hbyte]

namespace DiskInode

/-- A stored disk inode is loaded again. -/
theorem load_store_same (d : DiskInode) (data : Block) {o : Nat} (h : o + 64 ≤ BLOCK_SIZE) :
    load (d.store o data) o = d := by
  have h' : o + 64 ≤ 1024 := h
  have hlen : (List.ofFn d.directBlocks).length = 12 := List.length_ofFn
  have hdirect : ∀ k : Fin NUM_DIRECT_BLOCKS,
      getU32 (d.store o data) (o + 12 + 4 * k.val) = d.directBlocks k := by
    intro k
    have hk : k.val < 12 := k.isLt
    have hblock := getU32_putBlocks (List.ofFn d.directBlocks) (o + 12)
      (putU32 (putU16 (putU16 (putU16 (putU16 data o d.type) (o + 2) d.major) (o + 4) d.minor)
        (o + 6) d.numLinks) (o + 8) d.size) k (by omega) (by rw [hlen]; change _ ≤ 1024; omega)
    rw [List.getElem_ofFn] at hblock
    rw [store, getU32, putU32, getLe_putLe_disjoint _ _ (by omega)]
    exact hblock
  have hword : ∀ (b : Block) (v : UInt16) (k : Nat), k + 2 ≤ 64 →
      UInt16.ofNat (getLe (putLe b (o + k) 2 v.toNat) (o + k) 2) = v :=
    fun b v k hk ↦ getU16_putU16_same b v (by change _ ≤ 1024; omega)
  have hlong : ∀ (b : Block) (v : UInt32) (k : Nat), k + 4 ≤ 64 →
      UInt32.ofNat (getLe (putLe b (o + k) 4 v.toNat) (o + k) 4) = v :=
    fun b v k hk ↦ getU32_putU32_same b v (by change _ ≤ 1024; omega)
  have htype : getU16 (d.store o data) o = d.type := by
    simp (disch := omega) only [store, getU16, putU16, putU32, getLe_putLe_disjoint,
      getLe_putBlocks_disjoint]
    exact hword _ _ 0 (by omega)
  have hmajor : getU16 (d.store o data) (o + 2) = d.major := by
    simp (disch := omega) only [store, getU16, putU16, putU32, getLe_putLe_disjoint,
      getLe_putBlocks_disjoint, hword]
  have hminor : getU16 (d.store o data) (o + 4) = d.minor := by
    simp (disch := omega) only [store, getU16, putU16, putU32, getLe_putLe_disjoint,
      getLe_putBlocks_disjoint, hword]
  have hlinks : getU16 (d.store o data) (o + 6) = d.numLinks := by
    simp (disch := omega) only [store, getU16, putU16, putU32, getLe_putLe_disjoint,
      getLe_putBlocks_disjoint, hword]
  have hsize : getU32 (d.store o data) (o + 8) = d.size := by
    simp (disch := omega) only [store, getU32, putU16, putU32, getLe_putLe_disjoint,
      getLe_putBlocks_disjoint, hlong]
  have hindirect : getU32 (d.store o data) (o + 60) = d.indirectBlock := by
    simp (disch := omega) only [store, getU32, putU32, hlong]
  rw [load, htype, hmajor, hminor, hlinks, hsize, hindirect, funext hdirect]

/-- A disk inode is loaded from a slot other than the stored one as before. -/
theorem load_store_other (d : DiskInode) (data : Block) {o o' : Nat}
    (h : o' + 64 ≤ o ∨ o + 64 ≤ o') : load (d.store o data) o' = load data o' := by
  have hlen : (List.ofFn d.directBlocks).length = 12 := List.length_ofFn
  have hget : ∀ k n, k + n ≤ 64 →
      getLe (d.store o data) (o' + k) n = getLe data (o' + k) n := by
    intro k n hk
    simp (disch := omega) only [store, putU16, putU32, getLe_putLe_disjoint,
      getLe_putBlocks_disjoint]
  have hdirect : ∀ k : Fin NUM_DIRECT_BLOCKS,
      getU32 (d.store o data) (o' + 12 + 4 * k.val) = getU32 data (o' + 12 + 4 * k.val) := by
    intro k
    have hk : k.val < 12 := k.isLt
    rw [getU32, getU32, Nat.add_assoc, hget _ _ (by omega)]
  have h0 : getU16 (d.store o data) o' = getU16 data o' := by
    rw [getU16, getU16]
    exact congrArg _ (hget 0 2 (by omega))
  have hword : ∀ k, k + 2 ≤ 64 →
      getU16 (d.store o data) (o' + k) = getU16 data (o' + k) := fun k hk ↦ by
    rw [getU16, getU16, hget k 2 hk]
  have hlong : ∀ k, k + 4 ≤ 64 →
      getU32 (d.store o data) (o' + k) = getU32 data (o' + k) := fun k hk ↦ by
    rw [getU32, getU32, hget k 4 hk]
  rw [load, load, h0, hword 2 (by omega), hword 4 (by omega), hword 6 (by omega),
    hlong 8 (by omega), hlong 60 (by omega), funext hdirect]

end DiskInode

/-- The parts of the disk follow one another: the log, the inodes, the bitmap and the data. -/
structure Layout (s : State) : Prop where
  log : ∀ b, InLog s.log.start s.log.size b → b < s.superBlock.inodeStart
  inodes : s.superBlock.inodeStart.toNat + s.superBlock.numInodes.toNat / INODES_PER_BLOCK + 1 ≤
    s.superBlock.bmapStart.toNat
  bitmap : s.superBlock.bmapStart.toNat + s.superBlock.size.toNat / BITS_PER_BLOCK + 1 ≤
    s.superBlock.size.toNat

/-- The first block behind the bitmap. -/
def dataStart (sb : SuperBlock) : Nat := sb.bmapStart.toNat + sb.size.toNat / BITS_PER_BLOCK + 1

section

variable {s t : State} {i : Nat} {n m b : UInt32}

theorem Layout.congr (h : Layout s) (hl : t.log.start = s.log.start)
    (hz : t.log.size = s.log.size) (hsb : t.superBlock = s.superBlock) : Layout t := by
  refine ⟨?_, ?_, ?_⟩
  · rw [hl, hz, hsb]; exact h.log
  · rw [hsb]; exact h.inodes
  · rw [hsb]; exact h.bitmap

/-- Where the parts of the disk start. -/
theorem Layout.order (h : Layout s) :
    s.superBlock.inodeStart.toNat < s.superBlock.bmapStart.toNat ∧
      s.superBlock.bmapStart.toNat < dataStart s.superBlock ∧
        dataStart s.superBlock ≤ s.superBlock.size.toNat := by
  have hi : s.superBlock.inodeStart.toNat + s.superBlock.numInodes.toNat / 16 + 1 ≤
    s.superBlock.bmapStart.toNat := h.inodes
  have hd : dataStart s.superBlock =
    s.superBlock.bmapStart.toNat + s.superBlock.size.toNat / 8192 + 1 := rfl
  refine ⟨by omega, by omega, h.bitmap⟩

/-- The block of a disk inode. -/
theorem Layout.iblock_toNat (h : Layout s) (hn : n < s.superBlock.numInodes) :
    (iblock n s.superBlock).toNat = n.toNat / 16 + s.superBlock.inodeStart.toNat ∧
      (iblock n s.superBlock).toNat < s.superBlock.bmapStart.toNat := by
  have hi : s.superBlock.inodeStart.toNat + s.superBlock.numInodes.toNat / 16 + 1 ≤
    s.superBlock.bmapStart.toNat := h.inodes
  have hn' := UInt32.lt_iff_toNat_lt.mp hn
  have hb := s.superBlock.bmapStart.toNat_lt
  have hq : n.toNat / 16 ≤ s.superBlock.numInodes.toNat / 16 := Nat.div_le_div_right hn'.le
  have he : (iblock n s.superBlock).toNat =
      (n.toNat / 16 + s.superBlock.inodeStart.toNat) % 4294967296 := by
    rw [iblock, UInt32.toNat_add, UInt32.toNat_div]
    rfl
  rw [he, Nat.mod_eq_of_lt (by omega)]
  omega

/-- The bitmap block of a block. -/
theorem Layout.bblock_toNat (h : Layout s) (hb : b < s.superBlock.size) :
    (bblock b s.superBlock).toNat = b.toNat / 8192 + s.superBlock.bmapStart.toNat ∧
      (bblock b s.superBlock).toNat < dataStart s.superBlock := by
  have hi : s.superBlock.bmapStart.toNat + s.superBlock.size.toNat / 8192 + 1 ≤
    s.superBlock.size.toNat := h.bitmap
  have hb' := UInt32.lt_iff_toNat_lt.mp hb
  have hz := s.superBlock.size.toNat_lt
  have hq : b.toNat / 8192 ≤ s.superBlock.size.toNat / 8192 := Nat.div_le_div_right hb'.le
  have he : (bblock b s.superBlock).toNat =
      (b.toNat / 8192 + s.superBlock.bmapStart.toNat) % 4294967296 := by
    rw [bblock, UInt32.toNat_add, UInt32.toNat_div]
    rfl
  have hd : dataStart s.superBlock =
      s.superBlock.bmapStart.toNat + s.superBlock.size.toNat / 8192 + 1 := rfl
  rw [he, hd, Nat.mod_eq_of_lt (by omega)]
  omega

/-- A block that is not before the inodes is not in the log. -/
theorem Layout.notMem_log (h : Layout s) (hb : s.superBlock.inodeStart.toNat ≤ b.toNat) :
    ¬ InLog s.log.start s.log.size b := by
  intro hl
  have := UInt32.lt_iff_toNat_lt.mp (h.log b hl)
  omega

/-- The slots of two inodes are apart. -/
theorem Layout.slots (h : Layout s) (hn : n < s.superBlock.numInodes)
    (hm : m < s.superBlock.numInodes) (hne : m ≠ n)
    (hb : iblock m s.superBlock = iblock n s.superBlock) :
    dinodeAt m + 64 ≤ dinodeAt n ∨ dinodeAt n + 64 ≤ dinodeAt m := by
  have hn' := (h.iblock_toNat hn).1
  have hm' := (h.iblock_toNat hm).1
  have hnm : m.toNat ≠ n.toNat := fun he ↦ hne (UInt32.toNat_inj.mp he)
  rw [hb, hn'] at hm'
  have hat : ∀ k : UInt32, dinodeAt k = 64 * (k.toNat % 16) := fun _ ↦ rfl
  rw [hat, hat]
  omega

/-- The disk inodes after one of them was stored. -/
theorem Layout.dinodeOf_store (h : Layout s) (hn : n < s.superBlock.numInodes)
    (hm : m < s.superBlock.numInodes) (hsb : t.superBlock = s.superBlock) {d : DiskInode}
    (hv : view t = Function.update (view s) (iblock n s.superBlock)
      (d.store (dinodeAt n) (view s (iblock n s.superBlock)))) :
    dinodeOf t m = if m = n then d else dinodeOf s m := by
  rw [dinodeOf, hsb, hv]
  split
  · next he =>
    subst he
    rw [Function.update_self]
    refine DiskInode.load_store_same d _ ?_
    have : m.toNat % 16 < 16 := Nat.mod_lt _ (by decide)
    change 64 * (m.toNat % 16) + 64 ≤ 1024
    omega
  · next hne =>
    by_cases hb : iblock m s.superBlock = iblock n s.superBlock
    · rw [hb, Function.update_self, DiskInode.load_store_other d _ (h.slots hn hm hne hb),
        dinodeOf, hb]
    · rw [Function.update_of_ne hb, dinodeOf]

end

/-- An in-memory inode overwritten by itself. -/
theorem setInode_same {s : State} {i : Nat} {f : Inode → Inode}
    (h : f (s.itable.inodes i) = s.itable.inodes i) : s.setInode i f = s := by
  rw [State.setInode, h, Function.update_eq_self]

/-- A buffer overwritten by itself. -/
theorem setBuffer_same {s : State} {i : Nat} {f : Buffer → Buffer}
    (h : f (s.cache.buffers i) = s.cache.buffers i) : s.setBuffer i f = s := by
  rw [State.setBuffer, h, Function.update_eq_self]

/-- `update` logs the in-memory inode in its slot. -/
theorem Inode.update_ready {T : Terms} {s : State} {held : Finset UInt32} {i : Nat}
    (hT : T.LogsAt s.log) (h : Open s held) (hc : T.crash s.disk)
    (hdev : (s.itable.inodes i).device = s.log.device)
    (hfree : T.total → iblock (s.itable.inodes i).inum s.superBlock ∉ held)
    (ho : ¬ InLog s.log.start s.log.size (iblock (s.itable.inodes i).inum s.superBlock)) :
    Ensures T.regime (Inode.update i) s fun _ t ↦
      Moves s t (iblock (s.itable.inodes i).inum s.superBlock) ∧
        t.log = s.log.logged (iblock (s.itable.inodes i).inum s.superBlock) ∧ Open t held ∧
          view t = Function.update (view s) (iblock (s.itable.inodes i).inum s.superBlock)
            ((s.itable.inodes i).dinode.store (dinodeAt (s.itable.inodes i).inum)
              (view s (iblock (s.itable.inodes i).inum s.superBlock))) := by
  refine ensures_gets_bind (ensures_gets_bind ?_)
  rw [hdev]
  refine hold_ensures h.calm hc hfree fun bp t hn hl hp ht hv ↦ ?_
  have hlog : t.log = s.log := by rw [hl.frame]
  have hdt : t.disk = s.disk := by rw [hl.frame]
  refine (store_log_ready (by rwa [hlog]) (by rwa [hlog]) (T.crash_of_eq hc hdt)
    (Finset.mem_insert_self _ _) hp fun data ↦
      (s.itable.inodes i).dinode.store (dinodeAt (s.itable.inodes i).inum) data).imp ?_
  rintro _ u ⟨hm, hlu, hroom, hu, hvu⟩
  rw [hlog] at hlu hroom
  rw [Finset.erase_insert hn] at hu
  rw [hv] at hvu
  have hlists : u.log.Lists := hlu ▸ h.lists.logged hroom ho
  exact ⟨hl.toMoves.trans hm, hlu, hlists.toOpen hu, hvu⟩

/-- As `Inode.update_ready`, where the calls promise the assertions of `writeLog`. -/
theorem Inode.update_logs {T : Terms} {s : State} {held : Finset UInt32} {i : Nat}
    (hT : T.Logs) (h : Open s held) (hc : ∀ d, T.crash d)
    (hdev : (s.itable.inodes i).device = s.log.device)
    (hfree : T.total → iblock (s.itable.inodes i).inum s.superBlock ∉ held)
    (ho : ¬ InLog s.log.start s.log.size (iblock (s.itable.inodes i).inum s.superBlock)) :
    Ensures T.regime (Inode.update i) s fun _ t ↦
      Moves s t (iblock (s.itable.inodes i).inum s.superBlock) ∧ Open t held ∧
        view t = Function.update (view s) (iblock (s.itable.inodes i).inum s.superBlock)
          ((s.itable.inodes i).dinode.store (dinodeAt (s.itable.inodes i).inum)
            (view s (iblock (s.itable.inodes i).inum s.superBlock))) := by
  refine (update_ready (hT.toLogsAt _) h (hc _) hdev hfree ho).imp ?_
  rintro _ _ ⟨hm, -, ht, hv⟩
  exact ⟨hm, ht, hv⟩

/-- `update` stores the in-memory inode in its slot. -/
theorem Inode.update_ensures {s : State} {i : Nat} (h : Open s ∅)
    (hdev : (s.itable.inodes i).device = s.log.device)
    (ho : ¬ InLog s.log.start s.log.size (iblock (s.itable.inodes i).inum s.superBlock)) :
    Ensures anywhere.regime (Inode.update i) s fun _ t ↦
      Moves s t (iblock (s.itable.inodes i).inum s.superBlock) ∧ Open t ∅ ∧
        view t = Function.update (view s) (iblock (s.itable.inodes i).inum s.superBlock)
          ((s.itable.inodes i).dinode.store (dinodeAt (s.itable.inodes i).inum)
            (view s (iblock (s.itable.inodes i).inum s.superBlock))) :=
  Inode.update_logs (T := anywhere) False.elim h (fun _ ↦ trivial) hdev False.elim ho

end Orfos.Fs
