import Orfos.Fs.Tally

/-!
# Reading directories

On a file system whose directories have all blocks below their size allocated and direct, the
functions that look at inodes and directories change nothing but the buffer cache and the local
variables, and return what the cache and the disk show together.
-/

namespace Orfos.Fs

open Orfos.Base Orfos.Base.Traced Orfos.Lib

/-- The disk inode with a number, as the cache and the disk show it. -/
def dinodeOf (s : State) (n : UInt32) : DiskInode :=
  DiskInode.load (view s (iblock n s.superBlock)) (dinodeAt n)

/-- The bytes of the directory entry at an offset. -/
def entryAt (s : State) (d : DiskInode) (o : Nat) : List UInt8 :=
  if h : o / BLOCK_SIZE < NUM_DIRECT_BLOCKS then
    Inode.slice (view s (d.directBlocks ⟨o / BLOCK_SIZE, h⟩)) (o % BLOCK_SIZE) ENTRY_SIZE
  else []

/-- The number in a directory entry. -/
def inumOf (entry : List UInt8) : UInt32 :=
  (entry.getD 0 0).toUInt32 + 256 * (entry.getD 1 0).toUInt32

/-- The entry has a number and, for `strncmp`, the name. -/
def Names (s : State) (name : Name) (entry : List UInt8) : Prop :=
  inumOf entry ≠ 0 ∧ strncmpZero s.overrun (List.ofFn name) (entry.drop 2) = true

instance (s : State) (name : Name) (entry : List UInt8) : Decidable (Names s name entry) :=
  inferInstanceAs (Decidable (_ ∧ _))

/-- The number that a directory has for a name, in one of `n` entries from the one at `k` on. -/
def listedFrom (s : State) (d : DiskInode) (name : Name) : Nat → Nat → Option UInt32
  | 0, _ => none
  | n + 1, k =>
    if Names s name (entryAt s d (ENTRY_SIZE * k)) then
      some (inumOf (entryAt s d (ENTRY_SIZE * k)))
    else listedFrom s d name n (k + 1)

/-- The number that a directory has for a name. -/
def listed (s : State) (d : DiskInode) (name : Name) : Option UInt32 :=
  listedFrom s d name (d.size.toNat / ENTRY_SIZE) 0

/-- A directory of whole entries, with direct blocks, that names inodes of the file system. -/
structure Mapped (s : State) (d : DiskInode) : Prop where
  whole : d.size.toNat % ENTRY_SIZE = 0
  direct : d.size.toNat ≤ NUM_DIRECT_BLOCKS * BLOCK_SIZE
  mapped : ∀ bn : Fin NUM_DIRECT_BLOCKS, bn * BLOCK_SIZE < d.size.toNat → d.directBlocks bn ≠ 0
  entries : ∀ k < d.size.toNat / ENTRY_SIZE,
    inumOf (entryAt s d (ENTRY_SIZE * k)) < s.superBlock.numInodes

/-- The files and directories of two states look the same. -/
structure Shown (s t : State) : Prop where
  view : view t = view s
  superBlock : t.superBlock = s.superBlock
  overrun : t.overrun = s.overrun

/-- The file system inside a transaction: the inodes are not in the log, those in use have a
link, and directories are mapped. -/
structure Stored (s : State) : Prop where
  inside : Open s ∅
  area : ∀ n < s.superBlock.numInodes,
    ¬ InLog s.log.start s.log.size (iblock n s.superBlock)
  linked : ∀ n < s.superBlock.numInodes, (dinodeOf s n).type ≠ 0 → (dinodeOf s n).numLinks ≠ 0
  mapped : ∀ n < s.superBlock.numInodes, (dinodeOf s n).type = T_DIR → Mapped s (dinodeOf s n)

/-- From `s` to `t` at most the cache and the memory of the kernel have changed, and the contents
of the blocks are the same. -/
structure Reads (s t : State) : Prop where
  frame : t = { s with cache := t.cache, kernel := t.kernel }
  inside : Open t ∅
  view : view t = view s

/-- In `t` a function that started in `s` holds a buffer, and has not changed its contents. -/
structure Held (s t : State) (b : UInt32) (bp : Nat) : Prop where
  log : t.log = s.log
  disk : t.disk = s.disk
  ptr : Ptr t bp b
  calm : Calm t s.log.header.toFinset {b}
  view : view t = view s

section

variable {p : Prop} {s t u : State} {b : UInt32} {bp : Nat} {α : Type}

theorem Open.reads (h : Open s ∅) : Reads s s := ⟨rfl, h, rfl⟩

theorem Reads.trans (h : Reads s t) (h' : Reads t u) : Reads s u := by
  refine ⟨?_, h'.inside, h'.view.trans h.view⟩
  rw [h'.frame, h.frame]

theorem Shown.refl (s : State) : Shown s s := ⟨rfl, rfl, rfl⟩

theorem Shown.trans (h : Shown s t) (h' : Shown t u) : Shown s u :=
  ⟨h'.view.trans h.view, h'.superBlock.trans h.superBlock, h'.overrun.trans h.overrun⟩

theorem Reads.shown (h : Reads s t) : Shown s t :=
  ⟨h.view, by rw [h.frame], by rw [h.frame]⟩

theorem Shown.entryAt (h : Shown s t) (d : DiskInode) (o : Nat) :
    entryAt t d o = entryAt s d o := by
  rw [Fs.entryAt, Fs.entryAt, h.view]

theorem Shown.names_iff (h : Shown s t) (name : Name) (entry : List UInt8) :
    Names t name entry ↔ Names s name entry := by
  rw [Names, Names, h.overrun]

theorem Shown.listed (h : Shown s t) (d : DiskInode) (name : Name) :
    listed t d name = listed s d name := by
  have hfrom : ∀ n k, listedFrom t d name n k = listedFrom s d name n k := by
    intro n
    induction n with
    | zero => exact fun _ ↦ rfl
    | succ n ih =>
      intro k
      simp only [listedFrom, h.entryAt, h.names_iff, ih]
  exact hfrom _ _

theorem Held.congr (h : Held s t b bp) (hc : u.cache = t.cache) (hl : u.log = t.log)
    (hd : u.disk = t.disk) : Held s u b bp where
  log := hl.trans h.log
  disk := hd.trans h.disk
  ptr := h.ptr.congr hc (by rw [hl])
  calm := h.calm.congr hc (by rw [hl])
  view := (view_congr hc (by rw [hl]) hd).trans h.view

/-- A held block may be changed. -/
theorem Held.inside {b : UInt32} {bp : Nat} (h : Open s ∅) (ht : Held s t b bp) : Open t {b} := by
  refine ⟨?_, ?_, ?_, ?_, ?_⟩
  · rw [ht.log]; exact ht.calm
  · rw [ht.log]; exact h.nodup
  · rw [ht.log]; exact h.fits
  · rw [ht.log]; exact h.room
  · rw [ht.log]; exact h.outside

/-- The bytes of a held buffer. -/
theorem Held.data (h : Held s t b bp) : (t.cache.buffers bp).data = Fs.view s b := by
  rw [h.ptr.data, h.view]

/-- `get` and `read` hold a block. -/
theorem held_ensures {k : Nat → FsM α} {Q : α → State → Prop} (h : Open s ∅)
    (hk : ∀ bp t, t = { s with cache := t.cache } → Held s t b bp →
      Ensures (reading p).regime (k bp) t Q) :
    Ensures (reading p).regime (do
      let bp ← BufferCache.get s.log.device b
      Buffer.read bp
      k bp) s Q := by
  have hfree : (reading p).total → b ∉ (∅ : Finset UInt32) := fun _ ↦ Finset.notMem_empty b
  refine hold_ensures h.calm trivial hfree fun bp t _ hlt hptr hcalm hview ↦ ?_
  have hf := hlt.frame
  exact hk bp t hf ⟨by rw [hf], by rw [hf], hptr, hcalm, hview⟩

/-- `release` of a held buffer. -/
theorem Held.release (h : Open s ∅) (ht : Held s t b bp) :
    Ensures (reading p).regime (BufferCache.release bp) t fun _ u ↦
      u = { t with cache := u.cache } ∧ Open u ∅ ∧ Fs.view u = Fs.view s := by
  have hclean : b ∈ s.log.header.toFinset ∨ Fs.view t b = t.disk b := by
    by_cases hb : b ∈ s.log.header
    · exact .inl (List.mem_toFinset.mpr hb)
    · right
      rw [ht.view, ht.disk]
      exact h.view_eq_disk hb (Finset.notMem_empty b)
  refine (release_clean_ensures ht.calm trivial (by simp) ht.ptr hclean).imp ?_
  rintro _ u ⟨hlu, hcu, hvu⟩
  have hlog : u.log = s.log := by rw [hlu.frame, ht.log]
  refine ⟨hlu.frame, ⟨?_, ?_, ?_, ?_, ?_⟩, hvu.trans ht.view⟩
  · rw [hlog]
    simpa using hcu
  · rw [hlog]; exact h.nodup
  · rw [hlog]; exact h.fits
  · rw [hlog]; exact h.room
  · rw [hlog]; exact h.outside

theorem dinodeOf_congr (hv : view t = view s) (hsb : t.superBlock = s.superBlock) :
    dinodeOf t = dinodeOf s := by
  funext n
  rw [dinodeOf, dinodeOf, hv, hsb]

/-- The file system stays as it is if the contents stay. -/
theorem Stored.of_view (h : Stored s) (ht : Open t ∅) (hv : view t = view s)
    (hsb : t.superBlock = s.superBlock) (hstart : t.log.start = s.log.start)
    (hsize : t.log.size = s.log.size) : Stored t := by
  refine ⟨ht, ?_, ?_, ?_⟩
  · rw [hsb, hstart, hsize]
    exact h.area
  · rw [hsb, dinodeOf_congr hv hsb]
    exact h.linked
  · rw [hsb, dinodeOf_congr hv hsb]
    intro n hn hd
    obtain ⟨h₁, h₂, h₃, h₄⟩ := h.mapped n hn hd
    refine ⟨h₁, h₂, h₃, fun k hk ↦ ?_⟩
    rw [entryAt, hv, hsb]
    exact h₄ k hk

theorem Reads.stored (h : Reads s t) (hs : Stored s) : Stored t := by
  refine hs.of_view h.inside h.view ?_ ?_ ?_ <;> rw [h.frame]

end

namespace Inode

variable {p : Prop} {s t u : State} {i : Nat}

/-- `bmap` of an allocated direct block. -/
theorem bmap_ensures {bn : UInt32} (h : bn.toNat < NUM_DIRECT_BLOCKS)
    (hb : (s.itable.inodes i).dinode.directBlocks ⟨bn.toNat, h⟩ ≠ 0) :
    Ensures (reading p).regime (bmap i bn) s fun address t ↦
      address = (s.itable.inodes i).dinode.directBlocks ⟨bn.toNat, h⟩ ∧ t = s := by
  rw [bmap, dif_pos h]
  refine ensures_gets_bind ?_
  rw [if_neg hb]
  exact ensures_gets ⟨rfl, rfl⟩

/-- A copy to the memory of the kernel. -/
theorem eitherCopyout_ensures (dst : UInt64) (src : List UInt8) :
    Ensures (reading p).regime (eitherCopyout false dst src) s fun copied t ↦
      copied = true ∧ t = { s with kernel := fun a ↦ src.getD (a - dst).toNat (s.kernel a) } :=
  ensures_modify_bind (ensures_pure ⟨rfl, rfl⟩)

/-- The loop of `read` ends when all bytes are there. -/
theorem readFrom_end (n : Nat) (userDst : Bool) (dst : UInt64) (offset length : UInt32) :
    readFrom i userDst length n dst offset length = pure length.toInt32 := by
  cases n with
  | zero => rfl
  | succ n => rw [readFrom, if_neg (by simp)]

/-- A loop of `read` that ends in one block. -/
theorem readFrom_ensures (hs : Open s ∅) (hdev : (s.itable.inodes i).device = s.log.device)
    {n : Nat} {dst : UInt64} {offset length : UInt32}
    (hbn : offset.toNat / BLOCK_SIZE < NUM_DIRECT_BLOCKS)
    (hb : (s.itable.inodes i).dinode.directBlocks ⟨_, hbn⟩ ≠ 0) (hpos : 0 < length)
    (hlen : offset.toNat % BLOCK_SIZE + length.toNat ≤ BLOCK_SIZE) :
    Ensures (reading p).regime (readFrom i false length (n + 1) dst offset 0) s fun len t ↦
      len = length.toInt32 ∧ Reads s t ∧ t.kernel = fun a ↦ (slice
        (view s ((s.itable.inodes i).dinode.directBlocks ⟨_, hbn⟩)) (offset.toNat % BLOCK_SIZE)
        length.toNat).getD (a - dst).toNat (s.kernel a) := by
  have hq : (offset / UInt32.ofNat BLOCK_SIZE).toNat = offset.toNat / BLOCK_SIZE := by
    rw [UInt32.toNat_div]
    rfl
  have hfin : (⟨(offset / UInt32.ofNat BLOCK_SIZE).toNat, hq ▸ hbn⟩ : Fin NUM_DIRECT_BLOCKS) =
      ⟨_, hbn⟩ := Fin.ext hq
  unfold readFrom
  rw [if_pos hpos]
  refine ensures_bind (bmap_ensures (hq ▸ hbn) (by rwa [hfin])) ?_
  rintro address _ ⟨rfl, rfl⟩
  rw [hfin, if_neg hb]
  refine ensures_gets_bind ?_
  rw [hdev]
  refine held_ensures hs fun bp t hft ht ↦ ?_
  have hmin : min (length - 0).toNat (BLOCK_SIZE - offset.toNat % BLOCK_SIZE) =
      length.toNat := by
    rw [UInt32.sub_zero]
    omega
  simp only [hmin]
  refine ensures_gets_bind ?_
  rw [ht.data]
  refine ensures_bind (eitherCopyout_ensures _ _) ?_
  rintro copied u ⟨rfl, hu⟩
  have htu : Held _ u _ bp := ht.congr (by rw [hu]) (by rw [hu]) (by rw [hu])
  refine ensures_bind (htu.release hs) ?_
  rintro _ w ⟨hfw, hw, hvw⟩
  rw [if_pos rfl, UInt32.ofNat_toNat, UInt32.zero_add, readFrom_end]
  refine ensures_pure ⟨rfl, ⟨?_, hw, hvw⟩, ?_⟩
  · rw [hfw, hu, hft]
  · rw [hfw, hu, hft]

/-- An entry is inside one block of its directory. -/
private theorem entry_place {o size : Nat} (ho : o < size) (hz : o % 16 = 0) (hw : size % 16 = 0)
    (hd : size ≤ 12 * 1024) :
    o + 16 ≤ size ∧ o / 1024 < 12 ∧ o / 1024 * 1024 < size ∧ o % 1024 + 16 ≤ 1024 := by
  refine ⟨?_, ?_, ?_, ?_⟩ <;> omega

/-- The bytes copied to the local variable are its bytes. -/
private theorem entryBytes_copied (data : Block) (o : Nat) (kernel : UInt64 → UInt8) :
    (List.range ENTRY_SIZE).map (fun k ↦ (slice data o ENTRY_SIZE).getD
      (ENTRY + UInt64.ofNat k - ENTRY).toNat (kernel (ENTRY + UInt64.ofNat k))) =
        slice data o ENTRY_SIZE := by
  refine List.map_congr_left fun k hk ↦ ?_
  have hk' : k < ENTRY_SIZE := List.mem_range.mp hk
  have hto : (ENTRY + UInt64.ofNat k - ENTRY).toNat = k := by
    rw [UInt64.zero_add, UInt64.sub_zero, UInt64.toNat_ofNat']
    exact Nat.mod_eq_of_lt (Nat.lt_trans hk' (by decide))
  rw [hto, List.getD_eq_getElem?_getD, slice, List.getElem?_map, List.getElem?_range hk']
  rfl

/-- A directory entry is read into the local variable. -/
theorem readEntry_ensures (hs : Open s ∅) (hdev : (s.itable.inodes i).device = s.log.device)
    (hm : Mapped s (s.itable.inodes i).dinode) {offset : UInt32}
    (ho : offset < (s.itable.inodes i).dinode.size) (hz : offset.toNat % ENTRY_SIZE = 0) :
    Ensures (reading p).regime (readEntry i offset) s fun _ t ↦
      Reads s t ∧ entryBytes t = entryAt s (s.itable.inodes i).dinode offset.toNat := by
  obtain ⟨hnext, hbn, hblock, hin⟩ :=
    entry_place (UInt32.lt_iff_toNat_lt.mp ho) hz hm.whole hm.direct
  have h16 : (UInt32.ofNat ENTRY_SIZE).toNat = 16 := rfl
  have hsum : (offset + UInt32.ofNat ENTRY_SIZE).toNat = offset.toNat + 16 := by
    have := (s.itable.inodes i).dinode.size.toNat_lt
    rw [UInt32.toNat_add, h16]
    exact Nat.mod_eq_of_lt (Nat.lt_of_le_of_lt hnext this)
  have hinside : ¬ (offset > (s.itable.inodes i).dinode.size ∨
      offset + UInt32.ofNat ENTRY_SIZE < offset) := by
    rw [gt_iff_lt, UInt32.lt_iff_toNat_lt, UInt32.lt_iff_toNat_lt, hsum]
    omega
  have hfull : ¬ offset + UInt32.ofNat ENTRY_SIZE > (s.itable.inodes i).dinode.size := by
    rw [gt_iff_lt, UInt32.lt_iff_toNat_lt, hsum]
    exact Nat.not_lt.mpr hnext
  refine ensures_bind (P := fun len t ↦ len = Int32.ofNat ENTRY_SIZE ∧ Reads s t ∧
    entryBytes t = entryAt s (s.itable.inodes i).dinode offset.toNat) ?_ ?_
  · refine ensures_gets_bind ?_
    rw [if_neg hinside, if_neg hfull]
    dsimp only
    rw [h16]
    refine (readFrom_ensures (n := 15) hs hdev hbn (hm.mapped _ hblock) (by decide) ?_).imp ?_
    · rw [h16]
      exact hin
    rintro _ t ⟨rfl, hr, hkernel⟩
    refine ⟨rfl, hr, ?_⟩
    rw [entryBytes, hkernel, entryAt, dif_pos hbn]
    exact entryBytes_copied _ _ _
  · rintro len t ⟨hlen, hr, he⟩
    exact ensures_assert (fun _ ↦ hlen) trivial fun _ ↦ ⟨hr, he⟩

/-- The number in the local variable. -/
theorem entryInum_eq (s : State) : entryInum s = inumOf (entryBytes s) := rfl

/-- The entries of a directory from the one at `k` on. -/
theorem listedFrom_step {d : DiskInode} {k : Nat} (hw : d.size.toNat % ENTRY_SIZE = 0)
    (hk : ENTRY_SIZE * k < d.size.toNat) (name : Name) :
    k < d.size.toNat / ENTRY_SIZE ∧ listedFrom s d name (d.size.toNat / ENTRY_SIZE - k) k =
      if Names s name (entryAt s d (ENTRY_SIZE * k)) then
        some (inumOf (entryAt s d (ENTRY_SIZE * k)))
      else listedFrom s d name (d.size.toNat / ENTRY_SIZE - (k + 1)) (k + 1) := by
  have hw' : d.size.toNat % 16 = 0 := hw
  have hk' : 16 * k < d.size.toNat := hk
  have hlt : k < d.size.toNat / 16 := by omega
  have hn : d.size.toNat / 16 - k = d.size.toNat / 16 - (k + 1) + 1 := by omega
  refine ⟨hlt, ?_⟩
  change listedFrom s d name (d.size.toNat / 16 - k) k = _
  rw [hn]
  rfl

/-- There are no entries behind the last one. -/
theorem listedFrom_end {d : DiskInode} {k : Nat} (hk : ¬ ENTRY_SIZE * k < d.size.toNat)
    (name : Name) : listedFrom s d name (d.size.toNat / ENTRY_SIZE - k) k = none := by
  have hk' : ¬ 16 * k < d.size.toNat := hk
  have hn : d.size.toNat / 16 - k = 0 := by omega
  change listedFrom s d name (d.size.toNat / 16 - k) k = _
  rw [hn]
  rfl

end Inode
end Orfos.Fs
