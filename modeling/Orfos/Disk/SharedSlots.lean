import Orfos.Disk.Append
import Orfos.Fs.InodeSlots

/-!
# The slots of the disk inodes

`update`, `lock`, `readInode` and `writeInode` find the slot of an inode by the same division and
remainder. Whatever the superblock says, different inodes have slots apart, so an update changes the
bytes of its own inode only. What it wrote is read again unless its block drops out of the cache.
-/

namespace Orfos.Disk

open Orfos.Base Orfos.Base.Traced Orfos.Fs

/-- The tool can read the block of an inode. -/
def Readable (d : Image) (n : UInt32) : Prop :=
  d.failed = false ∧ (iblock n sb).toNat < d.length

/-- The tool reads what a kernel locks and writes what a kernel updates. -/
structure ToolSlots (junk : Junk) (d : Image) (n : UInt32) : Prop where
  read : Readable d n → ∀ s i t, Placed s → s.superBlock = sb → content s = d.blocks →
    (s.itable.inodes i).device = s.log.device → (s.itable.inodes i).inum = n →
    (s.itable.inodes i).valid = false → Runs (fun _ _ ↦ True) (Inode.lock i) s () t →
    (readInode junk d n).1 = (t.itable.inodes i).dinode
  written : Readable d n → ∀ s i, s.superBlock = sb → content s = d.blocks →
    (s.itable.inodes i).inum = n →
    (writeInode junk d n (s.itable.inodes i).dinode).blocks = Inode.updated s i
  back : Readable d n → ∀ ip, (readInode junk (writeInode junk d n ip) n).1 = ip
  apart : ∀ ip m, m ≠ n → slotBytes ((writeInode junk d n ip).blocks (iblock m sb)) m =
    slotBytes (d.blocks (iblock m sb)) m

/-- An inode that was updated is locked with the same values, the bytes of the other inodes stay, and
the tool agrees. -/
structure Slotted (s : State) (i : Nat) : Prop where
  back : ∀ (itable : Itable) (j : Nat),
    (itable.inodes j).device = (s.itable.inodes i).device →
    (itable.inodes j).inum = (s.itable.inodes i).inum → (itable.inodes j).valid = false →
    (itable.inodes j).locked = false → 1 ≤ (itable.inodes j).refCount →
    ∃ t, Runs (fun _ _ ↦ True) (Inode.lock j)
      { (Inode.update i s).state with itable := itable } () t ∧
        (t.itable.inodes j).dinode = (s.itable.inodes i).dinode
  apart : ∀ m, m < s.superBlock.numInodes → m ≠ (s.itable.inodes i).inum →
    slotBytes (content (Inode.update i s).state (iblock m s.superBlock)) m =
      slotBytes (content s (iblock m s.superBlock)) m
  tool : ∀ junk d n, ToolSlots junk d n

/-- The inodes in the blocks that drop out of the cache are on the disk already. -/
def Durable (s : State) (i : Nat) : Prop :=
  ∀ m, m < s.superBlock.numInodes →
    Lost s (iblock (s.itable.inodes i).inum s.superBlock) (iblock m s.superBlock) →
    slotBytes (s.disk (iblock m s.superBlock)) m =
      slotBytes (Inode.updated s i (iblock m s.superBlock)) m

section

variable {junk : Junk} {d : Image} {s : State} {n m : UInt32} {i : Nat}

/-- The stored inode is in its slot. -/
theorem load_updated (s : State) (i : Nat) :
    DiskInode.load (Inode.updated s i (iblock (s.itable.inodes i).inum s.superBlock))
      (dinodeAt (s.itable.inodes i).inum) = (s.itable.inodes i).dinode := by
  rw [Inode.updated, Function.update_self]
  exact DiskInode.load_store_same _ _ (dinodeAt_add_le _)

/-- A stored inode does not reach into another slot. -/
theorem slotBytes_store {sb : SuperBlock} {blocks : UInt32 → Block} (dinode : DiskInode)
    (hne : m ≠ n) : slotBytes (Function.update blocks (iblock n sb)
      (dinode.store (dinodeAt n) (blocks (iblock n sb))) (iblock m sb)) m =
      slotBytes (blocks (iblock m sb)) m := by
  by_cases hb : iblock m sb = iblock n sb
  · rw [hb, Function.update_self]
    funext k
    have hk := k.isLt
    refine DiskInode.byteAt_store_other dinode _ ?_
    rcases dinodeAt_apart hne hb with h | h
    · left
      omega
    · right
      omega
  · rw [Function.update_of_ne hb]

theorem readInode_of_readable (h : Readable d n) :
    readInode junk d n = (DiskInode.load (d.blocks (iblock n sb)) (dinodeAt n), d) := by
  rw [readInode, readSector_of_lt h.1 h.2]

theorem writeInode_of_readable (h : Readable d n) (ip : DiskInode) :
    writeInode junk d n ip =
      writeSector d (iblock n sb) (ip.store (dinodeAt n) (d.blocks (iblock n sb))) := by
  rw [writeInode, readSector_of_lt h.1 h.2]

theorem blocks_writeInode (h : Readable d n) (ip : DiskInode) :
    (writeInode junk d n ip).blocks = Function.update d.blocks (iblock n sb)
      (ip.store (dinodeAt n) (d.blocks (iblock n sb))) := by
  rw [writeInode_of_readable h, writeSector, if_neg (by simp [h.1])]

/-- A stream that cannot read the block of an inode writes nothing. -/
theorem blocks_writeInode_of_not (h : ¬ Readable d n) (ip : DiskInode) :
    (writeInode junk d n ip).blocks = d.blocks := by
  unfold Readable at h
  rw [writeInode, readSector, if_neg h]
  rfl

theorem readable_writeInode (h : Readable d n) (ip : DiskInode) :
    Readable (writeInode junk d n ip) n := by
  rw [writeInode_of_readable h, writeSector, if_neg (by simp [h.1])]
  exact ⟨h.1, lt_of_lt_of_le h.2 (le_max_left _ _)⟩

/-- The tool and the kernel share the slots. -/
theorem toolSlots (junk : Junk) (d : Image) (n : UInt32) : ToolSlots junk d n where
  read h s i t hp hsb hc hdev hn hvalid ht := by
    have hread := (Inode.lock_reads (p := False) hp hdev False.elim False.elim hvalid
      False.elim False.elim).of_runs ht
    rw [hread, readInode_of_readable h, hsb, hc, hn]
  written h s i hsb hc hn := by
    rw [blocks_writeInode h, Inode.updated, hsb, hc, hn]
  back h ip := by
    rw [readInode_of_readable (readable_writeInode h ip), blocks_writeInode h,
      Function.update_self]
    exact DiskInode.load_store_same ip _ (dinodeAt_add_le n)
  apart ip m hne := by
    by_cases h : Readable d n
    · rw [blocks_writeInode h]
      exact slotBytes_store ip hne
    · rw [blocks_writeInode_of_not h]

/-- What an update that returned has left behind. -/
theorem content_after (hp : Placed s) (hdev : (s.itable.inodes i).device = s.log.device)
    (hupdate : (Inode.update i s).value = some ()) :
    (Inode.update i s).state = { s with
      cache := (Inode.update i s).state.cache
      log := s.log.logged (iblock (s.itable.inodes i).inum s.superBlock) } ∧
    Placed (Inode.update i s).state ∧
    (Fs.entry (Inode.update i s).state
      (iblock (s.itable.inodes i).inum s.superBlock)).2.locked = false ∧
    ∀ c, content (Inode.update i s).state c =
      if Lost s (iblock (s.itable.inodes i).inum s.superBlock) c then s.disk c
      else Inode.updated s i c :=
  (Inode.update_content hp hdev).of_runs ⟨hupdate, rfl, fun _ _ ↦ trivial⟩

/-- The contents that an update leaves show the stored inodes exactly if what drops out of the cache
is on the disk. -/
theorem slotBytes_after_iff (hp : Placed s) (hdev : (s.itable.inodes i).device = s.log.device)
    (hupdate : (Inode.update i s).value = some ()) : Durable s i ↔
    ∀ m, m < s.superBlock.numInodes →
      slotBytes (content (Inode.update i s).state (iblock m s.superBlock)) m =
        slotBytes (Inode.updated s i (iblock m s.superBlock)) m := by
  obtain ⟨-, -, -, hcontent⟩ := content_after hp hdev hupdate
  constructor
  · intro h m hm
    rw [hcontent]
    split
    · next hlost => exact h m hm hlost
    · rfl
  · intro h m hm hlost
    have hm' := h m hm
    rwa [hcontent, if_pos hlost] at hm'

/-- What `lock` finds in a slot after another step has replaced the in-memory inodes. -/
theorem lock_after {p : Prop} {t : State} (itable : Itable) (j : Nat) (hp : Placed t)
    (hd : (itable.inodes j).device = t.log.device) (hn : (itable.inodes j).inum = n)
    (hvalid : (itable.inodes j).valid = false) (hfree : (itable.inodes j).locked = false)
    (href : 1 ≤ (itable.inodes j).refCount)
    (hunlocked : (Fs.entry t (iblock n t.superBlock)).2.locked = false)
    (htype : p → (DiskInode.load (content t (iblock n t.superBlock)) (dinodeAt n)).type ≠ 0) :
    Ensures (freely p) (Inode.lock j) { t with itable := itable } fun _ u ↦
      (u.itable.inodes j).dinode =
        DiskInode.load (content t (iblock n t.superBlock)) (dinodeAt n) := by
  subst hn
  have hp' : Placed { t with itable := itable } := (Placing.of_cache rfl rfl).placed hp
  exact Inode.lock_reads hp' hd (fun _ ↦ href) (fun _ ↦ hfree) hvalid (fun _ ↦ hunlocked) htype

/-- Some table has an in-memory inode that is not valid. -/
theorem exists_invalid (device n : UInt32) : ∃ (itable : Itable) (j : Nat),
    (itable.inodes j).device = device ∧ (itable.inodes j).inum = n ∧
      (itable.inodes j).valid = false ∧ (itable.inodes j).locked = false ∧
      1 ≤ (itable.inodes j).refCount := by
  have hone : (1 : UInt32) ≤ 1 := by decide
  exact ⟨⟨Lib.Table.empty fun _ ↦ 0, fun _ ↦ ⟨device, n, 1, false, false,
    ⟨0, 0, 0, 0, 0, fun _ ↦ 0, 0⟩⟩, 0⟩, 0, rfl, rfl, rfl, rfl, hone⟩

/-- An update meets its contract exactly if what drops out of the cache is on the disk. -/
theorem slotted_iff_of_placed (hp : Placed s)
    (hdev : (s.itable.inodes i).device = s.log.device)
    (hinum : (s.itable.inodes i).inum < s.superBlock.numInodes)
    (htype : (s.itable.inodes i).dinode.type ≠ 0)
    (hupdate : (Inode.update i s).value = some ()) : Slotted s i ↔ Durable s i := by
  rw [slotBytes_after_iff hp hdev hupdate]
  obtain ⟨hframe, hplaced, hunlocked, -⟩ := content_after hp hdev hupdate
  have hsb : (Inode.update i s).state.superBlock = s.superBlock := by rw [hframe]
  have hdevice : (Inode.update i s).state.log.device = s.log.device := by
    rw [hframe, Log.logged_frame]
  have hother : ∀ m, m ≠ (s.itable.inodes i).inum →
      slotBytes (Inode.updated s i (iblock m s.superBlock)) m =
        slotBytes (content s (iblock m s.superBlock)) m :=
    fun m hne ↦ slotBytes_store _ hne
  have hown := load_updated s i
  rw [← hsb] at hunlocked
  constructor
  · intro h m hm
    by_cases hmn : m = (s.itable.inodes i).inum
    · subst hmn
      -- Any in-memory inode with the number shows what is in the slot.
      obtain ⟨itable, j, hd, hn, hvalid, hfree, href⟩ :=
        exists_invalid (s.itable.inodes i).device (s.itable.inodes i).inum
      have hback := h.back itable j hd hn hvalid hfree href
      obtain ⟨t, hruns, hsame⟩ := hback
      have hlock := lock_after (p := False) itable j hplaced
        ((hd.trans hdev).trans hdevice.symm) hn hvalid hfree href hunlocked False.elim
      have hread := hlock.of_runs hruns
      rw [slotBytes_eq_iff, hown, ← hsb, ← hread]
      exact hsame
    · rw [hother m hmn]
      exact h.apart m hm hmn
  · intro h
    have hslot := h _ hinum
    rw [slotBytes_eq_iff, hown, ← hsb] at hslot
    refine ⟨?_, fun m hm hmn ↦ ?_, fun junk d n ↦ toolSlots junk d n⟩
    · intro itable j hd hn hvalid hfree href
      have hlock := lock_after (p := True) itable j hplaced ((hd.trans hdev).trans hdevice.symm) hn hvalid
        hfree href hunlocked fun _ ↦ by rwa [hslot]
      obtain ⟨_, t, hruns, hread⟩ := hlock.runs trivial fun _ _ ↦ trivial
      exact ⟨t, hruns, hread.trans hslot⟩
    · rw [h m hm, hother m hmn]

/-- In every state that the threads reach, an update meets its contract exactly if what drops out of
the cache is on the disk. -/
theorem slotted_iff {x : Session} (hempty : ∀ k, s.cache.bufferTable.lookup k = none)
    (h : Run Session.step (fun _ _ ↦ True) (Session.begun s) x)
    (hdev : (x.state.itable.inodes i).device = x.state.log.device)
    (hinum : (x.state.itable.inodes i).inum < x.state.superBlock.numInodes)
    (htype : (x.state.itable.inodes i).dinode.type ≠ 0)
    (hupdate : (Inode.update i x.state).value = some ()) :
    Slotted x.state i ↔ Durable x.state i :=
  slotted_iff_of_placed (Session.placed_of_run hempty h) hdev hinum htype hupdate

/-- An update is durable if its block finds room and keeps a reference. -/
theorem durable_of_room
    (hroom : s.cache.bufferTable.HasRoom
      (key s.log.device (iblock (s.itable.inodes i).inum s.superBlock)))
    (hkept : ¬ Lost s (iblock (s.itable.inodes i).inum s.superBlock)
      (iblock (s.itable.inodes i).inum s.superBlock)) : Durable s i := by
  intro m _ hlost
  exfalso
  by_cases hb : iblock m s.superBlock = iblock (s.itable.inodes i).inum s.superBlock
  · rw [hb] at hlost
    exact hkept hlost
  · rw [Lost, if_neg hb] at hlost
    exact hlost.not_hasRoom hroom

end

section Examples

/-- A file system in a transaction, with an in-memory inode of number 1. -/
def updating : State :=
  { Session.opened 256 with
    itable := ⟨Lib.Table.empty UInt64.toNat,
      fun _ ↦ ⟨1, 1, 1, true, true, ⟨2, 0, 0, 1, 0, fun _ ↦ 0, 0⟩⟩, 1⟩ }

/-- The inode's block has been logged by another update. -/
def loggedBefore : List Op := Session.logTwice 33 0

theorem slotted_after_logged : ∃ x : Session,
    Run Session.step (fun _ _ ↦ True) (Session.begun updating) x ∧
      33 ∈ x.state.log.header ∧ Slotted x.state 0 := by
  have hrun : Run Session.step (fun _ _ ↦ True) (Session.begun updating)
      (final Session.step (Session.begun updating) loggedBefore) :=
    run_final (by decide +kernel) (by decide +kernel)
  refine ⟨_, hrun, by decide +kernel, (slotted_iff (fun _ ↦ rfl) hrun (by decide +kernel)
    (by decide +kernel) (by decide +kernel) (by decide +kernel)).mpr ?_⟩
  exact durable_of_room (by decide +kernel) (by decide +kernel)

/-- The logged block of the inode drops out of a crowded bucket before the next update. -/
def crowdedOut : List Op :=
  [.get 289, .get 33, .writeLog (33, 1), .release (33, 1), .get 545, .release (289, 0),
    .release (545, 2)]

theorem not_slotted_after_crowdedOut : ∃ x : Session,
    Run Session.step (fun _ _ ↦ True) (Session.begun updating) x ∧
      (Inode.update 0 x.state).value = some () ∧ ¬ Slotted x.state 0 := by
  have hrun : Run Session.step (fun _ _ ↦ True) (Session.begun updating)
      (final Session.step (Session.begun updating) crowdedOut) :=
    run_final (by decide +kernel) (by decide +kernel)
  have hupdate : (Inode.update 0
      (final Session.step (Session.begun updating) crowdedOut).state).value = some () := by
    decide +kernel
  refine ⟨_, hrun, hupdate, fun h ↦ ?_⟩
  have hdurable := (slotted_iff_of_placed (Session.placed_of_run (fun _ ↦ rfl) hrun)
    (by decide +kernel) (by decide +kernel) (by decide +kernel) hupdate).mp h
  -- The type is still zero on the disk.
  have htype := congrFun (hdurable 1 (by decide +kernel) (by decide +kernel)) 0
  revert htype
  decide +kernel

end Examples

end Orfos.Disk
