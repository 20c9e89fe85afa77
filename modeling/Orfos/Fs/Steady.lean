import Orfos.Fs.Inode

/-!
# What the functions on blocks and contents leave alone

The functions of `kernel/fs/buffer.cpp`, `block.cpp` and most of `inode.cpp` neither make nor
forget in-memory inodes, and keep their identity, reference counts, locks, types and link counts.
They unlock no inode. Both hold from every state and wherever a run stops.
-/

namespace Orfos.Fs

open Orfos.Base Orfos.Base.Traced Orfos.Lib

/-- The call is no `unlock` of an inode. -/
def Call.Silent : Call → Prop
  | .unlock _ => False
  | _ => True

/-- Two in-memory inodes that differ in their contents only. -/
structure Inode.Same (x y : Inode) : Prop where
  device : x.device = y.device
  inum : x.inum = y.inum
  refCount : x.refCount = y.refCount
  locked : x.locked = y.locked
  valid : x.valid = y.valid
  type : x.dinode.type = y.dinode.type
  numLinks : x.dinode.numLinks = y.dinode.numLinks

theorem Inode.Same.refl (x : Inode) : Inode.Same x x := ⟨rfl, rfl, rfl, rfl, rfl, rfl, rfl⟩

theorem Inode.Same.trans {x y z : Inode} (h : Inode.Same x y) (h' : Inode.Same y z) :
    Inode.Same x z :=
  ⟨h.device.trans h'.device, h.inum.trans h'.inum, h.refCount.trans h'.refCount,
    h.locked.trans h'.locked, h.valid.trans h'.valid, h.type.trans h'.type,
    h.numLinks.trans h'.numLinks⟩

/-- From `s` to `t` the in-memory inodes have changed in their contents only. -/
structure Steady (s t : State) : Prop where
  table : t.itable.table = s.itable.table
  next : t.itable.next = s.itable.next
  same : ∀ i, Inode.Same (t.itable.inodes i) (s.itable.inodes i)

namespace Steady

theorem of_eq {s t : State} (h : t.itable = s.itable) : Steady s t := by
  refine ⟨by rw [h], by rw [h], fun i ↦ ?_⟩
  rw [h]
  exact .refl _

theorem refl (s : State) : Steady s s := of_eq rfl

theorem trans (s t u : State) (h : Steady s t) (h' : Steady t u) : Steady s u := by
  refine ⟨h'.table.trans h.table, h'.next.trans h.next, fun i ↦ ?_⟩
  exact (h'.same i).trans (h.same i)

/-- The contents of one in-memory inode may change. -/
theorem setInode (s : State) (i : Nat) {f : DiskInode → DiskInode}
    (ht : ∀ d, (f d).type = d.type) (hn : ∀ d, (f d).numLinks = d.numLinks) :
    Steady s (s.setInode i fun x ↦ { x with dinode := f x.dinode }) := by
  refine ⟨rfl, rfl, fun j ↦ ?_⟩
  by_cases hj : j = i
  · subst hj
    simp only [State.setInode, Function.update_self]
    exact ⟨rfl, rfl, rfl, rfl, rfl, ht _, hn _⟩
  · simp only [State.setInode, Function.update_of_ne hj]
    exact .refl _

end Steady

/-- The program keeps the in-memory inodes apart from their contents, and unlocks none. -/
def Still {α : Type} (m : FsM α) : Prop := Confined Steady Call.Silent m

section Rules

variable {α β : Type}

theorem still_pure (a : α) : Still (pure a : FsM α) := confined_pure Steady.refl a

theorem still_gets (f : State → α) : Still (gets f) := confined_gets Steady.refl f

theorem still_assert (p : State → Prop) [DecidablePred p] : Still (assert p) :=
  confined_assert Steady.refl p

theorem still_bind {m : FsM α} {f : α → FsM β} (hm : Still m) (hf : ∀ a, Still (f a)) :
    Still (m >>= f) :=
  confined_bind Steady.trans hm hf

theorem still_modify {f : State → State} (h : ∀ s, (f s).itable = s.itable) :
    Still (modify f) :=
  confined_modify fun s ↦ .of_eq (h s)

theorem still_forM {f : α → FsM PUnit} (hf : ∀ a, Still (f a)) (xs : List α) :
    Still (xs.forM f) :=
  confined_forM Steady.refl Steady.trans hf xs

theorem still_setBuffer (i : Nat) (f : State → Buffer → Buffer) :
    Still (modify fun s ↦ s.setBuffer i (f s)) :=
  still_modify fun _ ↦ rfl

end Rules

section Blocks

variable (device block : UInt32) (i : Nat)

theorem still_get : Still (BufferCache.get device block) := by
  refine still_bind (confined_call Steady.refl trivial) fun _ ↦ ?_
  refine still_bind ?_ fun bp ↦ ?_
  · refine still_bind (still_gets _) fun found ↦ ?_
    cases found with
    | some i => exact still_pure i
    | none =>
      exact still_bind (still_gets _) fun _ ↦ still_bind (still_modify fun _ ↦ rfl) fun _ ↦
        still_pure _
  · exact still_bind (still_setBuffer _ _) fun _ ↦ still_bind (still_assert _) fun _ ↦
      still_bind (still_setBuffer _ _) fun _ ↦ still_pure _

theorem still_read : Still (Buffer.read i) := by
  refine still_bind (still_gets _) fun b ↦ ?_
  split
  · exact still_bind (still_modify fun _ ↦ rfl) fun _ ↦ still_setBuffer _ _
  · exact still_pure _

theorem still_release : Still (BufferCache.release i) := by
  refine still_bind (still_assert _) fun _ ↦ still_bind (still_setBuffer _ _) fun _ ↦ ?_
  refine still_bind (still_gets _) fun b ↦ ?_
  split
  · exact still_modify fun _ ↦ rfl
  · exact still_pure _

theorem still_writeLog : Still (writeLog i) := by
  refine still_bind (still_gets _) fun block ↦ ?_
  refine still_bind (confined_call Steady.refl trivial) fun _ ↦ ?_
  refine still_bind (still_assert _) fun _ ↦ still_bind (still_assert _) fun _ ↦ ?_
  refine still_bind (still_assert _) fun _ ↦ still_bind (still_gets _) fun header ↦ ?_
  split
  · exact still_bind (still_setBuffer _ _) fun _ ↦ still_modify fun _ ↦ rfl
  · exact still_pure _

/-- A buffer changed, logged and released. -/
theorem still_change (f : State → Buffer → Buffer) : Still (do
    modify fun s ↦ s.setBuffer i (f s)
    writeLog i
    BufferCache.release i) :=
  still_bind (still_setBuffer _ _) fun _ ↦ still_bind (still_writeLog i) fun _ ↦ still_release i

theorem still_fillBlock (ch : UInt8) : Still (fillBlock device block ch) :=
  still_bind (still_get _ _) fun bp ↦ still_bind (still_read bp) fun _ ↦ still_change bp _

theorem still_allocateBlockFrom (n : Nat) : Still (allocateBlockFrom device n block) := by
  induction n generalizing block with
  | zero => exact still_bind (still_assert _) fun _ ↦ still_pure _
  | succ n ih =>
    refine still_bind (still_gets _) fun sb ↦ ?_
    split
    · refine still_bind (still_get _ _) fun bp ↦ still_bind (still_read bp) fun _ ↦ ?_
      refine still_bind (still_gets _) fun data ↦ ?_
      split
      · exact still_bind (still_setBuffer _ _) fun _ ↦ still_bind (still_writeLog bp) fun _ ↦
          still_bind (still_release bp) fun _ ↦ still_bind (still_fillBlock _ _ _) fun _ ↦
          still_pure _
      · exact still_bind (still_release bp) fun _ ↦ ih _
    · exact still_pure _

theorem still_allocateBlock : Still (allocateBlock device) :=
  still_bind (still_gets _) fun _ ↦ still_allocateBlockFrom device 0 _

theorem still_freeBlock : Still (freeBlock device block) :=
  still_bind (still_gets _) fun _ ↦ still_bind (still_get _ _) fun bp ↦
    still_bind (still_read bp) fun _ ↦ still_bind (still_assert _) fun _ ↦ still_change bp _

end Blocks

section Copies

theorem still_copyoutFrom (n : Nat) (dst : UInt64) (src : List UInt8) :
    Still (copyoutFrom n dst src) := by
  induction n generalizing dst src with
  | zero => exact still_pure _
  | succ n ih =>
    unfold copyoutFrom
    split
    · exact still_pure _
    · refine still_bind (still_gets _) fun page ↦ ?_
      split
      · exact still_pure _
      · exact still_bind (still_modify fun _ ↦ rfl) fun _ ↦ ih _ _

theorem still_eitherCopyout (userDst : Bool) (dst : UInt64) (src : List UInt8) :
    Still (eitherCopyout userDst dst src) := by
  unfold eitherCopyout
  split
  · exact still_copyoutFrom _ _ _
  · exact still_bind (still_modify fun _ ↦ rfl) fun _ ↦ still_pure _

theorem still_copyinFrom (bp n dst : Nat) (src : UInt64) (len : Nat) :
    Still (copyinFrom bp n dst src len) := by
  induction n generalizing dst src len with
  | zero => exact still_pure _
  | succ n ih =>
    unfold copyinFrom
    split
    · exact still_pure _
    · refine still_bind (still_gets _) fun page ↦ ?_
      split
      · exact still_pure _
      · exact still_bind (still_setBuffer _ _) fun _ ↦ ih _ _ _

theorem still_eitherCopyin (bp dst : Nat) (userSrc : Bool) (src : UInt64) (len : Nat) :
    Still (eitherCopyin bp dst userSrc src len) := by
  unfold eitherCopyin
  split
  · exact still_copyinFrom _ _ _ _ _
  · exact still_bind (still_setBuffer _ _) fun _ ↦ still_pure _

end Copies

namespace Inode

variable (i : Nat)

theorem still_setDinode {f : DiskInode → DiskInode} (ht : ∀ d, (f d).type = d.type)
    (hn : ∀ d, (f d).numLinks = d.numLinks) : Still (setDinode i f) :=
  confined_modify fun s ↦ .setInode s i ht hn

theorem still_update : Still (update i) :=
  still_bind (still_gets _) fun _ ↦ still_bind (still_gets _) fun _ ↦
    still_bind (still_get _ _) fun bp ↦ still_bind (still_read bp) fun _ ↦ still_change bp _

theorem still_truncate : Still (truncate i) := by
  have hdirect : ∀ k, Still (truncateDirect i k) := by
    intro k
    refine still_bind (still_gets _) fun ip ↦ ?_
    split
    · exact still_bind (still_freeBlock _ _) fun _ ↦
        still_setDinode i (fun _ ↦ rfl) fun _ ↦ rfl
    · exact still_pure _
  have hindirect : ∀ device bp k, Still (truncateIndirect device bp k) := by
    intro device bp k
    refine still_bind (still_gets _) fun address ↦ ?_
    split
    · exact still_freeBlock _ _
    · exact still_pure _
  have hend : Still (do
      setDinode i fun d ↦ { d with size := 0 }
      update i) :=
    still_bind (still_setDinode i (fun _ ↦ rfl) fun _ ↦ rfl) fun _ ↦ still_update i
  refine still_bind (still_forM hdirect _) fun _ ↦ still_bind (still_gets _) fun ip ↦ ?_
  split
  · refine still_bind (still_get _ _) fun bp ↦ still_bind (still_read bp) fun _ ↦ ?_
    refine still_bind (still_forM (hindirect _ bp) _) fun _ ↦ ?_
    refine still_bind (still_release bp) fun _ ↦ still_bind (still_freeBlock _ _) fun _ ↦ ?_
    exact still_bind (still_setDinode i (fun _ ↦ rfl) fun _ ↦ rfl) fun _ ↦ hend
  · exact hend

theorem still_bmapDirect (bn : Fin NUM_DIRECT_BLOCKS) : Still (bmapDirect i bn) := by
  refine still_bind (still_gets _) fun ip ↦ ?_
  split
  · exact still_bind (still_allocateBlock _) fun _ ↦
      still_bind (still_setDinode i (fun _ ↦ rfl) fun _ ↦ rfl) fun _ ↦ still_gets _
  · exact still_gets _

theorem still_bmapIndirect (bn : Nat) : Still (bmapIndirect i bn) := by
  refine still_bind (still_gets _) fun ip ↦ ?_
  have hend : Still (do
      let indirect ← gets fun s ↦ (s.itable.inodes i).dinode.indirectBlock
      if indirect = 0 then pure 0
      else
        let bp ← BufferCache.get ip.device indirect
        let address ← gets fun s ↦ getU32 (s.cache.buffers bp).data (4 * bn)
        if address = 0 then
          let block ← allocateBlock ip.device
          modify fun s ↦ s.setBuffer bp fun x ↦ { x with data := putU32 x.data (4 * bn) block }
          if block ≠ 0 then
            writeLog bp
        BufferCache.release bp
        gets fun s ↦ getU32 (s.cache.buffers bp).data (4 * bn)) := by
    refine still_bind (still_gets _) fun indirect ↦ ?_
    split
    · exact still_pure _
    · refine still_bind (still_get _ _) fun bp ↦ still_bind (still_gets _) fun address ↦ ?_
      split
      · refine still_bind (still_allocateBlock _) fun block ↦ ?_
        refine still_bind (still_setBuffer _ _) fun _ ↦ ?_
        split
        · exact still_bind (still_writeLog bp) fun _ ↦ still_bind (still_release bp) fun _ ↦
            still_gets _
        · exact still_bind (still_release bp) fun _ ↦ still_gets _
      · exact still_bind (still_release bp) fun _ ↦ still_gets _
  split
  · exact still_bind (still_allocateBlock _) fun _ ↦
      still_bind (still_setDinode i (fun _ ↦ rfl) fun _ ↦ rfl) fun _ ↦ hend
  · exact hend

theorem still_bmap (bn : UInt32) : Still (bmap i bn) := by
  unfold bmap
  split
  · exact still_bmapDirect i _
  · exact still_bind (still_assert _) fun _ ↦ still_bmapIndirect i _

theorem still_readFrom (userDst : Bool) (length : UInt32) (n : Nat) (dst : UInt64)
    (offset tot : UInt32) : Still (readFrom i userDst length n dst offset tot) := by
  induction n generalizing dst offset tot with
  | zero => exact still_pure _
  | succ n ih =>
    unfold readFrom
    split
    · refine still_bind (still_bmap i _) fun address ↦ ?_
      split
      · exact still_pure _
      · refine still_bind (still_gets _) fun device ↦ still_bind (still_get _ _) fun bp ↦ ?_
        refine still_bind (still_read bp) fun _ ↦ still_bind (still_gets _) fun data ↦ ?_
        refine still_bind (still_eitherCopyout _ _ _) fun copied ↦ ?_
        refine still_bind (still_release bp) fun _ ↦ ?_
        split
        · exact ih _ _ _
        · exact still_pure _
    · exact still_pure _

theorem still_inode_read (userDst : Bool) (dst : UInt64) (offset length : UInt32) :
    Still (read i userDst dst offset length) := by
  refine still_bind (still_gets _) fun size ↦ ?_
  split
  · exact still_pure _
  · exact still_readFrom i _ _ _ _ _ _

theorem still_writeFrom (userSrc : Bool) (length : UInt32) (n : Nat) (src : UInt64)
    (offset tot : UInt32) : Still (writeFrom i userSrc length n src offset tot) := by
  induction n generalizing src offset tot with
  | zero => exact still_pure _
  | succ n ih =>
    unfold writeFrom
    split
    · refine still_bind (still_bmap i _) fun address ↦ ?_
      split
      · exact still_pure _
      · refine still_bind (still_gets _) fun device ↦ still_bind (still_get _ _) fun bp ↦ ?_
        refine still_bind (still_read bp) fun _ ↦ ?_
        refine still_bind (still_eitherCopyin _ _ _ _ _) fun copied ↦ ?_
        split
        · exact still_bind (still_writeLog bp) fun _ ↦ still_bind (still_release bp) fun _ ↦
            ih _ _ _
        · exact still_bind (still_release bp) fun _ ↦ still_pure _
    · exact still_pure _

theorem still_write (userSrc : Bool) (src : UInt64) (offset length : UInt32) :
    Still (write i userSrc src offset length) := by
  refine still_bind (still_gets _) fun size ↦ ?_
  split
  · exact still_pure _
  · split
    · exact still_pure _
    · refine still_bind (still_writeFrom i _ _ _ _ _ _) fun r ↦ ?_
      refine still_bind (still_gets _) fun size ↦ ?_
      split
      · exact still_bind (still_setDinode i (fun _ ↦ rfl) fun _ ↦ rfl) fun _ ↦
          still_bind (still_update i) fun _ ↦ still_pure _
      · exact still_bind (still_update i) fun _ ↦ still_pure _

theorem still_readEntry (offset : UInt32) : Still (readEntry i offset) :=
  still_bind (still_inode_read i _ _ _ _) fun _ ↦ still_assert _

theorem still_findFree (n : Nat) (offset : UInt32) : Still (findFree i n offset) := by
  induction n generalizing offset with
  | zero => exact still_bind (still_assert _) fun _ ↦ still_pure _
  | succ n ih =>
    refine still_bind (still_gets _) fun size ↦ ?_
    split
    · refine still_bind (still_readEntry i _) fun _ ↦ still_bind (still_gets _) fun inum ↦ ?_
      split
      · exact still_pure _
      · exact ih _
    · exact still_pure _

/-- The part of `dirLink` that writes the entry. -/
theorem still_link (name : Name) (inum : UInt32) : Still (do
    let size ← gets fun s ↦ (s.itable.inodes i).dinode.size
    let offset ← findFree i (size.toNat / ENTRY_SIZE + 1) 0
    let _ ← eitherCopyout false ENTRY
      (inum.toUInt8 :: (inum >>> 8).toUInt8 :: strncpy (List.ofFn name))
    let len ← write i false ENTRY offset (UInt32.ofNat ENTRY_SIZE)
    pure (decide (len = Int32.ofNat ENTRY_SIZE))) :=
  still_bind (still_gets _) fun _ ↦ still_bind (still_findFree i _ _) fun _ ↦
    still_bind (still_eitherCopyout _ _ _) fun _ ↦ still_bind (still_write i _ _ _ _) fun _ ↦
    still_pure _

end Inode

/-- The program unlocks no inode. -/
def Mute {α : Type} (m : FsM α) : Prop := Confined (fun _ _ ↦ True) Call.Silent m

section Mute

variable {α β : Type}

theorem Still.mute {m : FsM α} (h : Still m) : Mute m := Confined.mono h fun _ _ _ ↦ trivial

theorem mute_bind {m : FsM α} {f : α → FsM β} (hm : Mute m) (hf : ∀ a, Mute (f a)) :
    Mute (m >>= f) :=
  confined_bind (fun _ _ _ _ _ ↦ trivial) hm hf

theorem mute_modify (f : State → State) : Mute (modify f) := confined_modify fun _ ↦ trivial

theorem mute_gets_bind {g : State → α} {f : α → FsM β} (hf : ∀ a, Mute (f a)) :
    Mute (gets g >>= f) :=
  mute_bind (still_gets g).mute hf

theorem mute_modify_bind {g : State → State} {f : Unit → FsM β} (hf : ∀ a, Mute (f a)) :
    Mute (modify g >>= f) :=
  mute_bind (mute_modify g) hf

theorem mute_assert_bind {p : State → Prop} [DecidablePred p] {f : Unit → FsM β}
    (hf : ∀ a, Mute (f a)) : Mute (assert p >>= f) :=
  mute_bind (still_assert p).mute hf

end Mute

namespace Inode

variable (i : Nat)

theorem mute_get (device inum : UInt32) : Mute (get device inum) := by
  refine mute_gets_bind fun found ↦ ?_
  cases found with
  | some j => exact mute_modify_bind fun _ ↦ (still_pure j).mute
  | none => exact mute_gets_bind fun _ ↦ mute_modify_bind fun _ ↦ (still_pure _).mute

theorem mute_dup : Mute (dup i) := mute_modify_bind fun _ ↦ (still_pure i).mute

theorem mute_lock : Mute (lock i) := by
  refine mute_assert_bind fun _ ↦ mute_assert_bind fun _ ↦ mute_modify_bind fun _ ↦ ?_
  refine mute_gets_bind fun ip ↦ ?_
  split
  · refine mute_gets_bind fun _ ↦ mute_bind (still_get _ _).mute fun bp ↦ ?_
    refine mute_bind (still_read bp).mute fun _ ↦ mute_modify_bind fun _ ↦ ?_
    exact mute_bind (still_release bp).mute fun _ ↦ mute_modify_bind fun _ ↦
      (still_assert _).mute
  · exact (still_pure _).mute

theorem mute_put : Mute (put i) := by
  refine mute_gets_bind fun ip ↦ ?_
  split
  · refine mute_assert_bind fun _ ↦ mute_modify_bind fun _ ↦ ?_
    refine mute_bind (still_truncate i).mute fun _ ↦ mute_modify_bind fun _ ↦ ?_
    refine mute_bind (still_update i).mute fun _ ↦ mute_modify_bind fun _ ↦ ?_
    exact mute_modify_bind fun _ ↦ mute_modify _
  · exact mute_modify _

theorem mute_dirLookup (name : Name) : Mute (dirLookup i name) := by
  have hloop : ∀ n offset, Mute (dirLookupFrom i name n offset) := by
    intro n
    induction n with
    | zero => exact fun offset ↦ mute_assert_bind fun _ ↦ (still_pure _).mute
    | succ n ih =>
      intro offset
      refine mute_gets_bind fun size ↦ ?_
      split
      · refine mute_bind (still_readEntry i offset).mute fun _ ↦ mute_gets_bind fun inum ↦ ?_
        refine mute_gets_bind fun same ↦ ?_
        split
        · exact mute_modify_bind fun _ ↦ mute_gets_bind fun _ ↦ mute_bind (mute_get _ _) fun _ ↦
            (still_pure _).mute
        · exact ih _
      · exact (still_pure _).mute
  exact mute_assert_bind fun _ ↦ mute_gets_bind fun _ ↦ hloop _ _

theorem mute_dirLink (name : Name) (inum : UInt32) : Mute (dirLink i name inum) := by
  refine mute_bind (mute_dirLookup i name) fun found ↦ ?_
  cases found with
  | some j => exact mute_bind (mute_put j) fun _ ↦ (still_pure _).mute
  | none => exact (still_link i name inum).mute

theorem mute_allocate (device : UInt32) (type : UInt16) : Mute (allocate device type) := by
  have hloop : ∀ n j, Mute (allocateFrom device type n j) := by
    intro n
    induction n with
    | zero => exact fun _ ↦ (still_pure _).mute
    | succ n ih =>
      intro j
      refine mute_gets_bind fun sb ↦ ?_
      split
      · refine mute_bind (still_get _ _).mute fun bp ↦ mute_bind (still_read bp).mute fun _ ↦ ?_
        refine mute_gets_bind fun data ↦ ?_
        split
        · exact mute_modify_bind fun _ ↦ mute_bind (still_writeLog bp).mute fun _ ↦
            mute_bind (still_release bp).mute fun _ ↦ mute_bind (mute_get _ _) fun _ ↦
            (still_pure _).mute
        · exact mute_bind (still_release bp).mute fun _ ↦ ih _
      · exact (still_pure _).mute
  exact mute_gets_bind fun _ ↦ hloop _ _

end Inode
end Orfos.Fs
