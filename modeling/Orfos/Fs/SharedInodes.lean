import Mathlib.Data.List.Count
import Orfos.Base.Guarded
import Orfos.Fs.Blank
import Orfos.Fs.Truncate

/-!
# The in-memory inodes among processes

`Inode::allocate`, `get`, `dup`, `lock`, `unlock` and `put` of `kernel/fs/inode.cpp`, called by any
number of processes. A step is one access to shared data, or one section between
`bufferCache->get` and `bufferCache->release`, which runs under the lock of the buffer. The spin lock
of the table guards the table and the reference counts; the fields of an inode are read and written
by the holder of its sleep lock, and `put` reads two of them without it.

In-memory inodes are numbered, as nothing is ever deleted from the table; reference counts do not
wrap around. The references that the processes hold are kept beside the code's own data, as are what
`allocate` and the lock holders last wrote into an inode, and the types of the inodes that a process
got from `allocate` and still has.
-/

namespace Orfos.Fs

open Orfos.Base Orfos.Lib

/-- An inode with `allocate`'s type: `memset` ends one byte early. -/
def claimed (d : DiskInode) (type : UInt16) : DiskInode where
  type := type
  major := 0
  minor := 0
  numLinks := 0
  size := 0
  directBlocks _ := 0
  indirectBlock := d.indirectBlock / 0x1000000 * 0x1000000

/-- The bytes that `allocate` writes. -/
theorem load_claimed (data : Block) (n : UInt32) (type : UInt16) :
    DiskInode.load (putU16 (memset data (dinodeAt n) 0 64) (dinodeAt n) type) (dinodeAt n) =
      claimed (DiskInode.load data (dinodeAt n)) type := by
  have hroom : dinodeAt n + 64 ≤ BLOCK_SIZE := by
    have : n.toNat % 16 < 16 := Nat.mod_lt _ (by decide)
    change 64 * (n.toNat % 16) + 64 ≤ 1024
    omega
  have hbyte : ∀ k < 64, byteAt (memset data (dinodeAt n) 0 64) (dinodeAt n + k) =
      if k < 63 then 0 else byteAt data (dinodeAt n + k) := by
    intro k hk
    rw [memset, byteAt_putBytes _ _ _ _ _ (by omega)]
    exact if_congr (by omega) rfl rfl
  have hzero : ∀ o m, 2 ≤ o → o + m ≤ 63 →
      getLe (putU16 (memset data (dinodeAt n) 0 64) (dinodeAt n) type) (dinodeAt n + o) m = 0 := by
    intro o m ho hm
    rw [putU16, getLe_putLe_disjoint _ _ (by omega)]
    refine getLe_of_zero fun k hk ↦ ?_
    rw [Nat.add_assoc, hbyte _ (by omega), if_pos (by omega)]
  have hlast : getU32 (putU16 (memset data (dinodeAt n) 0 64) (dinodeAt n) type)
      (dinodeAt n + 60) = getU32 data (dinodeAt n + 60) / 0x1000000 * 0x1000000 := by
    have h₀ := hbyte 60 (by omega)
    have h₁ := hbyte 61 (by omega)
    have h₂ := hbyte 62 (by omega)
    have h₃ := hbyte 63 (by omega)
    have hb₀ := (byteAt data (dinodeAt n + 60)).toNat_lt
    have hb₁ := (byteAt data (dinodeAt n + 61)).toNat_lt
    have hb₂ := (byteAt data (dinodeAt n + 62)).toNat_lt
    have hb₃ := (byteAt data (dinodeAt n + 63)).toNat_lt
    simp only [Nat.reduceLT, ite_true, lt_self_iff_false, ite_false] at h₀ h₁ h₂ h₃
    apply UInt32.toNat_inj.mp
    rw [getU32, getU32, putU16, getLe_putLe_disjoint _ _ (by omega), UInt32.toNat_mul,
      UInt32.toNat_div, UInt32.toNat_ofNat', UInt32.toNat_ofNat']
    simp only [getLe, Nat.add_assoc, Nat.reduceAdd, h₀, h₁, h₂, h₃, UInt8.toNat_zero,
      UInt32.reduceToNat]
    omega
  have hshort : ∀ o, 2 ≤ o → o + 2 ≤ 63 →
      getU16 (putU16 (memset data (dinodeAt n) 0 64) (dinodeAt n) type) (dinodeAt n + o) = 0 :=
    fun o ho hm ↦ by rw [getU16, hzero o 2 ho hm]; rfl
  have hlong : ∀ o, 2 ≤ o → o + 4 ≤ 63 →
      getU32 (putU16 (memset data (dinodeAt n) 0 64) (dinodeAt n) type) (dinodeAt n + o) = 0 :=
    fun o ho hm ↦ by rw [getU32, hzero o 4 ho hm]; rfl
  have hdirect : ∀ k : Fin NUM_DIRECT_BLOCKS,
      getU32 (putU16 (memset data (dinodeAt n) 0 64) (dinodeAt n) type)
        (dinodeAt n + 12 + 4 * k.val) = 0 := by
    intro k
    have hk : k.val < 12 := k.isLt
    rw [Nat.add_assoc, hlong _ (by omega) (by omega)]
  rw [DiskInode.load, getU16_putU16_same _ _ (by omega), hshort 2 (by omega) (by omega),
    hshort 4 (by omega) (by omega), hshort 6 (by omega) (by omega),
    hlong 8 (by omega) (by omega), hlast, funext hdirect]
  rfl

/-- `Inode`, `kernel/fs/inode.h`; `holder` is the process that has its sleep lock. -/
structure SharedInode where
  device : UInt32
  inum : UInt32
  refCount : Nat
  holder : Option Nat
  valid : Bool
  dinode : DiskInode

/-- The table key of an inode. -/
def SharedInode.key (x : SharedInode) : UInt64 := Fs.key x.device x.inum

namespace Inodes

/-- The next step of a process; `i` is its inode, and `made` is the type if `allocate` calls
`get`. -/
inductive Pc where
  | outside
  | scan (device inum : UInt32) (type : UInt16)
  | lockGet (device inum : UInt32) (made : Option UInt16)
  | find (device inum : UInt32) (made : Option UInt16)
  | unlockGet (i : Nat)
  | lockDup (i : Nat)
  | dup (i : Nat)
  | unlockDup (i : Nat)
  | wait (i : Nat)
  | load (i : Nat)
  | lockPut (i : Nat)
  | checkCount (i : Nat)
  | checkValid (i : Nat)
  | checkLinks (i : Nat)
  | takeLock (i : Nat)
  | leaveTable (i : Nat)
  | truncate (i : Nat)
  | updateTruncated (i : Nat)
  | clearType (i : Nat)
  | updateCleared (i : Nat)
  | invalidate (i : Nat)
  | unlockInode (i : Nat)
  | relockPut (i : Nat)
  | drop (i : Nat)
  | unlockPut
  deriving DecidableEq, Repr

/-- What a process does next: call a function, change an inode that it has locked, or go on. -/
inductive Use where
  | get (device inum : UInt32)
  | allocate (device : UInt32) (type : UInt16)
  | dup (i : Nat)
  | lock (i : Nat)
  | unlock (i : Nat)
  | put (i : Nat)
  | change (i : Nat) (d : DiskInode)
  | go

end Inodes

/-- `itable`, the inodes on the disk and the processes. `mutex` is the process that has the spin
lock. -/
structure Inodes where
  mutex : Option Nat
  table : Table UInt64 Nat
  inode : Nat → SharedInode
  next : Nat
  disk : UInt64 → DiskInode
  numInodes : UInt32
  pc : Nat → Inodes.Pc
  refs : List (Nat × Nat)
  made : List (Nat × UInt64 × UInt16)
  latest : UInt64 → DiskInode

namespace Inodes

/-- Move a process on. -/
def goto (s : Inodes) (a : Nat) (l : Pc) : Inodes := { s with pc := Function.update s.pc a l }

/-- Change the fields of an in-memory inode. -/
def setInode (s : Inodes) (i : Nat) (f : SharedInode → SharedInode) : Inodes :=
  { s with inode := Function.update s.inode i (f (s.inode i)) }

/-- `SpinMutex::lock` on the table, once the lock is free. -/
def lock (s : Inodes) (a : Nat) (l : Pc) : Option Inodes :=
  if s.mutex = none then some ({ s with mutex := some a }.goto a l) else none

/-- `SpinMutex::unlock` on the table. -/
def unlock (s : Inodes) (a : Nat) (l : Pc) : Inodes := { s with mutex := none }.goto a l

/-- `SleepMutex::lock` on an inode, once the lock is free. -/
def take (s : Inodes) (a i : Nat) (l : Pc) : Option Inodes :=
  if (s.inode i).holder = none then
    some ((s.setInode i fun x ↦ { x with holder := some a }).goto a l)
  else none

/-- Change a reference count, and the references that are held. -/
def recount (s : Inodes) (i n : Nat) (refs : List (Nat × Nat)) : Inodes :=
  { s.setInode i fun x ↦ { x with refCount := n } with refs := refs }

/-- `++refCount`. -/
def refer (s : Inodes) (a i : Nat) (l : Pc) : Inodes :=
  (s.recount i ((s.inode i).refCount + 1) ((a, i) :: s.refs)).goto a l

/-- `Inode::update`. -/
def update (s : Inodes) (i : Nat) : Inodes :=
  { s with disk := Function.update s.disk (s.inode i).key (s.inode i).dinode }

/-- A process that has locked an inode changes it and updates it. -/
def change (s : Inodes) (i : Nat) (d : DiskInode) : Inodes :=
  { (s.setInode i fun x ↦ { x with dinode := d }).update i with
    latest := Function.update s.latest (s.inode i).key d }

/-- `allocate` writes a free inode. -/
def claim (s : Inodes) (a : Nat) (k : UInt64) (type : UInt16) : Inodes :=
  { s with
    disk := Function.update s.disk k (claimed (s.disk k) type)
    latest := Function.update s.latest k (claimed (s.disk k) type)
    made := (a, k, type) :: s.made }

/-- A round of the loop of `allocate`. -/
def scan (s : Inodes) (a : Nat) (device inum : UInt32) (type : UInt16) : Inodes :=
  if inum < s.numInodes then
    if (s.disk (key device inum)).type = 0 then
      (s.claim a (key device inum) type).goto a (.lockGet device inum (some type))
    else s.goto a (.scan device (inum + 1) type)
  else s.goto a .outside

/-- A new inode in the table. -/
def insert (s : Inodes) (device inum : UInt32) : Inodes :=
  { s with
    table := (s.table.touch (key device inum)).update (key device inum) fun _ ↦ s.next
    inode := Function.update s.inode s.next
      ⟨device, inum, 0, none, false, ⟨0, 0, 0, 0, 0, fun _ ↦ 0, 0⟩⟩
    next := s.next + 1 }

/-- The branch of `get` on whether the table has the inode. -/
def find (s : Inodes) (a : Nat) (device inum : UInt32) : Inodes :=
  match s.table.lookup (key device inum) with
  | some i => s.refer a i (.unlockGet i)
  | none => (s.insert device inum).refer a s.next (.unlockGet s.next)

/-- `lock` behind `mutex.lock()`, up to its assertion. -/
def load (s : Inodes) (a i : Nat) : Option Inodes :=
  if (s.inode i).valid then some (s.goto a .outside)
  else if (s.disk (s.inode i).key).type ≠ 0 then
    some ((s.setInode i fun x ↦ { x with dinode := s.disk x.key, valid := true }).goto a .outside)
  else none

/-- `--refCount`. -/
def drop (s : Inodes) (a i : Nat) : Inodes :=
  (s.recount i ((s.inode i).refCount - 1) (s.refs.erase (a, i))).goto a .unlockPut

/-- The next step of the code. -/
def go (s : Inodes) (a : Nat) : Option Inodes :=
  match s.pc a with
  | .outside => none
  | .scan device inum type => some (s.scan a device inum type)
  | .lockGet device inum made => s.lock a (.find device inum made)
  | .find device inum _ => some (s.find a device inum)
  | .unlockGet _ => some (s.unlock a .outside)
  | .lockDup i => s.lock a (.dup i)
  | .dup i => some (s.refer a i (.unlockDup i))
  | .unlockDup _ => some (s.unlock a .outside)
  | .wait i => s.take a i (.load i)
  | .load i => s.load a i
  | .lockPut i => s.lock a (.checkCount i)
  | .checkCount i =>
    some (s.goto a (if (s.inode i).refCount = 1 then .checkValid i else .drop i))
  | .checkValid i => some (s.goto a (if (s.inode i).valid then .checkLinks i else .drop i))
  | .checkLinks i =>
    some (s.goto a (if (s.inode i).dinode.numLinks = 0 then .takeLock i else .drop i))
  | .takeLock i => s.take a i (.leaveTable i)
  | .leaveTable i => some (s.unlock a (.truncate i))
  | .truncate i =>
    some ((s.setInode i fun x ↦ { x with dinode := emptied x.dinode }).goto a (.updateTruncated i))
  | .updateTruncated i => some ((s.update i).goto a (.clearType i))
  | .clearType i =>
    some ((s.setInode i fun x ↦ { x with dinode := { x.dinode with type := 0 } }).goto a
      (.updateCleared i))
  | .updateCleared i => some ((s.update i).goto a (.invalidate i))
  | .invalidate i => some ((s.setInode i fun x ↦ { x with valid := false }).goto a (.unlockInode i))
  | .unlockInode i =>
    some ((s.setInode i fun x ↦ { x with holder := none }).goto a (.relockPut i))
  | .relockPut i => s.lock a (.drop i)
  | .drop i => some (s.drop a i)
  | .unlockPut => some (s.unlock a .outside)

/-- `put` is called. What `allocate` made is of no concern to a process that puts its last
reference. -/
def callPut (s : Inodes) (a i : Nat) : Inodes :=
  { s with made :=
      if s.refs.count (a, i) = 1 then s.made.filter fun m ↦ ¬ (m.1 = a ∧ m.2.1 = (s.inode i).key)
      else s.made }.goto a (.lockPut i)

/-- A process that is in none of the functions calls one, or changes an inode and updates it. A
process uses an inode only while it has a reference, and puts it only while it does not have its
lock; a change keeps the type. -/
def call (s : Inodes) (a : Nat) : Use → Option Inodes
  | .get device inum => some (s.goto a (.lockGet device inum none))
  | .allocate device type => some (s.goto a (.scan device 1 type))
  | .dup i => if (a, i) ∈ s.refs then some (s.goto a (.lockDup i)) else none
  | .lock i =>
    if (a, i) ∈ s.refs ∧ 1 ≤ (s.inode i).refCount then some (s.goto a (.wait i)) else none
  | .unlock i =>
    if (s.inode i).holder = some a ∧ 1 ≤ (s.inode i).refCount then
      some (s.setInode i fun x ↦ { x with holder := none })
    else none
  | .put i =>
    if (a, i) ∈ s.refs ∧ (s.inode i).holder ≠ some a then some (s.callPut a i) else none
  | .change i d =>
    if (s.inode i).holder = some a ∧ d.type = (s.inode i).dinode.type then
      some (s.change i d)
    else none
  | .go => none

/-- One step of a process. -/
def step (s : Inodes) (e : Nat × Use) : Option Inodes :=
  match e.2 with
  | .go => s.go e.1
  | use => if s.pc e.1 = .outside then s.call e.1 use else none

/-- An empty table that nobody uses. -/
def initial (bucket : UInt64 → Nat) (numInodes : UInt32) (disk : UInt64 → DiskInode) : Inodes where
  mutex := none
  table := Table.empty bucket
  inode _ := ⟨0, 0, 0, none, false, ⟨0, 0, 0, 0, 0, fun _ ↦ 0, 0⟩⟩
  next := 0
  disk := disk
  numInodes := numInodes
  pc _ := .outside
  refs := []
  made := []
  latest := disk

namespace Pc

/-- The process has a reference to the inode and is about to use it. -/
@[simp] def Refers (i : Nat) : Pc → Prop
  | .unlockGet j | .lockDup j | .dup j | .unlockDup j | .wait j | .load j | .lockPut j
  | .checkCount j | .checkValid j | .checkLinks j | .takeLock j | .leaveTable j | .truncate j
  | .updateTruncated j | .clearType j | .updateCleared j | .invalidate j | .unlockInode j
  | .relockPut j | .drop j => j = i
  | .outside | .scan _ _ _ | .lockGet _ _ _ | .find _ _ _ | .unlockPut => False

/-- The process has the spin lock of the table. -/
@[simp] def InMutex : Pc → Prop
  | .find _ _ _ | .unlockGet _ | .dup _ | .unlockDup _ | .checkCount _ | .checkValid _
  | .checkLinks _ | .takeLock _ | .leaveTable _ | .drop _ | .unlockPut => True
  | .outside | .scan _ _ _ | .lockGet _ _ _ | .lockDup _ | .wait _ | .load _ | .lockPut _
  | .truncate _ | .updateTruncated _ | .clearType _ | .updateCleared _ | .invalidate _
  | .unlockInode _ | .relockPut _ => False

/-- The process is in `put` and frees the inode, with its lock. -/
@[simp] def Clears (i : Nat) : Pc → Prop
  | .leaveTable j | .truncate j | .updateTruncated j | .clearType j | .updateCleared j
  | .invalidate j | .unlockInode j => j = i
  | _ => False

/-- The process is in `put` and does not have the lock of the inode. -/
@[simp] def Apart (i : Nat) : Pc → Prop
  | .lockPut j | .checkCount j | .checkValid j | .checkLinks j | .takeLock j | .relockPut j
  | .drop j => j = i
  | _ => False

/-- The process has the lock of the inode in one of the functions. -/
def Owns (i : Nat) (l : Pc) : Prop := l = .load i ∨ l.Clears i

/-- The process has written the inode in `allocate` and not got it yet. -/
@[simp] def Claims (k : UInt64) : Pc → Prop
  | .lockGet device inum (some _) | .find device inum (some _) => key device inum = k
  | _ => False

instance (i : Nat) : DecidablePred (Clears i)
  | .leaveTable j | .truncate j | .updateTruncated j | .clearType j | .updateCleared j
  | .invalidate j | .unlockInode j => inferInstanceAs (Decidable (j = i))
  | .outside | .scan _ _ _ | .lockGet _ _ _ | .find _ _ _ | .unlockGet _ | .lockDup _ | .dup _
  | .unlockDup _ | .wait _ | .load _ | .lockPut _ | .checkCount _ | .checkValid _ | .checkLinks _
  | .takeLock _ | .relockPut _ | .drop _ | .unlockPut => .isFalse id

end Pc

/-- `put` frees only what nobody else refers to, and does not wait for a lock while it has the spin
lock. A process that has locked an inode sees what is on the disk, and one that got it from
`allocate` sees the inode that `allocate` made, with the changes of the lock holders since. -/
structure Sound (s : Inodes) : Prop where
  counted : ∀ i, (s.inode i).refCount = s.refs.countP fun r ↦ r.2 = i
  free : ∀ a i, s.pc a = .takeLock i → (s.inode i).holder = none
  sole : ∀ a i, s.pc a = .takeLock i →
    s.refs.filter (fun r ↦ (s.inode r.2).key = (s.inode i).key) = [(a, i)]
  unlinked : ∀ a i, s.pc a = .takeLock i ∨ (s.pc a).Clears i → (s.inode i).dinode.numLinks = 0
  cleared : ∀ e u k, s.step e = some u → (s.disk k).type ≠ 0 → (u.disk k).type = 0 →
    ∃ i, s.pc e.1 = .updateCleared i ∧ (s.inode i).key = k
  locked : ∀ a i, (s.inode i).holder = some a → ¬ (s.pc a).Owns i →
    (s.inode i).valid = true ∧ (s.inode i).dinode = s.disk (s.inode i).key
  made : ∀ a k type, (a, k, type) ∈ s.made →
    type ≠ 0 ∧ (s.disk k).type = type ∧ s.disk k = s.latest k

/-- The insertion by `get` unlinks no inode that has references, `put` does not begin to free an
inode that an `allocate` has written and not got yet, and `allocate` is called with a type. -/
structure Careful (s : Inodes) (e : Nat × Use) : Prop where
  keeps : ∀ device inum made, s.pc e.1 = .find device inum made → ∀ i,
    0 < (s.inode i).refCount → s.table.lookup (s.inode i).key = some i →
      (s.table.touch (key device inum)).lookup (s.inode i).key = some i
  spares : ∀ i, s.pc e.1 = .checkLinks i → (s.inode i).dinode.numLinks = 0 →
    ∀ b, ¬ (s.pc b).Claims (s.inode i).key
  typed : ∀ device type, e.2 = .allocate device type → type ≠ 0

end Inodes
end Orfos.Fs
