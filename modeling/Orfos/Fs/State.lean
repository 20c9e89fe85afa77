import Orfos.Base.Traced
import Orfos.Base.Words
import Orfos.Lib.HashTable

/-!
# File-system state

The data of `kernel/fs`: blocks, the superblock, the buffer cache, the log and the table of
in-memory inodes, for one kernel thread at a time. Pointers to buffers and to in-memory
inodes are object numbers that are never reused, as `operator delete` never gives memory
back (`kernel/lib/new.cpp`); a deleted object keeps its contents. A sleep lock is a flag:
acquiring a taken one never returns.
The disk answers for every block number; a device error panics the kernel in
`diskInterrupt` and is not a return.

`superBlock.magic` and `numBlocks` are read by no modelled function and are left out, as
are the fields of the disk driver and the process identifier of a sleep lock.
-/

namespace Orfos.Fs

open Orfos.Base Orfos.Lib

/-- `BLOCK_SIZE`, `kernel/fs/block.h`. -/
abbrev BLOCK_SIZE : Nat := 1024

/-- `BITS_PER_BLOCK`, `kernel/fs/block.h`. -/
abbrev BITS_PER_BLOCK : Nat := BLOCK_SIZE * 8

/-- `MAX_OP_BLOCKS`, `kernel/fs/log.h`. -/
abbrev MAX_OP_BLOCKS : Nat := 10

/-- `LOG_SIZE`, `kernel/fs/log.h`. -/
abbrev LOG_SIZE : Nat := MAX_OP_BLOCKS * 3

/-- The bytes of one disk block. -/
abbrev Block : Type := Fin BLOCK_SIZE → UInt8

/-- A block of zero bytes. -/
def Block.zero : Block := fun _ ↦ 0

/-- `SuperBlock`, `kernel/fs/super_block.h`. -/
structure SuperBlock where
  size : UInt32
  numInodes : UInt32
  numLogs : UInt32
  logStart : UInt32
  inodeStart : UInt32
  bmapStart : UInt32

/-- `Buffer`, `kernel/fs/buffer.h`. -/
structure Buffer where
  valid : Bool
  device : UInt32
  block : UInt32
  refCount : UInt32
  locked : Bool
  data : Block

/-- `BufferCache`, `kernel/fs/buffer.h`: the table of buffer pointers and the buffers. -/
structure BufferCache where
  bufferTable : Table UInt64 Nat
  buffers : Nat → Buffer
  next : Nat

/-- `Log`, `kernel/fs/log.h`. The header's `block[0..n)` is a list of length `n`; entries
past `n` are written before they are read. -/
structure Log where
  start : UInt32
  size : UInt64
  outstanding : Int
  committing : Bool
  device : UInt32
  header : List UInt32

/-- `NUM_DIRECT_BLOCKS`, `kernel/fs/inode.h`. -/
abbrev NUM_DIRECT_BLOCKS : Nat := 12

instance (priority := high) directBlocks_neZero : NeZero NUM_DIRECT_BLOCKS := ⟨by decide⟩

/-- `DiskInode`, `kernel/fs/inode.h`; the four `int16_t` fields are kept as raw words. -/
structure DiskInode where
  type : UInt16
  major : UInt16
  minor : UInt16
  numLinks : UInt16
  size : UInt32
  directBlocks : Fin NUM_DIRECT_BLOCKS → UInt32
  indirectBlock : UInt32

/-- `Inode`, `kernel/fs/inode.h`: identity, reference count, sleep lock and the copy of the
disk inode that `valid` vouches for. -/
structure Inode where
  device : UInt32
  inum : UInt32
  refCount : UInt32
  locked : Bool
  valid : Bool
  dinode : DiskInode

/-- `Itable`, `kernel/fs/inode.cpp`: keys to in-memory inodes, and the inodes. -/
structure Itable where
  table : Table UInt64 Nat
  inodes : Nat → Inode
  next : Nat

/-- One page of user memory. -/
abbrev PAGE_SIZE : Nat := 4096

/-- The state that the functions of `kernel/fs` read and write. `user` gives the user-mapped
pages of the current process by virtual page number, and `cwd` its working directory. `kernel`
is the memory of the kernel that is copied to and from files, and `overrun` is what `strncmp`
finds behind two names that agree in all their bytes and have no zero byte. -/
structure State where
  disk : UInt32 → Block
  cache : BufferCache
  log : Log
  superBlock : SuperBlock
  itable : Itable
  cwd : Nat
  user : Nat → Option (Nat → UInt8)
  kernel : UInt64 → UInt8
  overrun : Bool

/-- The calls that a run of the file system announces, each before it takes effect. -/
inductive Call where
  | get (device block : UInt32)
  | diskWrite (block : UInt32)
  | writeLog (block : UInt32)
  | unlock (inode : Nat)

/-- A program of the file system. -/
abbrev FsM : Type → Type := Traced State Call

/-- The table key `(device << 32) | number` of buffers and in-memory inodes. -/
def key (device number : UInt32) : UInt64 := device.toUInt64 <<< 32 ||| number.toUInt64

/-- The key is the pair. -/
theorem toNat_key (device number : UInt32) :
    (key device number).toNat = device.toNat * 2 ^ 32 + number.toNat := by
  have hd := device.toNat_lt
  have hn := number.toNat_lt
  rw [key, UInt64.toNat_or, UInt64.toNat_shiftLeft]
  simp only [UInt32.toNat_toUInt64]
  change device.toNat <<< 32 % 2 ^ 64 ||| number.toNat = _
  rw [Nat.shiftLeft_eq, Nat.mod_eq_of_lt (by omega), ← Nat.shiftLeft_eq,
    ← Nat.shiftLeft_add_eq_or_of_lt hn, Nat.shiftLeft_eq]

/-- Different devices or numbers have different keys. -/
theorem key_inj {d d' n n' : UInt32} : key d n = key d' n' ↔ d = d' ∧ n = n' := by
  constructor
  · intro h
    have ht := congrArg UInt64.toNat h
    rw [toNat_key, toNat_key] at ht
    have hn := n.toNat_lt
    have hn' := n'.toNat_lt
    exact ⟨UInt32.toNat_inj.mp (by omega), UInt32.toNat_inj.mp (by omega)⟩
  · rintro ⟨rfl, rfl⟩
    rfl

end Orfos.Fs
