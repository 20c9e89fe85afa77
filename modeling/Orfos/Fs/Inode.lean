import Orfos.Fs.Block

/-!
# Inodes

The functions of `kernel/fs/inode.cpp`, and `eitherCopyout` and `eitherCopyin` of
`kernel/memory/copy.cpp` with the loops of `PageTable::copyout` and `copyin` over the user pages.
A path is the list of its bytes before the terminating zero. The local variables of type
`DirectoryEntry` are the sixteen bytes of kernel memory at `ENTRY`; no function uses two of
them at a time. `poffset` is null in every call of `dirLookup` and is left out.
-/

namespace Orfos.Fs

open Orfos.Base Orfos.Base.Traced Orfos.Lib

/-- `NUM_INDIRECT_BLOCKS`, `kernel/fs/inode.h`. -/
abbrev NUM_INDIRECT_BLOCKS : Nat := BLOCK_SIZE / 4

/-- `MAX_FILE`, `kernel/fs/inode.h`. -/
abbrev MAX_FILE : Nat := NUM_DIRECT_BLOCKS + NUM_INDIRECT_BLOCKS

/-- `ROOT_DEVICE`, `kernel/fs/inode.h`. -/
abbrev ROOT_DEVICE : UInt32 := 1

/-- `ROOT_INUM`, `kernel/fs/inode.h`. -/
abbrev ROOT_INUM : UInt32 := 1

/-- `INODES_PER_BLOCK`, `kernel/fs/inode.h`. -/
abbrev INODES_PER_BLOCK : Nat := BLOCK_SIZE / 64

/-- `MAX_DIR_NAME_LENGTH`, `kernel/fs/inode.h`. -/
abbrev MAX_DIR_NAME_LENGTH : Nat := 14

/-- `T_DIR`, `kernel/fs/stat.h`. -/
abbrev T_DIR : UInt16 := 1

/-- `T_FILE`, `kernel/fs/stat.h`. -/
abbrev T_FILE : UInt16 := 2

/-- `T_DEVICE`, `kernel/fs/stat.h`. -/
abbrev T_DEVICE : UInt16 := 3

/-- A name buffer of `MAX_DIR_NAME_LENGTH` bytes. -/
abbrev Name : Type := Fin MAX_DIR_NAME_LENGTH → UInt8

/-- `sizeof(DirectoryEntry)`. -/
abbrev ENTRY_SIZE : Nat := 2 + MAX_DIR_NAME_LENGTH

/-- The address of the local variable `entry`. -/
abbrev ENTRY : UInt64 := 0

/-- `iblock`: the block of a disk inode. -/
def iblock (i : UInt32) (sb : SuperBlock) : UInt32 :=
  i / UInt32.ofNat INODES_PER_BLOCK + sb.inodeStart

/-- Where a disk inode starts in its block. -/
def dinodeAt (i : UInt32) : Nat := 64 * (i.toNat % INODES_PER_BLOCK)

namespace DiskInode

/-- The disk inode in the bytes of a block. -/
def load (data : Block) (o : Nat) : DiskInode where
  type := getU16 data o
  major := getU16 data (o + 2)
  minor := getU16 data (o + 4)
  numLinks := getU16 data (o + 6)
  size := getU32 data (o + 8)
  directBlocks k := getU32 data (o + 12 + 4 * k)
  indirectBlock := getU32 data (o + 60)

/-- The bytes of a block after a disk inode was stored in it. -/
def store (d : DiskInode) (o : Nat) (data : Block) : Block :=
  let data := putU16 data o d.type
  let data := putU16 data (o + 2) d.major
  let data := putU16 data (o + 4) d.minor
  let data := putU16 data (o + 6) d.numLinks
  let data := putU32 data (o + 8) d.size
  let data := putBlocks (List.ofFn d.directBlocks) (o + 12) data
  putU32 data (o + 60) d.indirectBlock

end DiskInode

/-- Change the in-memory inode behind a pointer. -/
def State.setInode (s : State) (i : Nat) (f : Inode → Inode) : State :=
  { s with itable := { s.itable with
      inodes := Function.update s.itable.inodes i (f (s.itable.inodes i)) } }

/-- Put a new in-memory inode into the table. -/
def State.newInode (s : State) (device inum : UInt32) : State :=
  { s with itable := {
      table := (s.itable.table.touch (key device inum)).update (key device inum)
        fun _ ↦ s.itable.next
      inodes := Function.update s.itable.inodes s.itable.next
        ⟨device, inum, 1, false, false, ⟨0, 0, 0, 0, 0, fun _ ↦ 0, 0⟩⟩
      next := s.itable.next + 1 } }

/-! ### Copies between buffers and memory -/

/-- The loop of `PageTable::copyout`, for at most `n` rounds. -/
def copyoutFrom : Nat → UInt64 → List UInt8 → FsM Bool
  | 0, _, _ => pure true
  | n + 1, dst, src => do
    if src = [] then pure true
    else
      let page ← gets fun s ↦ s.user (dst.toNat / PAGE_SIZE)
      match page with
      | none => pure false
      | some page =>
        let o := dst.toNat % PAGE_SIZE
        let len := min (PAGE_SIZE - o) src.length
        let page := fun k ↦ if o ≤ k ∧ k < o + len then src.getD (k - o) 0 else page k
        modify fun s ↦
          { s with user := Function.update s.user (dst.toNat / PAGE_SIZE) (some page) }
        copyoutFrom n (dst + UInt64.ofNat (PAGE_SIZE - o)) (src.drop len)

/-- `eitherCopyout`. -/
def eitherCopyout (userDst : Bool) (dst : UInt64) (src : List UInt8) : FsM Bool := do
  if userDst then copyoutFrom src.length dst src
  else
    modify fun s ↦ { s with kernel := fun a ↦ src.getD (a - dst).toNat (s.kernel a) }
    pure true

/-- The loop of `PageTable::copyin` into a buffer, for at most `n` rounds. -/
def copyinFrom (bp : Nat) : Nat → Nat → UInt64 → Nat → FsM Bool
  | 0, _, _, _ => pure true
  | n + 1, dst, src, len => do
    if len = 0 then pure true
    else
      let page ← gets fun s ↦ s.user (src.toNat / PAGE_SIZE)
      match page with
      | none => pure false
      | some page =>
        let o := src.toNat % PAGE_SIZE
        let m := min (PAGE_SIZE - o) len
        modify fun s ↦ s.setBuffer bp fun x ↦
          { x with data := putBytes x.data dst m fun k ↦ page (o + k) }
        copyinFrom bp n (dst + m) (src + UInt64.ofNat (PAGE_SIZE - o)) (len - m)

/-- `eitherCopyin` into a buffer from an offset on. -/
def eitherCopyin (bp dst : Nat) (userSrc : Bool) (src : UInt64) (len : Nat) : FsM Bool := do
  if userSrc then copyinFrom bp len dst src len
  else
    modify fun s ↦ s.setBuffer bp fun x ↦
      { x with data := putBytes x.data dst len fun k ↦ s.kernel (src + UInt64.ofNat k) }
    pure true

/-! ### Names -/

/-- `strncmp(..) == 0`, `kernel/lib/string.cpp`. The function does not look at its bound: behind
the last byte of the arrays the answer is `overrun`. -/
def strncmpZero (overrun : Bool) : List UInt8 → List UInt8 → Bool
  | a :: as, b :: bs => if a = b then a = 0 || strncmpZero overrun as bs else false
  | _, _ => overrun

/-- `strncpy`, `kernel/lib/string.cpp`: the bytes up to the first zero byte, and zero bytes. -/
def strncpy : List UInt8 → List UInt8
  | [] => []
  | c :: t => if c = 0 then c :: t.map fun _ ↦ 0 else c :: strncpy t

/-- `skipElement`: the path behind its first element, and the name buffer with that element. -/
def skipElement (path : List UInt8) (name : Name) : Option (List UInt8 × Name) :=
  let slash : UInt8 := 47
  let path := path.dropWhile (· = slash)
  if path = [] then none
  else
    let s := path.takeWhile (· ≠ slash)
    let rest := (path.dropWhile (· ≠ slash)).dropWhile (· = slash)
    if MAX_DIR_NAME_LENGTH ≤ s.length then some (rest, fun k ↦ s.getD k 0)
    else some (rest, fun k ↦ (s ++ [0]).getD k (name k))

/-- A string literal shorter than a name buffer. -/
def literal (s : List UInt8) : Name := fun k ↦ s.getD k 0

namespace Inode

/-- `Inode::get`. -/
def get (device inum : UInt32) : FsM Nat := do
  let found ← gets fun s ↦ s.itable.table.lookup (key device inum)
  match found with
  | some i =>
    modify fun s ↦ s.setInode i fun x ↦ { x with refCount := x.refCount + 1 }
    pure i
  | none =>
    let i ← gets fun s ↦ s.itable.next
    modify fun s ↦ s.newInode device inum
    pure i

/-- The loop of `Inode::allocate` from inode `i` on, for at most `n` rounds. -/
def allocateFrom (device : UInt32) (type : UInt16) : Nat → UInt32 → FsM (Option Nat)
  | 0, _ => pure none
  | n + 1, i => do
    let sb ← gets fun s ↦ s.superBlock
    if i < sb.numInodes then
      let bp ← BufferCache.get device (iblock i sb)
      Buffer.read bp
      let data ← gets fun s ↦ (s.cache.buffers bp).data
      if (DiskInode.load data (dinodeAt i)).type = 0 then
        modify fun s ↦ s.setBuffer bp fun x ↦
          { x with data := putU16 (memset x.data (dinodeAt i) 0 64) (dinodeAt i) type }
        writeLog bp
        BufferCache.release bp
        let ip ← get device i
        pure (some ip)
      else
        BufferCache.release bp
        allocateFrom device type n (i + 1)
    else pure none

/-- `Inode::allocate`. -/
def allocate (device : UInt32) (type : UInt16) : FsM (Option Nat) := do
  let sb ← gets fun s ↦ s.superBlock
  allocateFrom device type sb.numInodes.toNat 1

/-- `Inode::dup`. -/
def dup (i : Nat) : FsM Nat := do
  modify fun s ↦ s.setInode i fun x ↦ { x with refCount := x.refCount + 1 }
  pure i

/-- `Inode::lock`. -/
def lock (i : Nat) : FsM Unit := do
  assert fun s ↦ 1 ≤ (s.itable.inodes i).refCount
  -- `SleepMutex::lock` sleeps for as long as the lock is taken
  assert fun s ↦ (s.itable.inodes i).locked = false
  modify fun s ↦ s.setInode i fun x ↦ { x with locked := true }
  let ip ← gets fun s ↦ s.itable.inodes i
  if ¬ ip.valid then
    let sb ← gets fun s ↦ s.superBlock
    let bp ← BufferCache.get ip.device (iblock ip.inum sb)
    Buffer.read bp
    modify fun s ↦ s.setInode i fun x ↦
      { x with dinode := DiskInode.load (s.cache.buffers bp).data (dinodeAt ip.inum) }
    BufferCache.release bp
    modify fun s ↦ s.setInode i fun x ↦ { x with valid := true }
    assert fun s ↦ (s.itable.inodes i).dinode.type ≠ 0

/-- `Inode::unlock`. -/
def unlock (i : Nat) : FsM Unit := do
  call (.unlock i)
  -- `holding` also compares the pid of the owner, which is not part of the state
  assert fun s ↦ (s.itable.inodes i).locked = true
  assert fun s ↦ 1 ≤ (s.itable.inodes i).refCount
  modify fun s ↦ s.setInode i fun x ↦ { x with locked := false }

/-- `Inode::update`. -/
def update (i : Nat) : FsM Unit := do
  let ip ← gets fun s ↦ s.itable.inodes i
  let sb ← gets fun s ↦ s.superBlock
  let bp ← BufferCache.get ip.device (iblock ip.inum sb)
  Buffer.read bp
  modify fun s ↦ s.setBuffer bp fun x ↦
    { x with data := ip.dinode.store (dinodeAt ip.inum) x.data }
  writeLog bp
  BufferCache.release bp

/-- Change the disk inode of an in-memory inode. -/
def setDinode (i : Nat) (f : DiskInode → DiskInode) : FsM Unit :=
  modify fun s ↦ s.setInode i fun x ↦ { x with dinode := f x.dinode }

/-- A round of the first loop of `Inode::truncate`. -/
def truncateDirect (i : Nat) (k : Fin NUM_DIRECT_BLOCKS) : FsM Unit := do
  let ip ← gets fun s ↦ s.itable.inodes i
  if ip.dinode.directBlocks k ≠ 0 then
    freeBlock ip.device (ip.dinode.directBlocks k)
    setDinode i fun d ↦ { d with directBlocks := Function.update d.directBlocks k 0 }

/-- A round of the second loop of `Inode::truncate`. -/
def truncateIndirect (device : UInt32) (bp k : Nat) : FsM Unit := do
  let address ← gets fun s ↦ getU32 (s.cache.buffers bp).data (4 * k)
  if address ≠ 0 then
    freeBlock device address

/-- `Inode::truncate`. -/
def truncate (i : Nat) : FsM Unit := do
  (List.finRange NUM_DIRECT_BLOCKS).forM (truncateDirect i)
  let ip ← gets fun s ↦ s.itable.inodes i
  if ip.dinode.indirectBlock ≠ 0 then
    let bp ← BufferCache.get ip.device ip.dinode.indirectBlock
    Buffer.read bp
    (List.range NUM_INDIRECT_BLOCKS).forM (truncateIndirect ip.device bp)
    BufferCache.release bp
    freeBlock ip.device ip.dinode.indirectBlock
    setDinode i fun d ↦ { d with indirectBlock := 0 }
  setDinode i fun d ↦ { d with size := 0 }
  update i

/-- `Inode::put`. -/
def put (i : Nat) : FsM Unit := do
  let ip ← gets fun s ↦ s.itable.inodes i
  if ip.refCount = 1 ∧ ip.valid = true ∧ ip.dinode.numLinks = 0 then
    assert fun s ↦ (s.itable.inodes i).locked = false
    modify fun s ↦ s.setInode i fun x ↦ { x with locked := true }
    truncate i
    setDinode i fun d ↦ { d with type := 0 }
    update i
    modify fun s ↦ s.setInode i fun x ↦ { x with valid := false }
    modify fun s ↦ s.setInode i fun x ↦ { x with locked := false }
  modify fun s ↦ s.setInode i fun x ↦ { x with refCount := x.refCount - 1 }

/-- The part of `Inode::bmap` for direct blocks. -/
def bmapDirect (i : Nat) (bn : Fin NUM_DIRECT_BLOCKS) : FsM UInt32 := do
  let ip ← gets fun s ↦ s.itable.inodes i
  if ip.dinode.directBlocks bn = 0 then
    let block ← allocateBlock ip.device
    setDinode i fun d ↦ { d with directBlocks := Function.update d.directBlocks bn block }
  gets fun s ↦ (s.itable.inodes i).dinode.directBlocks bn

/-- The part of `Inode::bmap` for the blocks in the indirect block, which is not read. -/
def bmapIndirect (i bn : Nat) : FsM UInt32 := do
  let ip ← gets fun s ↦ s.itable.inodes i
  if ip.dinode.indirectBlock = 0 then
    let block ← allocateBlock ip.device
    setDinode i fun d ↦ { d with indirectBlock := block }
  let indirect ← gets fun s ↦ (s.itable.inodes i).dinode.indirectBlock
  if indirect = 0 then pure 0
  else
    let bp ← BufferCache.get ip.device indirect
    let address ← gets fun s ↦ getU32 (s.cache.buffers bp).data (4 * bn)
    if address = 0 then
      let block ← allocateBlock ip.device
      modify fun s ↦ s.setBuffer bp fun x ↦ { x with data := putU32 x.data (4 * bn) block }
      if block ≠ 0 then
        writeLog bp
    BufferCache.release bp
    gets fun s ↦ getU32 (s.cache.buffers bp).data (4 * bn)

/-- `Inode::bmap`. -/
def bmap (i : Nat) (bn : UInt32) : FsM UInt32 := do
  if h : bn.toNat < NUM_DIRECT_BLOCKS then bmapDirect i ⟨bn.toNat, h⟩
  else
    assert fun _ ↦ bn.toNat - NUM_DIRECT_BLOCKS < NUM_INDIRECT_BLOCKS
    bmapIndirect i (bn.toNat - NUM_DIRECT_BLOCKS)

/-- The bytes of a part of a block. -/
def slice (data : Block) (o len : Nat) : List UInt8 :=
  (List.range len).map fun k ↦ byteAt data (o + k)

/-- The loop of `Inode::read` for the rest of the bytes, at most `n` of them. -/
def readFrom (i : Nat) (userDst : Bool) (length : UInt32) :
    Nat → UInt64 → UInt32 → UInt32 → FsM Int32
  | 0, _, _, tot => pure tot.toInt32
  | n + 1, dst, offset, tot => do
    if tot < length then
      let address ← bmap i (offset / UInt32.ofNat BLOCK_SIZE)
      if address = 0 then pure tot.toInt32
      else
        let device ← gets fun s ↦ (s.itable.inodes i).device
        let bp ← BufferCache.get device address
        Buffer.read bp
        let o := offset.toNat % BLOCK_SIZE
        let len := min (length - tot).toNat (BLOCK_SIZE - o)
        let data ← gets fun s ↦ (s.cache.buffers bp).data
        let copied ← eitherCopyout userDst dst (slice data o len)
        BufferCache.release bp
        if copied then
          readFrom i userDst length n (dst + UInt64.ofNat len) (offset + UInt32.ofNat len)
            (tot + UInt32.ofNat len)
        else pure (-1)
    else pure tot.toInt32

/-- `Inode::read`. -/
def read (i : Nat) (userDst : Bool) (dst : UInt64) (offset length : UInt32) : FsM Int32 := do
  let size ← gets fun s ↦ (s.itable.inodes i).dinode.size
  if offset > size ∨ offset + length < offset then pure 0
  else
    let length := if offset + length > size then size - offset else length
    readFrom i userDst length length.toNat dst offset 0

/-- The loop of `Inode::write` for the rest of the bytes, at most `n` of them. It returns the
offset that it has reached and the number of bytes. -/
def writeFrom (i : Nat) (userSrc : Bool) (length : UInt32) :
    Nat → UInt64 → UInt32 → UInt32 → FsM (UInt32 × UInt32)
  | 0, _, offset, tot => pure (offset, tot)
  | n + 1, src, offset, tot => do
    if tot < length then
      let address ← bmap i (offset / UInt32.ofNat BLOCK_SIZE)
      if address = 0 then pure (offset, tot)
      else
        let device ← gets fun s ↦ (s.itable.inodes i).device
        let bp ← BufferCache.get device address
        Buffer.read bp
        let o := offset.toNat % BLOCK_SIZE
        let len := min (length - tot).toNat (BLOCK_SIZE - o)
        let copied ← eitherCopyin bp o userSrc src len
        if copied then
          writeLog bp
          BufferCache.release bp
          writeFrom i userSrc length n (src + UInt64.ofNat len) (offset + UInt32.ofNat len)
            (tot + UInt32.ofNat len)
        else
          BufferCache.release bp
          pure (offset, tot)
    else pure (offset, tot)

/-- `Inode::write`. -/
def write (i : Nat) (userSrc : Bool) (src : UInt64) (offset length : UInt32) : FsM Int32 := do
  let size ← gets fun s ↦ (s.itable.inodes i).dinode.size
  if offset > size ∨ offset + length < offset then pure (-1)
  else if (offset + length).toNat > MAX_FILE * BLOCK_SIZE then pure (-1)
  else
    let r ← writeFrom i userSrc length length.toNat src offset 0
    let size ← gets fun s ↦ (s.itable.inodes i).dinode.size
    if r.1 > size then
      setDinode i fun d ↦ { d with size := r.1 }
    update i
    pure r.2.toInt32

/-- The bytes of the local variable `entry`. -/
def entryBytes (s : State) : List UInt8 :=
  (List.range ENTRY_SIZE).map fun k ↦ s.kernel (ENTRY + UInt64.ofNat k)

/-- `entry.inum`. -/
def entryInum (s : State) : UInt32 :=
  (s.kernel ENTRY).toUInt32 + 256 * (s.kernel (ENTRY + 1)).toUInt32

/-- `entry.name`. -/
def entryName (s : State) : List UInt8 := (entryBytes s).drop 2

/-- Read the directory entry at an offset. -/
def readEntry (i : Nat) (offset : UInt32) : FsM Unit := do
  let len ← read i false ENTRY offset (UInt32.ofNat ENTRY_SIZE)
  assert fun _ ↦ len = Int32.ofNat ENTRY_SIZE

/-- The loop of `Inode::dirLookup`, for at most `n` rounds. An offset that has wrapped around
would be read again and again. -/
def dirLookupFrom (i : Nat) (name : Name) : Nat → UInt32 → FsM (Option Nat)
  | 0, offset => do
    assert fun s ↦ ¬ offset < (s.itable.inodes i).dinode.size
    pure none
  | n + 1, offset => do
    let size ← gets fun s ↦ (s.itable.inodes i).dinode.size
    if offset < size then
      readEntry i offset
      let inum ← gets entryInum
      let same ← gets fun s ↦ strncmpZero s.overrun (List.ofFn name) (entryName s)
      if inum ≠ 0 ∧ same = true then
        -- the number of the directory itself is overwritten
        modify fun s ↦ s.setInode i fun x ↦ { x with inum := inum }
        let device ← gets fun s ↦ (s.itable.inodes i).device
        let ip ← get device inum
        pure (some ip)
      else dirLookupFrom i name n (offset + UInt32.ofNat ENTRY_SIZE)
    else pure none

/-- `Inode::dirLookup`. -/
def dirLookup (i : Nat) (name : Name) : FsM (Option Nat) := do
  assert fun s ↦ (s.itable.inodes i).dinode.type = T_DIR
  let size ← gets fun s ↦ (s.itable.inodes i).dinode.size
  dirLookupFrom i name (size.toNat / ENTRY_SIZE + 1) 0

/-- The loop of `Inode::dirLink`, for at most `n` rounds: the offset of a free entry. -/
def findFree (i : Nat) : Nat → UInt32 → FsM UInt32
  | 0, offset => do
    assert fun s ↦ ¬ offset < (s.itable.inodes i).dinode.size
    pure offset
  | n + 1, offset => do
    let size ← gets fun s ↦ (s.itable.inodes i).dinode.size
    if offset < size then
      readEntry i offset
      let inum ← gets entryInum
      if inum = 0 then pure offset
      else findFree i n (offset + UInt32.ofNat ENTRY_SIZE)
    else pure offset

/-- `Inode::dirLink`. -/
def dirLink (i : Nat) (name : Name) (inum : UInt32) : FsM Bool := do
  let found ← dirLookup i name
  match found with
  | some ip =>
    put ip
    pure false
  | none =>
    let size ← gets fun s ↦ (s.itable.inodes i).dinode.size
    let offset ← findFree i (size.toNat / ENTRY_SIZE + 1) 0
    let _ ← eitherCopyout false ENTRY
      (inum.toUInt8 :: (inum >>> 8).toUInt8 :: strncpy (List.ofFn name))
    let len ← write i false ENTRY offset (UInt32.ofNat ENTRY_SIZE)
    pure (len = Int32.ofNat ENTRY_SIZE)

/-- The loop of `Inode::open` for the rest of a path, at most `n` elements of it. -/
def openFrom (parent : Bool) : Nat → Nat → List UInt8 → Name → FsM (Option Nat × Name)
  | 0, ip, _, name => do
    if parent then
      put ip
      pure (none, name)
    else pure (some ip, name)
  | n + 1, ip, path, name => do
    match skipElement path name with
    | none =>
      if parent then
        put ip
        pure (none, name)
      else pure (some ip, name)
    | some (rest, name) =>
      lock ip
      let type ← gets fun s ↦ (s.itable.inodes ip).dinode.type
      if type ≠ T_DIR then
        unlock ip
        put ip
        pure (none, name)
      else if parent = true ∧ rest = [] then
        unlock ip
        pure (some ip, name)
      else
        let next ← dirLookup ip name
        match next with
        | none =>
          unlock ip
          put ip
          pure (none, name)
        | some next =>
          unlock ip
          put ip
          openFrom parent n next rest name

/-- `Inode::open(path, parent, name)`. Every element takes bytes of the path. -/
def openPath (path : List UInt8) (parent : Bool) (name : Name) : FsM (Option Nat × Name) := do
  if path.head? = some 47 then
    let ip ← get ROOT_DEVICE ROOT_INUM
    openFrom parent path.length ip path name
  else
    let cwd ← gets fun s ↦ s.cwd
    let ip ← dup cwd
    openFrom parent path.length ip path name

/-- `fail` in `Inode::create`. -/
def createFail (dp ip : Nat) : FsM (Option Nat) := do
  setDinode ip fun d ↦ { d with numLinks := 0 }
  update ip
  unlock ip
  put ip
  unlock dp
  put dp
  pure none

/-- The entries `.` and `..` of a new directory in `Inode::create`. -/
def createDots (ip : Nat) (type : UInt16) : FsM Bool := do
  if type = T_DIR then
    let inum ← gets fun s ↦ (s.itable.inodes ip).inum
    let dot ← dirLink ip (literal [46]) inum
    if dot then
      let inum ← gets fun s ↦ (s.itable.inodes ip).inum
      dirLink ip (literal [46, 46]) inum
    else pure false
  else pure true

/-- `Inode::create` once the new inode is allocated. -/
def createNew (dp ip : Nat) (name : Name) (type major minor : UInt16) : FsM (Option Nat) := do
  lock ip
  setDinode ip fun d ↦ { d with major := major, minor := minor, numLinks := 1 }
  update ip
  let dots ← createDots ip type
  if dots then
    let inum ← gets fun s ↦ (s.itable.inodes ip).inum
    let linked ← dirLink dp name inum
    if linked then
      if type = T_DIR then
        setDinode dp fun d ↦ { d with numLinks := d.numLinks + 1 }
        update dp
      unlock dp
      put dp
      pure (some ip)
    else createFail dp ip
  else createFail dp ip

/-- `Inode::create`. -/
def create (path : List UInt8) (type major minor : UInt16) : FsM (Option Nat) := do
  let r ← openPath path true (literal [])
  match r.1 with
  | none => pure none
  | some dp =>
    lock dp
    let found ← dirLookup dp r.2
    match found with
    | some ip =>
      unlock dp
      put dp
      let t ← gets fun s ↦ (s.itable.inodes ip).dinode.type
      if type = T_FILE ∧ (t = T_FILE ∨ t = T_DEVICE) then pure (some ip)
      else
        unlock ip
        put ip
        pure none
    | none =>
      let device ← gets fun s ↦ (s.itable.inodes dp).device
      let new ← allocate device type
      match new with
      | none =>
        unlock dp
        put dp
        pure none
      | some ip => createNew dp ip r.2 type major minor

end Inode
end Orfos.Fs
