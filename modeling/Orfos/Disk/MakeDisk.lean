import Orfos.Base.Bits
import Orfos.Fs.Inode

/-!
# The disk image

`disk/make_disk.cpp` builds an image of the file system in a `std::fstream`. A read behind the end
of the file fails, and from then on the stream does nothing. A buffer that a failed read leaves
alone holds anything: the `k`th such read finds `junk k` in it. `convOrder` gives the bytes of a
number from the low end, as they are stored in an image by any machine.

`readsome` returns what the library has at hand, so an input file is a list of chunks.
-/

namespace Orfos.Disk

open Orfos.Base Orfos.Fs

/-- `FS_SIZE`. -/
abbrev FS_SIZE : Nat := 2000

/-- `NUM_INODES`. -/
abbrev NUM_INODES : Nat := 200

/-- `numInodeBlocks`. -/
abbrev numInodeBlocks : Nat := NUM_INODES / INODES_PER_BLOCK + 1

/-- `numMeta`. -/
abbrev numMeta : Nat := 2 + LOG_SIZE + numInodeBlocks + (FS_SIZE / (BLOCK_SIZE * 8) + 1)

/-- `sb`. -/
def sb : SuperBlock where
  size := UInt32.ofNat FS_SIZE
  numInodes := UInt32.ofNat NUM_INODES
  numLogs := UInt32.ofNat LOG_SIZE
  logStart := 2
  inodeStart := UInt32.ofNat (2 + LOG_SIZE)
  bmapStart := UInt32.ofNat (2 + LOG_SIZE + numInodeBlocks)

/-- `fsimg`, with its length in blocks, how many reads have failed, and the counters. -/
structure Image where
  blocks : UInt32 → Block
  length : Nat
  failed : Bool
  misses : Nat
  freeInode : UInt32
  freeBlock : UInt32

/-- What a buffer holds that was not written. -/
abbrev Junk : Type := Nat → Block

/-- `readSector`. -/
def readSector (junk : Junk) (d : Image) (sector : UInt32) : Block × Image :=
  if d.failed = false ∧ sector.toNat < d.length then (d.blocks sector, d)
  else (junk d.misses, { d with failed := true, misses := d.misses + 1 })

/-- `writeSector`. -/
def writeSector (d : Image) (sector : UInt32) (buf : Block) : Image :=
  if d.failed then d
  else { d with
    blocks := Function.update d.blocks sector buf
    length := max d.length (sector.toNat + 1) }

/-- `readInode`. -/
def readInode (junk : Junk) (d : Image) (inum : UInt32) : DiskInode × Image :=
  let (buf, d) := readSector junk d (iblock inum sb)
  (DiskInode.load buf (dinodeAt inum), d)

/-- `writeInode`. -/
def writeInode (junk : Junk) (d : Image) (inum : UInt32) (ip : DiskInode) : Image :=
  let (buf, d) := readSector junk d (iblock inum sb)
  writeSector d (iblock inum sb) (ip.store (dinodeAt inum) buf)

/-- `allocateInode`. -/
def allocateInode (junk : Junk) (d : Image) (type : UInt16) : UInt32 × Image :=
  let inum := d.freeInode
  let d := { d with freeInode := d.freeInode + 1 }
  (inum, writeInode junk d inum ⟨type, 0, 0, 1, 0, fun _ ↦ 0, 0⟩)

/-- The part of a round of `appendInode` for a direct block. -/
def directBlock (d : Image) (dinode : DiskInode) (fbn : Fin NUM_DIRECT_BLOCKS) :
    UInt32 × DiskInode × Image :=
  if dinode.directBlocks fbn = 0 then
    (d.freeBlock,
      { dinode with directBlocks := Function.update dinode.directBlocks fbn d.freeBlock },
      { d with freeBlock := d.freeBlock + 1 })
  else (dinode.directBlocks fbn, dinode, d)

/-- Allocate the indirect block of an inode, if it has none. -/
def indirectBlock (d : Image) (dinode : DiskInode) : DiskInode × Image :=
  if dinode.indirectBlock = 0 then
    ({ dinode with indirectBlock := d.freeBlock }, { d with freeBlock := d.freeBlock + 1 })
  else (dinode, d)

/-- An entry of the indirect block, which is allocated if there is none. -/
def indirectEntry (junk : Junk) (d : Image) (sector : UInt32) (k : Nat) : UInt32 × Image :=
  let (indirect, d) := readSector junk d sector
  if getU32 indirect (4 * k) = 0 then
    (d.freeBlock, writeSector { d with freeBlock := d.freeBlock + 1 } sector
      (putU32 indirect (4 * k) d.freeBlock))
  else (getU32 indirect (4 * k), d)

/-- The part of a round of `appendInode` that finds the block. An index behind the indirect block
is undefined. -/
def findBlock (junk : Junk) (d : Image) (dinode : DiskInode) (fbn : Nat) :
    Option (UInt32 × DiskInode × Image) :=
  if h : fbn < NUM_DIRECT_BLOCKS then some (directBlock d dinode ⟨fbn, h⟩)
  else if fbn - NUM_DIRECT_BLOCKS < NUM_INDIRECT_BLOCKS then
    let (dinode, d) := indirectBlock d dinode
    let (x, d) := indirectEntry junk d dinode.indirectBlock (fbn - NUM_DIRECT_BLOCKS)
    some (x, dinode, d)
  else none

/-- The part of a round of `appendInode` that writes `p` into a block. -/
def fill (junk : Junk) (d : Image) (x : UInt32) (o : Nat) (p : List UInt8) : Image :=
  let (buf, d) := readSector junk d x
  writeSector d x (putBytes buf o p.length fun k ↦ p.getD k 0)

/-- The loop of `appendInode`, for at most `n` rounds. -/
def appendFrom (junk : Junk) : Nat → Image → DiskInode → UInt32 → List UInt8 →
    Option (DiskInode × UInt32 × Image)
  | 0, d, dinode, offset, _ => some (dinode, offset, d)
  | n + 1, d, dinode, offset, p =>
    if p = [] then some (dinode, offset, d)
    else
      let fbn := offset.toNat / BLOCK_SIZE
      let len := min p.length ((fbn + 1) * BLOCK_SIZE - offset.toNat)
      match findBlock junk d dinode fbn with
      | none => none
      | some (x, dinode, d) =>
        appendFrom junk n (fill junk d x (offset.toNat - fbn * BLOCK_SIZE) (p.take len)) dinode
          (offset + UInt32.ofNat len) (p.drop len)

/-- `appendInode`. -/
def appendInode (junk : Junk) (d : Image) (inum : UInt32) (p : List UInt8) : Option Image :=
  let (dinode, d) := readInode junk d inum
  match appendFrom junk p.length d dinode dinode.size p with
  | none => none
  | some (dinode, offset, d) => some (writeInode junk d inum { dinode with size := offset })

/-- `allocateBlock`. -/
def allocateBlock (d : Image) (used : UInt32) : Option Image :=
  if used.toNat < BLOCK_SIZE * 8 then
    some (writeSector d sb.bmapStart ((List.range used.toNat).foldl setBit Block.zero))
  else none

/-- A `DirectoryEntry`. -/
def entry (inum : UInt32) (name : List UInt8) : List UInt8 :=
  [inum.toUInt8, (inum >>> 8).toUInt8] ++
    (List.range MAX_DIR_NAME_LENGTH).map fun k ↦ name.getD k 0

/-- An argument of `make_disk`: the name of the file and the chunks that are read from it. -/
structure Source where
  name : List UInt8
  chunks : List (List UInt8)

/-- Append some chunks one after the other. -/
def appendChunks (junk : Junk) (inum : UInt32) : Image → List (List UInt8) → Option Image
  | d, [] => some d
  | d, p :: ps => (appendInode junk d inum p).bind fun d ↦ appendChunks junk inum d ps

/-- The rounds of `main` over the files. -/
def addFiles (junk : Junk) (root : UInt32) : Image → List Source → Option Image
  | d, [] => some d
  | d, f :: fs =>
    let (inum, d) := allocateInode junk d T_FILE
    (appendInode junk d root (entry inum f.name)).bind fun d ↦
      (appendChunks junk inum d f.chunks).bind fun d ↦ addFiles junk root d fs

/-- The zero-fill loop of `main`, for at most `n` rounds. -/
def zeroFrom : Nat → Nat → Image → Image
  | 0, _, d => d
  | n + 1, i, d =>
    if i < FS_SIZE then zeroFrom n (i + BLOCK_SIZE) (writeSector d (UInt32.ofNat i) Block.zero)
    else d

/-- `memmove(buf, &sb, sizeof(sb))`, with the two fields that no modelled function reads. -/
def superBlockBytes : Block :=
  putBlocks [0x10203040, sb.size, UInt32.ofNat (FS_SIZE - numMeta), sb.numInodes, sb.numLogs,
    sb.logStart, sb.inodeStart, sb.bmapStart] 0 Block.zero

/-- The end of `main`: the size of the root directory is rounded, and the bitmap is written. -/
def finish (junk : Junk) (root : UInt32) (d : Image) : Option Image :=
  let (dinode, d) := readInode junk d root
  let offset := (dinode.size.toNat / BLOCK_SIZE + 1) * BLOCK_SIZE
  let d := writeInode junk d root { dinode with size := UInt32.ofNat offset }
  allocateBlock d d.freeBlock

/-- The file after `open` with `trunc`. -/
def opened : Image := ⟨fun _ ↦ Block.zero, 0, false, 0, 1, UInt32.ofNat numMeta⟩

/-- The beginning of `main`: the sectors are filled and the superblock is written. -/
def format : Image := writeSector (zeroFrom FS_SIZE 0 opened) 1 superBlockBytes

/-- The rest of `main`: the root directory and the files. -/
def populate (junk : Junk) (files : List Source) (d : Image) : Option Image :=
  let (root, d) := allocateInode junk d T_DIR
  (appendInode junk d root (entry root [0x2e])).bind fun d ↦
    (appendInode junk d root (entry root [0x2e, 0x2e])).bind fun d ↦
      (addFiles junk root d files).bind fun d ↦ finish junk root d

/-- `main`. -/
def make_disk (junk : Junk) (files : List Source) : Option Image := populate junk files format

end Orfos.Disk
