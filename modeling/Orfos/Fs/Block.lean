import Orfos.Base.Bits
import Orfos.Fs.Log

/-!
# Block allocation

The functions of `kernel/fs/block.cpp`. The bitmap has one bit for each block, in the blocks
from `superBlock.bmapStart` on. The loop of `allocateBlock` over the bitmap blocks does not
end if its counter wraps around.
-/

namespace Orfos.Fs

open Orfos.Base Orfos.Base.Traced Orfos.Lib

/-- `memset` of `n > 0` bytes from an offset, `kernel/lib/string.cpp`: `while (--n)` ends one
byte early. -/
def memset (data : Block) (o : Nat) (ch : UInt8) (n : Nat) : Block :=
  putBytes data o (n - 1) fun _ ↦ ch

/-- `bblock`: the bitmap block of a block. -/
def bblock (block : UInt32) (sb : SuperBlock) : UInt32 :=
  block / UInt32.ofNat BITS_PER_BLOCK + sb.bmapStart

/-- `fillBlock`. -/
def fillBlock (device block : UInt32) (ch : UInt8) : FsM Unit := do
  let bp ← BufferCache.get device block
  Buffer.read bp
  modify fun s ↦ s.setBuffer bp fun x ↦ { x with data := memset x.data 0 ch BLOCK_SIZE }
  writeLog bp
  BufferCache.release bp

/-- The inner loop of `allocateBlock`, for `n` bits from `bit` on: the first clear bit. -/
def findClear (data : Block) (block size : UInt32) : Nat → Nat → Option Nat
  | 0, _ => none
  | n + 1, bit =>
    if block + UInt32.ofNat bit < size then
      if bitAt data bit then findClear data block size n (bit + 1) else some bit
    else none

/-- The outer loop of `allocateBlock`, for at most `n` rounds. -/
def allocateBlockFrom (device : UInt32) : Nat → UInt32 → FsM UInt32
  | 0, block => do
    assert fun s ↦ ¬ block < s.superBlock.size
    pure 0
  | n + 1, block => do
    let sb ← gets fun s ↦ s.superBlock
    if block < sb.size then
      let bp ← BufferCache.get device (bblock block sb)
      Buffer.read bp
      let data ← gets fun s ↦ (s.cache.buffers bp).data
      match findClear data block sb.size BITS_PER_BLOCK 0 with
      | some bit =>
        modify fun s ↦ s.setBuffer bp fun x ↦ { x with data := setBit x.data bit }
        writeLog bp
        BufferCache.release bp
        fillBlock device (block + UInt32.ofNat bit) 0
        pure (block + UInt32.ofNat bit)
      | none =>
        BufferCache.release bp
        allocateBlockFrom device n (block + UInt32.ofNat BITS_PER_BLOCK)
    else pure 0

/-- `allocateBlock`. -/
def allocateBlock (device : UInt32) : FsM UInt32 := do
  let sb ← gets fun s ↦ s.superBlock
  allocateBlockFrom device (sb.size.toNat / BITS_PER_BLOCK + 1) 0

/-- `freeBlock`. -/
def freeBlock (device block : UInt32) : FsM Unit := do
  let sb ← gets fun s ↦ s.superBlock
  let bp ← BufferCache.get device (bblock block sb)
  Buffer.read bp
  assert fun s ↦ bitAt (s.cache.buffers bp).data (block.toNat % BITS_PER_BLOCK) = true
  modify fun s ↦ s.setBuffer bp fun x ↦
    { x with data := clearBit x.data (block.toNat % BITS_PER_BLOCK) }
  writeLog bp
  BufferCache.release bp

end Orfos.Fs
