import Orfos.Fs.View

/-!
# The log

The functions of `kernel/fs/log.cpp`. The functions of its anonymous namespace are in
`Orfos.Fs.Log`. A wait in `beginOp` does not end in a sequential run, so it stops the
program; `process::wakeup` changes nothing in the state of the file system. The header block
holds `n` in its first eight bytes and the block numbers, four bytes each, after it.
-/

namespace Orfos.Fs

open Orfos.Base Orfos.Base.Traced Orfos.Lib

/-- The `LogHeader` in the bytes of a block. -/
def headerOf (data : Block) : List UInt32 :=
  (List.range (getU64 data 0).toNat).map fun i ↦ getU32 data (8 + 4 * i)

/-- The loop of `writeHead` that stores the block numbers from an offset. -/
def putBlocks : List UInt32 → Nat → Block → Block
  | [], _, data => data
  | b :: bs, o, data => putBlocks bs (o + 4) (putU32 data o b)

/-- What `writeHead` stores in the bytes of the header block. -/
def putHeader (header : List UInt32) (data : Block) : Block :=
  putBlocks header 8 (putU64 data 0 (UInt64.ofNat header.length))

namespace Log

/-- The block `log.start + tail + 1` of the log. -/
def blockAt (start : UInt32) (tail : Nat) : UInt32 := start + UInt32.ofNat tail + 1

/-- `readHead`; a count beyond the header's array would overrun it. -/
def readHead : FsM Unit := do
  let log ← gets fun s ↦ s.log
  let buf ← BufferCache.get log.device log.start
  Buffer.read buf
  assert fun s ↦ (getU64 (s.cache.buffers buf).data 0).toNat ≤ LOG_SIZE
  modify fun s ↦ { s with log := { s.log with header := headerOf (s.cache.buffers buf).data } }
  BufferCache.release buf

/-- `writeHead`. -/
def writeHead : FsM Unit := do
  let log ← gets fun s ↦ s.log
  let buf ← BufferCache.get log.device log.start
  Buffer.read buf
  modify fun s ↦ s.setBuffer buf fun x ↦ { x with data := putHeader log.header x.data }
  Buffer.write buf
  BufferCache.release buf

/-- One round of `installTransaction`. -/
def installBlock (recover : Bool) (log : Log) (entry : UInt32 × Nat) : FsM Unit := do
  let lbuf ← BufferCache.get log.device (blockAt log.start entry.2)
  let dbuf ← BufferCache.get log.device entry.1
  Buffer.read lbuf
  Buffer.read dbuf
  let data ← gets fun s ↦ (s.cache.buffers lbuf).data
  modify fun s ↦ s.setBuffer dbuf fun x ↦ { x with data := data }
  Buffer.write dbuf
  (if ¬ recover then BufferCache.unpin dbuf else pure ())
  BufferCache.release lbuf
  BufferCache.release dbuf

/-- `installTransaction`. -/
def installTransaction (recover : Bool) : FsM Unit := do
  let log ← gets fun s ↦ s.log
  log.header.zipIdx.forM (installBlock recover log)

/-- `log.header.n = 0`. -/
def clear : FsM Unit := modify fun s ↦ { s with log := { s.log with header := [] } }

/-- `recover`. -/
def recover : FsM Unit := do
  readHead
  installTransaction true
  clear
  writeHead

/-- One round of `writeLog()`. -/
def writeLogBlock (log : Log) (entry : UInt32 × Nat) : FsM Unit := do
  let to_ ← BufferCache.get log.device (blockAt log.start entry.2)
  let from_ ← BufferCache.get log.device entry.1
  Buffer.read to_
  Buffer.read from_
  let data ← gets fun s ↦ (s.cache.buffers from_).data
  modify fun s ↦ s.setBuffer to_ fun x ↦ { x with data := data }
  Buffer.write to_
  BufferCache.release from_
  BufferCache.release to_

/-- `writeLog()`. -/
def writeLog : FsM Unit := do
  let log ← gets fun s ↦ s.log
  log.header.zipIdx.forM (writeLogBlock log)

/-- `commit`. -/
def commit : FsM Unit := do
  let header ← gets fun s ↦ s.log.header
  if header.length > 0 then
    writeLog
    writeHead
    installTransaction false
    clear
    writeHead

end Log

/-- `initializeLog`. -/
def initializeLog (device : UInt32) (sb : SuperBlock) : FsM Unit := do
  modify fun s ↦ { s with log := { s.log with
    start := sb.logStart, size := sb.numLogs.toUInt64, device := device } }
  Log.recover

/-- `beginOp`. -/
def beginOp : FsM Unit := do
  assert fun s ↦ s.log.committing = false
  assert fun s ↦ ¬ UInt64.ofNat s.log.header.length +
    UInt64.ofInt (s.log.outstanding + 1) * UInt64.ofNat MAX_OP_BLOCKS > UInt64.ofNat LOG_SIZE
  modify fun s ↦ { s with log := { s.log with outstanding := s.log.outstanding + 1 } }

/-- `endOp`. -/
def endOp : FsM Unit := do
  assert fun s ↦ s.log.committing = false
  modify fun s ↦ { s with log := { s.log with outstanding := s.log.outstanding - 1 } }
  let outstanding ← gets fun s ↦ s.log.outstanding
  if outstanding = 0 then
    modify fun s ↦ { s with log := { s.log with committing := true } }
    Log.commit
    modify fun s ↦ { s with log := { s.log with committing := false } }

/-- `writeLog(Buffer*)`. -/
def writeLog (buf : Nat) : FsM Unit := do
  let block ← gets fun s ↦ (s.cache.buffers buf).block
  call (.writeLog block)
  assert fun s ↦ s.log.header.length < LOG_SIZE
  assert fun s ↦ s.log.header.length < (s.log.size - 1).toNat
  assert fun s ↦ s.log.outstanding ≥ 1
  let header ← gets fun s ↦ s.log.header
  if block ∉ header then
    BufferCache.pin buf
    modify fun s ↦ { s with log := { s.log with header := header ++ [block] } }

/-- The stored block numbers do not disturb a disjoint window. -/
theorem getLe_putBlocks_disjoint (bs : List UInt32) {o o' n : Nat} (data : Block)
    (h : o' + n ≤ o ∨ o + 4 * bs.length ≤ o') :
    getLe (putBlocks bs o data) o' n = getLe data o' n := by
  induction bs generalizing o data with
  | nil => rfl
  | cons b bs ih =>
    rw [List.length_cons] at h
    rw [putBlocks, ih _ (by omega)]
    exact getLe_putLe_disjoint _ _ (by omega)

/-- A stored block number is read back. -/
theorem getU32_putBlocks (bs : List UInt32) (o : Nat) (data : Block) (k : Nat)
    (hk : k < bs.length) (ho : o + 4 * bs.length ≤ BLOCK_SIZE) :
    getU32 (putBlocks bs o data) (o + 4 * k) = bs[k] := by
  induction bs generalizing o data k with
  | nil => cases hk
  | cons b bs ih =>
    rw [List.length_cons] at hk ho
    cases k with
    | zero =>
      rw [putBlocks, show o + 4 * 0 = o from rfl, getU32,
        getLe_putBlocks_disjoint _ _ (.inl le_rfl)]
      exact getU32_putU32_same _ _ (by omega)
    | succ k =>
      rw [putBlocks, show o + 4 * (k + 1) = o + 4 + 4 * k by omega, List.getElem_cons_succ]
      exact ih _ _ _ (by omega) (by omega)

/-- The count that `writeHead` stores. -/
theorem getU64_putHeader (header : List UInt32) (data : Block)
    (h : header.length ≤ LOG_SIZE) : (getU64 (putHeader header data) 0).toNat = header.length := by
  rw [putHeader, getU64, getLe_putBlocks_disjoint _ _ (.inl (by omega))]
  have hs := getU64_putU64_same data (o := 0) (UInt64.ofNat header.length) (by decide)
  rw [getU64] at hs
  have hl : header.length ≤ 30 := h
  rw [hs, UInt64.toNat_ofNat']
  omega

/-- `readHead` reads what `writeHead` wrote. -/
theorem headerOf_putHeader (header : List UInt32) (data : Block)
    (h : header.length ≤ LOG_SIZE) : headerOf (putHeader header data) = header := by
  apply List.ext_getElem
  · simp [headerOf, getU64_putHeader header data h]
  · intro k _ hk
    simp only [headerOf, List.getElem_map, List.getElem_range]
    have hl : header.length ≤ 30 := h
    exact getU32_putBlocks header 8 _ k hk (show 8 + 4 * header.length ≤ 1024 by omega)

end Orfos.Fs
