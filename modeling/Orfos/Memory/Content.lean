import Orfos.Fs.Inode
import Orfos.Memory.Process

/-!
# The files that exec reads

A file is its size and its blocks. `Content.read` is the loop of `Inode::read` of
`kernel/fs/inode.cpp` to a kernel address, for a file whose blocks are in place: `bmap` finds the
block of a number, and its assertion fails for a number that no file has. The headers are read
off the bytes as `kernel/elf/elf.h` lays them out.
-/

namespace Orfos.Memory

open Orfos.Base

/-- A file. `Inode::write` makes no file longer than `MAX_FILE` blocks. -/
structure Content where
  size : UInt32
  block : Nat → Fs.Block
  bounded : size.toNat ≤ Fs.MAX_FILE * Fs.BLOCK_SIZE

namespace Content

variable (file : Content)

/-- `Inode::bmap`, and the data in the buffer of the block. -/
def bmap (bn : UInt32) : Except Halt Fs.Block :=
  if bn.toNat < Fs.NUM_DIRECT_BLOCKS then .ok (file.block bn.toNat)
  else if bn.toNat - Fs.NUM_DIRECT_BLOCKS < Fs.NUM_INDIRECT_BLOCKS then .ok (file.block bn.toNat)
  else .error (.assert "bn < NUM_INDIRECT_BLOCKS")

/-- The loop of `Inode::read` for the rest of the bytes, at most `n` of them. -/
def readFrom (length : UInt32) : Nat → UInt32 → UInt32 → Except Halt (List UInt8)
  | 0, _, _ => .ok []
  | n + 1, offset, tot =>
    if tot < length then
      (file.bmap (offset / UInt32.ofNat Fs.BLOCK_SIZE)).bind fun data ↦
        let o := offset.toNat % Fs.BLOCK_SIZE
        let len := min (length - tot).toNat (Fs.BLOCK_SIZE - o)
        (readFrom length n (offset + UInt32.ofNat len) (tot + UInt32.ofNat len)).map
          (Fs.Inode.slice data o len ++ ·)
    else .ok []

/-- `Inode::read`: the bytes that it copies. -/
def read (offset length : UInt32) : Except Halt (List UInt8) :=
  if offset > file.size ∨ offset + length < offset then .ok []
  else
    let length := if offset + length > file.size then file.size - offset else length
    file.readFrom length length.toNat offset 0

/-- The byte at an offset. -/
def byte (n : Nat) : UInt8 := byteAt (file.block (n / Fs.BLOCK_SIZE)) (n % Fs.BLOCK_SIZE)

/-- The bytes from an offset on. -/
def bytes (offset length : Nat) : List UInt8 :=
  (List.range length).map fun k ↦ file.byte (offset + k)

/-- How many bytes there are for `Inode::read`. -/
def available (offset length : UInt32) : Nat :=
  if offset > file.size ∨ offset + length < offset then 0
  else min length.toNat (file.size.toNat - offset.toNat)

end Content

/-- The `ElfHeader` in some bytes. -/
def elfHeaderOf (bytes : List UInt8) : Syscall.ElfHeader :=
  let b : Fin 64 → UInt8 := fun k ↦ bytes.getD k 0
  ⟨getU32 b 0, getU64 b 24, getU64 b 32, getU16 b 56⟩

/-- The `ProgramHeader` in some bytes. -/
def programHeaderOf (bytes : List UInt8) : Syscall.ProgramHeader :=
  let b : Fin 56 → UInt8 := fun k ↦ bytes.getD k 0
  ⟨getU32 b 0, getU32 b 4, getU64 b 8, getU64 b 16, getU64 b 32, getU64 b 40⟩

namespace Content

variable {file : Content} {offset length tot : UInt32} {n : Nat}

/-- The `ElfHeader` of a file. -/
def elfHeader (file : Content) : Option Syscall.ElfHeader :=
  if 64 ≤ file.size.toNat then some (elfHeaderOf (file.bytes 0 64)) else none

/-- The `ProgramHeader` at an offset. -/
def programHeader (file : Content) (offset : Nat) : Option Syscall.ProgramHeader :=
  if offset + 56 ≤ file.size.toNat then some (programHeaderOf (file.bytes offset 56)) else none

@[simp] theorem length_bytes (offset length : Nat) :
    (file.bytes offset length).length = length := by
  rw [bytes, List.length_map, List.length_range]

theorem bytes_getElem? {offset length k : Nat} (h : k < length) :
    (file.bytes offset length)[k]? = some (file.byte (offset + k)) := by
  rw [bytes, List.getElem?_map, List.getElem?_range h, Option.map_some]

theorem bytes_append (offset a b : Nat) :
    file.bytes offset (a + b) = file.bytes offset a ++ file.bytes (offset + a) b := by
  rw [bytes, bytes, bytes, List.range_add, List.map_append, List.map_map]
  refine congrArg _ (List.map_congr_left fun k _ ↦ ?_)
  rw [Function.comp_apply, Nat.add_assoc]

/-- A part of a block. -/
theorem slice_block {offset len : Nat} (h : offset % Fs.BLOCK_SIZE + len ≤ Fs.BLOCK_SIZE) :
    Fs.Inode.slice (file.block (offset / Fs.BLOCK_SIZE)) (offset % Fs.BLOCK_SIZE) len =
      file.bytes offset len := by
  have h' : offset % 1024 + len ≤ 1024 := h
  refine List.map_congr_left fun k hk ↦ ?_
  have hlt := List.mem_range.mp hk
  have hdiv : (offset + k) / Fs.BLOCK_SIZE = offset / Fs.BLOCK_SIZE := by
    change (offset + k) / 1024 = offset / 1024
    omega
  have hmod : (offset + k) % Fs.BLOCK_SIZE = offset % Fs.BLOCK_SIZE + k := by
    change (offset + k) % 1024 = offset % 1024 + k
    omega
  rw [byte, hdiv, hmod]

/-- Below the size of a file no number of a block trips the assertion. -/
theorem bmap_eq (h : offset.toNat < file.size.toNat) :
    file.bmap (offset / UInt32.ofNat Fs.BLOCK_SIZE) =
      .ok (file.block (offset.toNat / Fs.BLOCK_SIZE)) := by
  have hbound : file.size.toNat ≤ (12 + 256) * 1024 := file.bounded
  have hq : (offset / UInt32.ofNat Fs.BLOCK_SIZE).toNat = offset.toNat / 1024 := by
    rw [UInt32.toNat_div]
    rfl
  rw [bmap, hq]
  split
  · rfl
  · rw [if_pos]
    change offset.toNat / 1024 - 12 < 256
    omega

theorem readFrom_eq (hfuel : length.toNat - tot.toNat ≤ n)
    (hend : offset.toNat + (length.toNat - tot.toNat) ≤ file.size.toNat) :
    file.readFrom length n offset tot =
      .ok (file.bytes offset.toNat (length.toNat - tot.toNat)) := by
  induction n generalizing offset tot with
  | zero =>
    rw [show length.toNat - tot.toNat = 0 by omega]
    rfl
  | succ n ih =>
    rw [readFrom]
    split
    · next hlt =>
      have hlt' := UInt32.lt_iff_toNat_lt.mp hlt
      have hsub : (length - tot).toNat = length.toNat - tot.toNat :=
        UInt32.toNat_sub_of_le _ _ (UInt32.le_of_lt hlt)
      have hbound : file.size.toNat ≤ (12 + 256) * 1024 := file.bounded
      rw [bmap_eq (by omega), Except.bind]
      dsimp only
      rw [hsub]
      generalize hlen : min (length.toNat - tot.toNat)
        (Fs.BLOCK_SIZE - offset.toNat % Fs.BLOCK_SIZE) = len
      have hlen' : min (length.toNat - tot.toNat) (1024 - offset.toNat % 1024) = len := hlen
      have hoffset : (offset + UInt32.ofNat len).toNat = offset.toNat + len := by
        rw [UInt32.toNat_add, UInt32.toNat_ofNat']
        omega
      have htot : (tot + UInt32.ofNat len).toNat = tot.toNat + len := by
        have := length.toNat_lt
        rw [UInt32.toNat_add, UInt32.toNat_ofNat']
        omega
      rw [slice_block (by change offset.toNat % 1024 + len ≤ 1024; omega),
        ih (by omega) (by omega), hoffset, htot, Except.map, ← bytes_append]
      congr 2
      omega
    · next hge =>
      have hge' := UInt32.not_lt.mp hge
      rw [show length.toNat - tot.toNat = 0 by
        have := UInt32.le_iff_toNat_le.mp hge'
        omega]
      rfl

/-- `Inode::read` gives the bytes that are there and trips no assertion. -/
theorem read_eq (file : Content) (offset length : UInt32) :
    file.read offset length = .ok (file.bytes offset.toNat (file.available offset length)) := by
  rw [read, available]
  split
  · rfl
  · next hc =>
    rw [not_or] at hc
    obtain ⟨hoffset, hover⟩ := hc
    have hle := UInt32.le_iff_toNat_le.mp (UInt32.not_lt.mp hoffset)
    have hover' := UInt32.le_iff_toNat_le.mp (UInt32.not_lt.mp hover)
    have hsum : (offset + length).toNat = offset.toNat + length.toNat := by
      have h₁ := offset.toNat_lt
      have h₂ := length.toNat_lt
      rw [UInt32.toNat_add] at hover' ⊢
      omega
    dsimp only
    have hzero : (0 : UInt32).toNat = 0 := rfl
    split
    · next hgt =>
      have hgt' := UInt32.lt_iff_toNat_lt.mp hgt
      have hsub : (file.size - offset).toNat = file.size.toNat - offset.toNat :=
        UInt32.toNat_sub_of_le _ _ (UInt32.le_iff_toNat_le.mpr hle)
      rw [readFrom_eq (by omega) (by omega), hsub, hzero, Nat.sub_zero,
        Nat.min_eq_right (by omega)]
    · next hgt =>
      have hgt' := UInt32.le_iff_toNat_le.mp (UInt32.not_lt.mp hgt)
      rw [readFrom_eq (by omega) (by omega), hzero, Nat.sub_zero, Nat.min_eq_left (by omega)]

theorem available_le (file : Content) (offset length : UInt32) :
    file.available offset length ≤ length.toNat := by
  rw [available]
  split
  · exact Nat.zero_le _
  · exact Nat.min_le_left _ _

/-- All the bytes are there if and only if they are below the size. -/
theorem available_eq_iff (file : Content) (offset length : UInt32) (hpos : 0 < length.toNat) :
    file.available offset length = length.toNat ↔
      offset.toNat + length.toNat ≤ file.size.toNat := by
  have h₁ := offset.toNat_lt
  have h₂ := length.toNat_lt
  have hsize := file.size.toNat_lt
  rw [available]
  split
  · next hc =>
    refine ⟨fun h ↦ by omega, fun h ↦ ?_⟩
    rcases hc with hc | hc
    · have := UInt32.lt_iff_toNat_lt.mp hc
      omega
    · have := UInt32.lt_iff_toNat_lt.mp hc
      rw [UInt32.toNat_add] at this
      omega
  · next hc =>
    rw [not_or] at hc
    have := UInt32.le_iff_toNat_le.mp (UInt32.not_lt.mp hc.1)
    omega

end Content

/-- The file system serves a file at a path: its functions return, and `Inode::read` gives the
contents of the file. `ok` is what they keep. -/
structure Files.Serves {φ ι : Type} (F : Files φ ι) (ok : φ → Prop) (path : Syscall.CString)
    (ip : ι) (file : Content) : Prop where
  openPath : ∀ s, ok s → ∃ t, F.openPath path s = some (some ip, t) ∧ ok t
  lock : ∀ s, ok s → ∃ t, F.lock ip s = some ((), t) ∧ ok t
  unlock : ∀ s, ok s → ∃ t, F.unlock ip s = some ((), t) ∧ ok t
  put : ∀ s, ok s → ∃ t, F.put ip s = some ((), t) ∧ ok t
  read : ∀ s offset length, ok s → ∃ t, ok t ∧
    F.read ip offset length s = (file.read offset length).toOption.map fun bytes ↦ (bytes, t)
  readElfHeader : ∀ s offset, ok s → ∃ t header, ok t ∧
    F.readElfHeader ip offset s = (file.read offset 64).toOption.map (fun bytes ↦
      ((Int32.ofNat bytes.length, header), t)) ∧
    ∀ bytes, file.read offset 64 = .ok bytes → bytes.length = 64 → header = elfHeaderOf bytes
  readProgramHeader : ∀ s offset, ok s → ∃ t header, ok t ∧
    F.readProgramHeader ip offset s = (file.read offset 56).toOption.map (fun bytes ↦
      ((Int32.ofNat bytes.length, header), t)) ∧
    ∀ bytes, file.read offset 56 = .ok bytes → bytes.length = 56 → header = programHeaderOf bytes

/-- A file system with one file. -/
def Content.files (file : Content) : Files Unit Unit where
  openPath _ _ := some (some (), ())
  lock _ _ := some ((), ())
  unlock _ _ := some ((), ())
  put _ _ := some ((), ())
  read _ offset length _ := (file.read offset length).toOption.map (·, ())
  readElfHeader _ offset _ := (file.read offset 64).toOption.map fun bytes ↦
    ((Int32.ofNat bytes.length, elfHeaderOf bytes), ())
  readProgramHeader _ offset _ := (file.read offset 56).toOption.map fun bytes ↦
    ((Int32.ofNat bytes.length, programHeaderOf bytes), ())

theorem Content.files_serves (file : Content) (path : Syscall.CString) :
    file.files.Serves (fun _ ↦ True) path () file where
  openPath _ _ := ⟨(), rfl, trivial⟩
  lock _ _ := ⟨(), rfl, trivial⟩
  unlock _ _ := ⟨(), rfl, trivial⟩
  put _ _ := ⟨(), rfl, trivial⟩
  read _ offset length _ := ⟨(), trivial, rfl⟩
  readElfHeader _ offset _ := by
    refine ⟨(), elfHeaderOf ((file.read offset 64).toOption.getD []), trivial, ?_, ?_⟩
    · change (file.read offset 64).toOption.map _ = _
      cases file.read offset 64 <;> rfl
    · intro bytes hbytes _
      rw [hbytes]
      rfl
  readProgramHeader _ offset _ := by
    refine ⟨(), programHeaderOf ((file.read offset 56).toOption.getD []), trivial, ?_, ?_⟩
    · change (file.read offset 56).toOption.map _ = _
      cases file.read offset 56 <;> rfl
    · intro bytes hbytes _
      rw [hbytes]
      rfl

end Orfos.Memory
