import Mathlib.Algebra.Ring.Nat
import Orfos.Base.Traced

/-!
# System call handlers

The handlers `open`, `close`, `read`, `write`, `mknod`, `exec` and `exit` of `kernel/syscall`
with the functions of `kernel/process/process.cpp`, `kernel/fs/file.cpp` and
`kernel/elf/exec.cpp` that they run through. The file table, the open files and the log
counter are the handlers' own state. Inodes, user memory, page tables and devices are behind
a record of functions over a state of their own, which may do anything to that state.

`beginOp` and `endOp` appear as their effect on `log.outstanding`; their waiting and the
commit are in `Orfos.Fs.GroupCommit`.
-/

namespace Orfos.Syscall

open Orfos.Base Orfos.Base.Traced

/-- `NUM_FILES`, `kernel/fs/file.cpp`. -/
abbrev NUM_FILES : Nat := 200

/-- `NUM_DEVICES`, `kernel/fs/device.h`. -/
abbrev NUM_DEVICES : Int16 := 10

/-- `T_DIR`, `kernel/fs/stat.h`. -/
abbrev T_DIR : Int16 := 1

/-- `T_FILE`, `kernel/fs/stat.h`. -/
abbrev T_FILE : Int16 := 2

/-- `T_DEVICE`, `kernel/fs/stat.h`. -/
abbrev T_DEVICE : Int16 := 3

/-- `O_RDONLY`, `kernel/fs/file.h`. -/
abbrev O_RDONLY : Int32 := 0x000

/-- `O_WRONLY`, `kernel/fs/file.h`. -/
abbrev O_WRONLY : Int32 := 0x001

/-- `O_RDWR`, `kernel/fs/file.h`. -/
abbrev O_RDWR : Int32 := 0x002

/-- `O_CREATE`, `kernel/fs/file.h`. -/
abbrev O_CREATE : Int32 := 0x200

/-- `O_TRUNC`, `kernel/fs/file.h`. -/
abbrev O_TRUNC : Int32 := 0x400

/-- `MAX_PATH_LENGTH`, `kernel/fs/file.h`. -/
abbrev MAX_PATH_LENGTH : UInt64 := 128

/-- `MAX_ARGS`, `kernel/elf/exec.h`. -/
abbrev MAX_ARGS : Nat := 32

/-- `PAGE_SIZE`, `kernel/arch/config.h`. -/
abbrev PAGE_SIZE : UInt64 := 4096

/-- `ELF_MAGIC`, `kernel/elf/elf.h`. -/
abbrev ELF_MAGIC : UInt32 := 0x464C457F

/-- `ELF_PROG_LOAD`, `kernel/elf/elf.h`. -/
abbrev ELF_PROG_LOAD : UInt32 := 1

/-- The bytes of a string up to its NUL. -/
abbrev CString : Type := List UInt8

/-- The fields of `ElfHeader` that `exec` reads. -/
structure ElfHeader where
  magic : UInt32
  entry : UInt64
  phoff : UInt64
  phnum : UInt16
  deriving DecidableEq

/-- The fields of `ProgramHeader` that `exec` reads. -/
structure ProgramHeader where
  type : UInt32
  flags : UInt32
  off : UInt64
  vaddr : UInt64
  filesz : UInt64
  memsz : UInt64
  deriving DecidableEq

/-- `FileType`, `kernel/fs/file.h`. -/
inductive FileType where
  | None
  | Pipe
  | Inode
  | Device
  deriving DecidableEq, Repr

/-- `File`, `kernel/fs/file.h`; both members of the union begin with the inode. -/
structure File (ι : Type) where
  type : FileType
  refCount : UInt32
  readable : Bool
  writable : Bool
  ip : Option ι
  offset : UInt32
  major : Int16

/-- A function of the rest of the kernel, over its state. It may not return. -/
abbrev Op (ω α : Type) : Type := ω → Option (α × ω)

/-- What the handlers call: `kernel/fs/inode.cpp` on inode pointers `ι`, the functions of a
`Device`, and `kernel/memory` on page tables `π`. A function that fills a buffer also gives
what it has put there. In the source none of them calls `beginOp` or `endOp`. -/
structure Rest (ω ι π : Type) where
  openPath : CString → Op ω (Option ι)
  create : CString → Int16 → Int16 → Int16 → Op ω (Option ι)
  lock : ι → Op ω Unit
  unlock : ι → Op ω Unit
  put : ι → Op ω Unit
  truncate : ι → Op ω Unit
  type : ι → ω → Int16
  major : ι → ω → Int16
  read : ι → (userDst : Bool) → (dst : UInt64) → (offset length : UInt32) → Op ω Int32
  readElfHeader : ι → (offset : UInt32) → Op ω (Int32 × ElfHeader)
  readProgramHeader : ι → (offset : UInt32) → Op ω (Int32 × ProgramHeader)
  write : ι → (userSrc : Bool) → (src : UInt64) → (offset length : UInt32) → Op ω Int32
  deviceRead : Int16 → (address : UInt64) → (n : Int32) → Op ω Int32
  deviceWrite : Int16 → (address : UInt64) → (n : Int32) → Op ω Int32
  copyin : π → (src : UInt64) → Op ω (Option UInt64)
  copyinString : π → (src len : UInt64) → Op ω (Option CString)
  copyout : π → (dst : UInt64) → (src : List UInt8) → Op ω Bool
  makePageTable : Op ω π
  deletePageTable : π → Op ω Unit
  walkAddress : π → UInt64 → Op ω UInt64
  allocateUserVirtualMemory : π → (oldSize newSize : UInt64) → (xperm : UInt64) → Op ω UInt64
  clearUserVirtualMemory : π → UInt64 → Op ω Unit

/-- There are registers for arguments. -/
instance (priority := high) args_neZero : NeZero 6 := ⟨by decide⟩

/-- What a handler works on: the rest of the kernel, the calls of `beginOp` and `endOp` so far,
`log.outstanding`, `ftable.files`, and the fields of the calling process. `args` are `a0` to
`a5` of its trap frame, and `name` has 16 bytes. -/
structure Kernel (ω ι π : Type) where
  world : ω
  begun : Nat
  ended : Nat
  outstanding : Int
  files : Nat → File ι
  openFiles : List (Option Nat)
  cwd : Option ι
  args : Fin 6 → UInt64
  pageTable : π
  memorySize : UInt64
  epc : UInt64
  sp : UInt64
  name : List UInt8

/-- A handler. -/
abbrev Handler (ω ι π α : Type) : Type := Traced (Kernel ω ι π) Empty α

variable {ω ι π α : Type}

/-- Call into the rest of the kernel. -/
def enter (f : Op ω α) : Handler ω ι π α := fun k ↦
  match f k.world with
  | none => ⟨[], k, none⟩
  | some (a, w) => ⟨[], { k with world := w }, some a⟩

/-- `beginOp`, once it returns. -/
def beginOp : Handler ω ι π Unit :=
  modify fun k ↦ { k with begun := k.begun + 1, outstanding := k.outstanding + 1 }

/-- `endOp`. -/
def endOp : Handler ω ι π Unit :=
  modify fun k ↦ { k with ended := k.ended + 1, outstanding := k.outstanding - 1 }

/-- An `int` as the `uint64_t` of a handler. -/
def ofInt (n : Int32) : UInt64 := n.toInt64.toUInt64

/-- Dereference a pointer. -/
def deref (p : Option α) : Handler ω ι π α :=
  match p with
  | none => stop
  | some a => pure a

/-- `getArgAddress`, `kernel/syscall/args.cpp`. -/
def getArgAddress (n : Fin 6) : Handler ω ι π UInt64 := gets fun k ↦ k.args n

/-- `getArgInt`. -/
def getArgInt (n : Fin 6) : Handler ω ι π Int32 := gets fun k ↦ (k.args n).toInt64.toInt32

/-- `getArgFd`: the descriptor and the file. -/
def getArgFd (n : Fin 6) : Handler ω ι π (Option (Int32 × Nat)) := do
  let fd ← getArgInt n
  let openFiles ← gets fun k ↦ k.openFiles
  if fd < 0 then
    pure none
  else
    match openFiles[fd.toInt.toNat]? with
    | some (some file) => pure (some (fd, file))
    | _ => pure none

/-- Change an entry of `ftable`. -/
def setFile (i : Nat) (f : File ι → File ι) : Handler ω ι π Unit :=
  modify fun k ↦ { k with files := Function.update k.files i (f (k.files i)) }

variable (K : Rest ω ι π)

/-- `fetchAddress`, `kernel/syscall/args.cpp`. -/
def fetchAddress (address : UInt64) : Handler ω ι π (Option UInt64) := do
  let memorySize ← gets fun k ↦ k.memorySize
  let pageTable ← gets fun k ↦ k.pageTable
  if address ≥ memorySize ∨ address + 8 > memorySize then
    pure none
  else
    enter (K.copyin pageTable address)

/-- `fetchString`. -/
def fetchString (address length : UInt64) : Handler ω ι π (Option CString) := do
  let pageTable ← gets fun k ↦ k.pageTable
  enter (K.copyinString pageTable address length)

/-- `getArgString`. -/
def getArgString (n : Fin 6) (length : UInt64) : Handler ω ι π (Option CString) := do
  let address ← getArgAddress n
  fetchString K address length

namespace File

/-- `File::allocate`: the first entry of `ftable` without references. -/
def allocate : Handler ω ι π (Option Nat) := do
  let files ← gets fun k ↦ k.files
  match (List.range NUM_FILES).find? fun i ↦ (files i).refCount = 0 with
  | none => pure none
  | some i => do
    setFile i fun file ↦ { file with refCount := file.refCount + 1 }
    pure (some i)

/-- `File::read`. -/
def read (i : Nat) (address : UInt64) (n : Int32) : Handler ω ι π Int32 := do
  let file ← gets fun k ↦ k.files i
  if ¬ file.readable then
    pure (-1)
  else
    match file.type with
    | .Pipe => pure 0
    | .Device =>
      if file.major < 0 ∨ file.major ≥ NUM_DEVICES then
        pure (-1)
      else
        enter (K.deviceRead file.major address n)
    | .Inode => do
      let ip ← deref file.ip
      enter (K.lock ip)
      let offset ← gets fun k ↦ (k.files i).offset
      let len ← enter (K.read ip true address offset n.toUInt32)
      setFile i fun file ↦
        { file with offset := if len > 0 then file.offset + len.toUInt32 else file.offset }
      enter (K.unlock ip)
      pure len
    | .None => stop

/-- The largest chunk of `File::write`. -/
abbrev max : Int32 := 3072

/-- The loop of `File::write`, from byte `i` on. A chunk that was written in full brings it
closer to `n`, so `n` rounds are enough. -/
def writeLoop (i : Nat) (ip : ι) (address : UInt64) (n : Int32) :
    Nat → Int32 → Handler ω ι π Int32
  | 0, done => pure (if done = n then n else -1)
  | fuel + 1, done =>
    if done < n then do
      let len := if n - done > max then max else n - done
      beginOp
      enter (K.lock ip)
      let offset ← gets fun k ↦ (k.files i).offset
      let res ← enter (K.write ip true (address + ofInt done) offset len.toUInt32)
      setFile i fun file ↦
        { file with offset := if res > 0 then file.offset + res.toUInt32 else file.offset }
      enter (K.unlock ip)
      endOp
      if res ≠ len then
        pure (if done = n then n else -1)
      else
        writeLoop i ip address n fuel (done + res)
    else
      pure (if done = n then n else -1)

/-- `File::write`. -/
def write (i : Nat) (address : UInt64) (n : Int32) : Handler ω ι π Int32 := do
  let file ← gets fun k ↦ k.files i
  if ¬ file.writable then
    pure (-1)
  else
    match file.type with
    | .Pipe => pure 0
    | .Device =>
      if file.major < 0 ∨ file.major ≥ NUM_DEVICES then
        pure (-1)
      else
        enter (K.deviceWrite file.major address n)
    | .Inode => do
      let ip ← deref file.ip
      writeLoop K i ip address n n.toInt.toNat 0
    | .None => stop

/-- `File::close`. -/
def close (i : Nat) : Handler ω ι π Unit := do
  assert fun k ↦ 1 ≤ (k.files i).refCount
  setFile i fun file ↦ { file with refCount := file.refCount - 1 }
  let file ← gets fun k ↦ k.files i
  if file.refCount > 0 then
    pure ()
  else do
    setFile i fun file ↦ { file with refCount := 0, type := .None }
    match file.type with
    | .None | .Pipe => pure ()
    | .Inode | .Device => do
      beginOp
      let ip ← deref file.ip
      enter (K.put ip)
      endOp

end File

namespace Process

/-- `Process::open` from the lookup on, with `ip` locked. -/
def openFound (ip : ι) (mode : Int32) : Handler ω ι π Int32 := do
  let type ← gets fun k ↦ K.type ip k.world
  let major ← gets fun k ↦ K.major ip k.world
  if type = T_DEVICE ∧ (major < 0 ∨ major ≥ NUM_DEVICES) then do
    -- the only return without `endOp`
    enter (K.unlock ip)
    enter (K.put ip)
    pure (-1)
  else
    match ← File.allocate with
    | none => do
      enter (K.unlock ip)
      enter (K.put ip)
      endOp
      pure (-1)
    | some file => do
      let fd ← gets fun k ↦ k.openFiles.length
      modify fun k ↦ { k with openFiles := k.openFiles ++ [some file] }
      setFile file fun f ↦
        if type = T_DEVICE then { f with type := .Device, ip := some ip, major := major }
        else { f with type := .Inode, ip := some ip, offset := 0 }
      setFile file fun f ↦ { f with
        readable := mode &&& O_WRONLY = 0
        writable := mode &&& O_WRONLY = 0 ∨ mode &&& O_RDWR ≠ 0 }
      if mode &&& O_TRUNC ≠ 0 ∧ type = T_FILE then
        enter (K.truncate ip)
      enter (K.unlock ip)
      endOp
      pure (Int32.ofNat fd)

/-- `Process::open`. -/
def open_ (path : CString) (mode : Int32) : Handler ω ι π Int32 := do
  beginOp
  if mode &&& O_CREATE ≠ 0 then
    match ← enter (K.create path T_FILE 0 0) with
    | none => do
      endOp
      pure (-1)
    | some ip => openFound K ip mode
  else
    match ← enter (K.openPath path) with
    | none => do
      endOp
      pure (-1)
    | some ip => do
      enter (K.lock ip)
      let type ← gets fun k ↦ K.type ip k.world
      if type = T_DIR ∧ mode ≠ O_RDONLY then do
        enter (K.unlock ip)
        enter (K.put ip)
        endOp
        pure (-1)
      else
        openFound K ip mode

/-- `Process::close`. -/
def close (fd : Int32) : Handler ω ι π Int32 := do
  let openFiles ← gets fun k ↦ k.openFiles
  if fd < 0 then
    pure (-1)
  else
    match openFiles[fd.toInt.toNat]? with
    | none => pure (-1)
    | some file => do
      let i ← deref file
      File.close K i
      modify fun k ↦ { k with openFiles := k.openFiles.set fd.toInt.toNat none }
      pure 0

/-- The loop of `Process::exit` over the open files. -/
def closeAll : List (Option Nat) → Handler ω ι π Unit
  | [] => pure ()
  | none :: files => closeAll files
  | some i :: files => do
    File.close K i
    closeAll files

/-- `Process::exit` up to its first lock; it goes on in `Orfos.Sched` and does not return. -/
def exit : Handler ω ι π Unit := do
  let openFiles ← gets fun k ↦ k.openFiles
  closeAll K openFiles
  modify fun k ↦ { k with openFiles := [] }
  beginOp
  let cwd ← gets fun k ↦ k.cwd
  let ip ← deref cwd
  enter (K.put ip)
  endOp
  modify fun k ↦ { k with cwd := none }

end Process

namespace Elf

/-- `flagsToPerm`, `kernel/elf/exec.cpp`: bit 0 asks for `PTE_X` and bit 1 for `PTE_W`. -/
def flagsToPerm (flags : UInt32) : UInt64 :=
  (if flags &&& 1 ≠ 0 then 8 else 0) ||| if flags &&& 2 ≠ 0 then 4 else 0

/-- The loop of `loadSegment`, from byte `i` on. It ends within `2 ^ 52` pages or not at all. -/
def loadSegment (pageTable : π) (va : UInt64) (ip : ι) (offset size : UInt64) :
    Nat → UInt64 → Handler ω ι π Bool
  | 0, _ => stop
  | fuel + 1, i =>
    if i < size then do
      let pa ← enter (K.walkAddress pageTable (va + i))
      assert fun _ ↦ pa ≠ 0
      let n := if size - i < PAGE_SIZE then size - i else PAGE_SIZE
      let len ← enter (K.read ip false pa (offset + i).toUInt32 n.toUInt32)
      if ofInt len ≠ n then
        pure false
      else
        loadSegment pageTable va ip offset size fuel (i + PAGE_SIZE)
    else
      pure true

/-- The lambda `bad` of `exec`. -/
def bad (pageTable : π) (ip : Option ι) : Handler ω ι π Int32 := do
  enter (K.deletePageTable pageTable)
  match ip with
  | none => pure (-1)
  | some ip => do
    enter (K.unlock ip)
    enter (K.put ip)
    endOp
    pure (-1)

/-- The loop of `exec` over the program headers, with `fuel` of them to come; `next` is what
`exec` does with the size of the image afterwards. -/
def load (pageTable : π) (ip : ι) (next : UInt64 → Handler ω ι π Int32) :
    Nat → UInt64 → UInt64 → Handler ω ι π Int32
  | 0, _, size => next size
  | fuel + 1, offset, size => do
    let (len, progHeader) ← enter (K.readProgramHeader ip offset.toUInt32)
    if len ≠ 56 then
      bad K pageTable (some ip)
    else if progHeader.type ≠ ELF_PROG_LOAD then
      load pageTable ip next fuel (offset + 56) size
    else if progHeader.memsz < progHeader.filesz then
      bad K pageTable (some ip)
    else if progHeader.vaddr + progHeader.memsz < progHeader.vaddr then
      bad K pageTable (some ip)
    else if progHeader.vaddr % PAGE_SIZE ≠ 0 then
      bad K pageTable (some ip)
    else do
      let size ← enter (K.allocateUserVirtualMemory pageTable size
        (progHeader.vaddr + progHeader.memsz) (flagsToPerm progHeader.flags))
      if size = 0 then
        bad K pageTable (some ip)
      else
        let res ← loadSegment K pageTable progHeader.vaddr ip progHeader.off progHeader.filesz
          (2 ^ 52 + 1) 0
        if ¬ res then
          bad K pageTable (some ip)
        else
          load pageTable ip next fuel (offset + 56) size

/-- The loop of `exec` over the arguments; `next` is what `exec` does afterwards with the stack
pointer and the addresses of the arguments. -/
def pushArgs (pageTable : π) (stackBase : UInt64)
    (next : UInt64 → List UInt64 → Handler ω ι π Int32) :
    List CString → UInt64 → List UInt64 → Handler ω ι π Int32
  | [], sp, ustack => next sp ustack
  | arg :: argv, sp, ustack =>
    if ustack.length ≥ MAX_ARGS then
      bad K pageTable none
    else do
      let top := sp - (UInt64.ofNat arg.length + 1)
      let sp := top - top % 16
      if sp < stackBase then
        bad K pageTable none
      else
        let res ← enter (K.copyout pageTable sp (arg ++ [0]))
        if ¬ res then
          bad K pageTable none
        else
          pushArgs pageTable stackBase next argv sp (ustack ++ [sp])

/-- The bytes of an array of addresses. -/
def wordBytes (words : List UInt64) : List UInt8 :=
  words.flatMap fun w ↦ (List.range 8).map fun i ↦ (w >>> (8 * UInt64.ofNat i)).toUInt8

/-- The loop of `exec` over a path: `last` is what is behind the last slash so far. -/
def lastElement (last : CString) : CString → CString
  | [] => last
  | c :: s => lastElement (if c = 47 then s else last) s

/-- `strncpy`, `kernel/lib/string.cpp`: `n` bytes, all zero from the end of the string on. -/
def strncpy : Nat → CString → List UInt8
  | 0, _ => []
  | n + 1, [] => 0 :: strncpy n []
  | n + 1, c :: t => c :: strncpy n t

/-- The end of `exec`: the pointers to the arguments, and the new image of the process. -/
def finish (path : CString) (pageTable : π) (elfHeader : ElfHeader) (size sp : UInt64)
    (ustack : List UInt64) : Handler ω ι π Int32 := do
  let top := sp - (UInt64.ofNat ustack.length + 1) * 8
  let sp := top - top % 16
  if sp < size - PAGE_SIZE then
    bad K pageTable none
  else
    let res ← enter (K.copyout pageTable sp (wordBytes (ustack ++ [0])))
    if ¬ res then
      bad K pageTable none
    else do
      let oldPageTable ← gets fun k ↦ k.pageTable
      modify fun k ↦ { k with
        args := Function.update k.args 1 sp
        name := strncpy 16 (lastElement path path)
        pageTable := pageTable
        memorySize := size
        epc := elfHeader.entry
        sp := sp }
      enter (K.deletePageTable oldPageTable)
      pure (Int32.ofNat ustack.length)

/-- `exec` from the end of its file operation on. -/
def buildStack (path : CString) (pageTable : π) (elfHeader : ElfHeader) (argv : List CString)
    (size : UInt64) : Handler ω ι π Int32 := do
  -- `roundUp`
  let size := (size + PAGE_SIZE - 1) &&& ~~~(PAGE_SIZE - 1)
  let allocSize ← enter (K.allocateUserVirtualMemory pageTable size (size + PAGE_SIZE * 2) 4)
  if allocSize = 0 then
    bad K pageTable none
  else do
    enter (K.clearUserVirtualMemory pageTable (allocSize - PAGE_SIZE * 2))
    pushArgs K pageTable (allocSize - PAGE_SIZE) (finish K path pageTable elfHeader allocSize) argv
      allocSize []

/-- `exec`, `kernel/elf/exec.cpp`; `argv` ends before its null pointer. -/
def exec (path : CString) (argv : List CString) : Handler ω ι π Int32 := do
  beginOp
  match ← enter (K.openPath path) with
  | none => do
    endOp
    pure (-1)
  | some ip => do
    enter (K.lock ip)
    let pageTable ← enter K.makePageTable
    let (len, elfHeader) ← enter (K.readElfHeader ip 0)
    if len ≠ 64 then
      bad K pageTable (some ip)
    else if elfHeader.magic ≠ ELF_MAGIC then
      bad K pageTable (some ip)
    else
      let next (size : UInt64) : Handler ω ι π Int32 := do
        enter (K.unlock ip)
        enter (K.put ip)
        endOp
        buildStack K path pageTable elfHeader argv size
      load K pageTable ip next elfHeader.phnum.toNat elfHeader.phoff 0

end Elf

/-- The system call `open`. -/
def open_ : Handler ω ι π UInt64 := do
  let openMode ← getArgInt 1
  match ← getArgString K 0 MAX_PATH_LENGTH with
  | none => pure (-1)
  | some path => ofInt <$> Process.open_ K path openMode

/-- The system call `close`. -/
def close : Handler ω ι π UInt64 := do
  match ← getArgFd 0 with
  | none => pure (-1)
  | some (fd, _) => ofInt <$> Process.close K fd

/-- The system call `read`. -/
def read : Handler ω ι π UInt64 := do
  match ← getArgFd 0 with
  | none => pure (-1)
  | some (_, file) => do
    let buf ← getArgAddress 1
    let n ← getArgInt 2
    ofInt <$> File.read K file buf n

/-- The system call `write`. -/
def write : Handler ω ι π UInt64 := do
  let address ← getArgAddress 1
  let len ← getArgInt 2
  match ← getArgFd 0 with
  | none => pure (-1)
  | some (_, file) => ofInt <$> File.write K file address len

/-- The system call `mknod`. -/
def mknod : Handler ω ι π UInt64 := do
  beginOp
  let major ← getArgInt 1
  let minor ← getArgInt 2
  match ← getArgString K 0 MAX_PATH_LENGTH with
  | none => do
    endOp
    pure (-1)
  | some path => do
    match ← enter (K.create path T_DEVICE major.toInt16 minor.toInt16) with
    | none => do
      endOp
      pure (-1)
    | some ip => do
      enter (K.unlock ip)
      enter (K.put ip)
      endOp
      pure 0

/-- The loop of the system call `exec` over the user's argument pointers, from the `i`-th on. -/
def fetchArgs (uargv : UInt64) : Nat → Nat → Handler ω ι π (Option (List CString))
  | 0, _ => pure none
  | fuel + 1, i => do
    match ← fetchAddress K (uargv + 8 * UInt64.ofNat i) with
    | none => pure none
    | some uarg =>
      if uarg = 0 then
        pure (some [])
      else
        match ← fetchString K uarg PAGE_SIZE with
        | none => pure none
        | some arg => do
          let argv ← fetchArgs uargv fuel (i + 1)
          pure (argv.map fun argv ↦ arg :: argv)

/-- The system call `exec`. -/
def exec : Handler ω ι π UInt64 := do
  let uargv ← getArgAddress 1
  match ← getArgString K 0 MAX_PATH_LENGTH with
  | none => pure (-1)
  | some path =>
    match ← fetchArgs K uargv MAX_ARGS 0 with
    | none => pure (-1)
    | some argv => ofInt <$> Elf.exec K path argv

/-- The system call `exit`. -/
def exit : Handler ω ι π UInt64 := do
  Process.exit K
  pure 0

/-- The system calls that use the file system. -/
inductive Name where
  | open_
  | close
  | read
  | write
  | mknod
  | exec
  | exit
  deriving DecidableEq, Repr

/-- The handler of a system call. -/
def handler : Name → Handler ω ι π UInt64
  | .open_ => open_ K
  | .close => close K
  | .read => read K
  | .write => write K
  | .mknod => mknod K
  | .exec => exec K
  | .exit => exit K

end Orfos.Syscall
