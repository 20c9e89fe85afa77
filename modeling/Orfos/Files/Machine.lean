import Mathlib.Data.List.Basic
import Mathlib.Logic.Function.Basic
import Orfos.Base.Guarded
import Orfos.Syscall.Handlers

/-!
# Open files

`kernel/fs/file.cpp` with `open`, `close`, `fork` and `exit` of `kernel/process/process.cpp`, the
system calls on descriptors and `kernel/fs/device.cpp`, for any number of processes. A step is a
part of a system call that runs under `ftable.mutex`, under the lock of an inode or under
`itable->mutex`, or that touches nothing which another process uses.

What the lookup of a path finds is part of the event, and so is what `Inode::read` and
`Inode::write` return. An inode has its type, its major number and its references; all that it
stores is one value. References of other kernel code are counted in `others`.

The counters of references are natural numbers: a reference is a pointer in the kernel's memory,
which has no room for `2 ^ 32` of them.
-/

namespace Orfos.Files

open Orfos.Syscall

/-- `CONSOLE`, `kernel/fs/device.h`. -/
abbrev CONSOLE : Nat := 1

/-- `File`, `kernel/fs/file.h`; both members of the union begin with the inode. -/
structure File (ι : Type) where
  type : FileType
  refCount : Nat
  readable : Bool
  writable : Bool
  ip : Option ι
  offset : UInt32
  major : Int16

/-- A pointer of `openFiles`, and as history the mode of the `open` that it comes from. -/
structure Descriptor where
  file : Nat
  mode : Int32
  deriving DecidableEq

/-- What the open files depend on of an inode. -/
structure Inode where
  type : Int16
  major : Int16
  refCount : Nat

/-- The functions of `deviceMap`. -/
inductive Driver where
  | consoleRead
  | consoleWrite
  deriving DecidableEq

/-- `Device`. -/
structure Device where
  read : Option Driver
  write : Option Driver

/-- `deviceMap` after `initializeDevices`. -/
def deviceMap : Nat → Device :=
  Function.update (fun _ ↦ ⟨none, none⟩) CONSOLE ⟨some .consoleRead, some .consoleWrite⟩

/-- `getDevice`. -/
def getDevice (id : Int16) : Option Device :=
  if id < 0 ∨ id ≥ NUM_DEVICES then none else some (deviceMap id.toInt.toNat)

/-- Where a process is. `exit` closes its files through the same steps as the system call
`close`, with `exiting` set. `locked` says whether the inode that `open` works on is locked. -/
inductive Pc (ι : Type) where
  | idle
  | found (ip : ι) (mode : Int32) (locked : Bool)
  | refused (ip : ι) (locked : Bool)
  | allocated (ip : ι) (mode : Int32) (locked : Bool) (file : Nat)
  | closing (fd : Nat) (exiting : Bool)
  | putting (fd : Nat) (file : Nat) (ip : ι) (exiting : Bool)
  | clearing (fd : Nat) (exiting : Bool)
  | exiting (fd : Nat)
  | leaving
  | dead
  | forking (child : Nat) (fd : Nat)
  | unborn
  | reading (file : Nat) (n : Int32)
  | writing (file : Nat) (n i : Int32)
  deriving DecidableEq

/-- The fields of `Process` that are used here, and the value that its last system call
returned. -/
structure Process (ι : Type) where
  openFiles : List (Option Descriptor)
  cwd : Option ι
  pc : Pc ι
  ret : Int32

/-- The assertions of `File::dup` and `File::close`, of `Inode::unlock` and on the type of a
file, a null pointer to a file or an inode, and a function of a device that is not set. -/
inductive Fault where
  | refCount
  | unlock
  | type
  | null
  | device
  deriving DecidableEq

/-- How often each entry of `ftable` was opened and how often its inode was put, and the ranges
that were transferred through it since it was opened. -/
structure History where
  opened : Nat → Nat
  put : Nat → Nat
  transfers : Nat → List (Nat × Nat)

/-- The processes, `ftable.files`, the inodes, what they store, and the references to them that
are neither in `ftable` nor held by a process here. -/
structure Machine (ι δ : Type) where
  procs : Nat → Process ι
  next : Nat
  files : Nat → File ι
  inodes : ι → Inode
  data : ι → δ
  others : ι → Nat
  fault : Option Fault
  history : History

/-- What the lookup in `open` or `mknod` gives. With `O_CREATE` and in `mknod` an inode that
`Inode::create` has made is `found`; if it exists already, `Inode::create` gives it without its
lock. -/
inductive Lookup (ι : Type) where
  | absent
  | found (ip : ι)
  | existing (ip : ι)

/-- What happens next: a system call, a further step of a process, an inode that is not in use is
read from the disk, other code takes or puts references, and other code changes what inodes
store. -/
inductive Event (ι δ : Type) where
  | open_ (t : Nat) (mode : Int32) (lookup : Lookup ι)
  | close (t : Nat) (fd : Int32)
  | fork (t : Nat)
  | exit (t : Nat)
  | read (t : Nat) (fd n res : Int32)
  | write (t : Nat) (fd n res : Int32)
  | mknod (t : Nat) (major minor : Int32) (lookup : Lookup ι)
  | go (t : Nat) (res : Int32) (d : δ)
  | load (ip : ι) (type major : Int16)
  | refer (ip : ι) (n : Nat)
  | change (data : ι → δ)

/-- `MAX_FILE * BLOCK_SIZE`. -/
abbrev MAX_SIZE : Nat := 268 * 1024

/-- What `Inode::read` may return. -/
def CanRead (offset length : UInt32) (res : Int32) : Prop :=
  0 < res → res.toInt.toNat ≤ length.toNat ∧ offset.toNat + res.toInt.toNat < 2 ^ 32

/-- What `Inode::write` may return. -/
def CanWrite (offset length : UInt32) (res : Int32) : Prop :=
  0 < res → res.toInt.toNat ≤ length.toNat ∧ offset.toNat + res.toInt.toNat ≤ MAX_SIZE

instance (offset length : UInt32) (res : Int32) : Decidable (CanRead offset length res) :=
  inferInstanceAs (Decidable (_ → _))

instance (offset length : UInt32) (res : Int32) : Decidable (CanWrite offset length res) :=
  inferInstanceAs (Decidable (_ → _))

/-- The inode that a process holds for the table or gives back. -/
def Pc.node {ι : Type} : Pc ι → Option ι
  | .found ip _ _ | .refused ip _ | .allocated ip _ _ _ | .putting _ _ ip _ => some ip
  | _ => none

namespace Machine

variable {ι δ : Type} [DecidableEq ι]

/-- Change a process. -/
def setProc (s : Machine ι δ) (t : Nat) (p : Process ι) : Machine ι δ :=
  { s with procs := Function.update s.procs t p }

/-- Move a process on. -/
def goto (s : Machine ι δ) (t : Nat) (l : Pc ι) : Machine ι δ :=
  s.setProc t { s.procs t with pc := l }

/-- A system call returns. -/
def return_ (s : Machine ι δ) (t : Nat) (n : Int32) : Machine ι δ :=
  s.setProc t { s.procs t with pc := .idle, ret := n }

/-- Change an entry of `ftable`. -/
def setFile (s : Machine ι δ) (i : Nat) (f : File ι) : Machine ι δ :=
  { s with files := Function.update s.files i f }

/-- Change an inode. -/
def setInode (s : Machine ι δ) (ip : ι) (f : Inode → Inode) : Machine ι δ :=
  { s with inodes := Function.update s.inodes ip (f (s.inodes ip)) }

/-- `Inode::get` or `Inode::dup`. -/
def dupInode (s : Machine ι δ) (ip : ι) : Machine ι δ :=
  s.setInode ip fun x ↦ { x with refCount := x.refCount + 1 }

/-- `Inode::put`. What it does to an inode that loses its last reference is a later `load`. -/
def putInode (s : Machine ι δ) (ip : ι) : Machine ι δ :=
  s.setInode ip fun x ↦ { x with refCount := x.refCount - 1 }

/-- The kernel stops. -/
def stop (s : Machine ι δ) (f : Fault) : Machine ι δ := { s with fault := some f }

/-- An inode that is neither in `ftable` nor on its way there. -/
def unused (s : Machine ι δ) (ip : ι) : Bool :=
  ((List.range NUM_FILES).all fun i ↦ (s.files i).type = .None ∨ (s.files i).ip ≠ some ip) ∧
    (List.range s.next).all fun t ↦ (s.procs t).pc.node ≠ some ip

/-- `getArgFd`. -/
def getArgFd (s : Machine ι δ) (t : Nat) (fd : Int32) : Option Descriptor :=
  if fd < 0 then none else ((s.procs t).openFiles[fd.toInt.toNat]?).join

/-- `File::allocate`: the entry that it finds. -/
def free (s : Machine ι δ) : Option Nat :=
  (List.range NUM_FILES).find? fun i ↦ (s.files i).refCount = 0

/-- The lookup of `Process::open`. -/
def open_ (s : Machine ι δ) (t : Nat) (mode : Int32) : Lookup ι → Option (Machine ι δ)
  | .absent => some (s.return_ t (-1))
  | .found ip =>
    if mode &&& O_CREATE ≠ 0 then
      if s.unused ip then
        some (((s.setInode ip fun x ↦ { x with type := T_FILE, major := 0 }).dupInode ip).goto t
          (.found ip mode true))
      else none
    else if (s.inodes ip).type = T_DIR ∧ mode ≠ O_RDONLY then
      some ((s.dupInode ip).goto t (.refused ip true))
    else some ((s.dupInode ip).goto t (.found ip mode true))
  | .existing ip =>
    if mode &&& O_CREATE ≠ 0 then
      if (s.inodes ip).type = T_FILE ∨ (s.inodes ip).type = T_DEVICE then
        some ((s.dupInode ip).goto t (.found ip mode false))
      else some (s.stop .unlock)
    else none

/-- What `Process::open` writes into the entry that it has allocated. -/
def install (x : Inode) (ip : ι) (mode : Int32) (f : File ι) : File ι :=
  let f := if x.type = T_DEVICE then { f with type := .Device, ip := some ip, major := x.major }
    else { f with type := .Inode, ip := some ip, offset := 0 }
  { f with
    readable := mode &&& O_WRONLY = 0
    writable := mode &&& O_WRONLY = 0 ∨ mode &&& O_RDWR ≠ 0 }

/-- The end of `Process::open`. -/
def finishOpen (s : Machine ι δ) (t : Nat) (ip : ι) (mode : Int32) (locked : Bool) (i : Nat)
    (d : δ) : Machine ι δ :=
  let p := s.procs t
  let s := s.setFile i (install (s.inodes ip) ip mode (s.files i))
  let s := { s with
    data := if mode &&& O_TRUNC ≠ 0 ∧ (s.inodes ip).type = T_FILE then Function.update s.data ip d
      else s.data
    history := { s.history with
      opened := Function.update s.history.opened i (s.history.opened i + 1)
      transfers := Function.update s.history.transfers i [] } }
  let s := s.setProc t { p with
    openFiles := p.openFiles ++ [some ⟨i, mode⟩]
    pc := .idle
    ret := Int32.ofNat p.openFiles.length }
  if locked then s else s.stop .unlock

/-- `File::close` up to the end of its critical section. -/
def closeFile (s : Machine ι δ) (t fd : Nat) (exiting : Bool) (i : Nat) : Machine ι δ :=
  let file := s.files i
  if file.refCount = 0 then s.stop .refCount
  else if file.refCount - 1 > 0 then
    (s.setFile i { file with refCount := file.refCount - 1 }).goto t (.clearing fd exiting)
  else
    let s := s.setFile i { file with refCount := 0, type := .None }
    match file.type with
    | .None | .Pipe => s.goto t (.clearing fd exiting)
    | .Inode | .Device =>
      match file.ip with
      | none => s.stop .null
      | some ip => s.goto t (.putting fd i ip exiting)

/-- A round of the loop of `Process::fork`, or what follows the loop. -/
def fork (s : Machine ι δ) (t child fd : Nat) : Machine ι δ :=
  let c := s.procs child
  match (s.procs t).openFiles[fd]? with
  | some (some desc) =>
    let file := s.files desc.file
    if file.refCount = 0 then s.stop .refCount
    else
      ((s.setFile desc.file { file with refCount := file.refCount + 1 }).setProc child
        { c with openFiles := c.openFiles ++ [some desc] }).goto t (.forking child (fd + 1))
  | some none =>
    (s.setProc child { c with openFiles := c.openFiles ++ [none] }).goto t
      (.forking child (fd + 1))
  | none =>
    match (s.procs t).cwd with
    | none => s.stop .null
    | some ip =>
      ((s.dupInode ip).setProc child { c with cwd := some ip, pc := .idle }).return_ t
        (Int32.ofNat child)

/-- Record a transfer, as `File::read` and `File::write` advance the offset. -/
def transfer (s : Machine ι δ) (i : Nat) (res : Int32) : Machine ι δ :=
  let file := s.files i
  if res > 0 then
    { s.setFile i { file with offset := file.offset + res.toUInt32 } with
      history := { s.history with
        transfers := Function.update s.history.transfers i
          (s.history.transfers i ++ [(file.offset.toNat, res.toInt.toNat)]) } }
  else s

/-- `File::read` or `File::write` up to the lock of the inode: whether the file allows it, the
function of a device that is called, and where an inode file goes on. -/
def access (s : Machine ι δ) (t i : Nat) (allowed : Bool) (function : Device → Option Driver)
    (l : Pc ι) (res : Int32) : Machine ι δ :=
  if ¬ allowed then s.return_ t (-1)
  else
    match (s.files i).type with
    | .Pipe => s.return_ t 0
    | .Device =>
      match getDevice (s.files i).major with
      | none => s.return_ t (-1)
      | some dev =>
        match function dev with
        | none => s.stop .device
        | some _ => s.return_ t res
    | .Inode => s.goto t l
    | .None => s.stop .type

/-- `File::read`. -/
def read (s : Machine ι δ) (t i : Nat) (n res : Int32) : Machine ι δ :=
  s.access t i (s.files i).readable Device.read (.reading i n) res

/-- `File::write`. -/
def write (s : Machine ι δ) (t i : Nat) (n res : Int32) : Machine ι δ :=
  s.access t i (s.files i).writable Device.write (.writing i n 0) res

/-- The length of the next chunk of `File::write`. -/
def chunk (n k : Int32) : Int32 := if n - k > File.max then File.max else n - k

/-- A round of the loop of `File::write`. -/
def writeChunk (s : Machine ι δ) (t i : Nat) (n k res : Int32) (d : δ) : Option (Machine ι δ) :=
  if k < n then
    match (s.files i).ip with
    | none => some (s.stop .null)
    | some ip =>
      if CanWrite (s.files i).offset (chunk n k).toUInt32 res then
        let s := { s with data := Function.update s.data ip d }.transfer i res
        if res ≠ chunk n k then some (s.return_ t (if k = n then n else -1))
        else some (s.goto t (.writing i n (k + res)))
      else none
  else some (s.return_ t (if k = n then n else -1))

/-- The next step of a process. -/
def go (s : Machine ι δ) (t : Nat) (res : Int32) (d : δ) : Option (Machine ι δ) :=
  let p := s.procs t
  match p.pc with
  | .idle | .dead | .unborn => none
  | .found ip mode locked =>
    let x := s.inodes ip
    if x.type = T_DEVICE ∧ (x.major < 0 ∨ x.major ≥ NUM_DEVICES) then
      some (s.goto t (.refused ip locked))
    else
      match s.free with
      | none => some (s.goto t (.refused ip locked))
      | some i =>
        some ((s.setFile i { s.files i with refCount := (s.files i).refCount + 1 }).goto t
          (.allocated ip mode locked i))
  | .refused ip locked =>
    some (if locked then (s.putInode ip).return_ t (-1) else s.stop .unlock)
  | .allocated ip mode locked i => some (s.finishOpen t ip mode locked i d)
  | .closing fd exiting =>
    match p.openFiles[fd]? with
    | some (some desc) => some (s.closeFile t fd exiting desc.file)
    | _ => some (s.stop .null)
  | .putting fd i ip exiting =>
    some ({ s.putInode ip with
      history := { s.history with
        put := Function.update s.history.put i (s.history.put i + 1) } }.goto t
          (.clearing fd exiting))
  | .clearing fd exiting =>
    let p := { p with openFiles := p.openFiles.set fd none }
    some (s.setProc t (if exiting then { p with pc := .exiting (fd + 1) }
      else { p with pc := .idle, ret := 0 }))
  | .exiting fd =>
    match p.openFiles[fd]? with
    | some (some _) => some (s.goto t (.closing fd true))
    | some none => some (s.goto t (.exiting (fd + 1)))
    | none => some (s.setProc t { p with openFiles := [], pc := .leaving })
  | .leaving =>
    match p.cwd with
    | none => some (s.stop .null)
    | some ip => some ((s.putInode ip).setProc t { p with cwd := none, pc := .dead })
  | .forking child fd => some (s.fork t child fd)
  | .reading i n =>
    match (s.files i).ip with
    | none => some (s.stop .null)
    | some _ =>
      if CanRead (s.files i).offset n.toUInt32 res then some ((s.transfer i res).return_ t res)
      else none
  | .writing i n k => s.writeChunk t i n k res d

/-- A system call of a process that is in none. -/
def call (s : Machine ι δ) (t : Nat) (f : Option (Machine ι δ)) : Option (Machine ι δ) :=
  if t < s.next ∧ (s.procs t).pc = .idle then f else none

/-- One step. Nothing happens after a fault. -/
def step (s : Machine ι δ) (e : Event ι δ) : Option (Machine ι δ) :=
  if s.fault.isSome then none
  else
    match e with
    | .open_ t mode lookup => s.call t (s.open_ t mode lookup)
    | .close t fd => s.call t <|
      match s.getArgFd t fd with
      | none => some (s.return_ t (-1))
      | some _ => some (s.goto t (.closing fd.toInt.toNat false))
    | .fork t => s.call t <|
      some ({ s.setProc s.next ⟨[], none, .unborn, 0⟩ with next := s.next + 1 }.goto t
        (.forking s.next 0))
    | .exit t => s.call t (some (s.goto t (.exiting 0)))
    | .read t fd n res => s.call t <|
      match s.getArgFd t fd with
      | none => some (s.return_ t (-1))
      | some desc => some (s.read t desc.file n res)
    | .write t fd n res => s.call t <|
      match s.getArgFd t fd with
      | none => some (s.return_ t (-1))
      | some desc => some (s.write t desc.file n res)
    | .mknod t major _ lookup => s.call t <|
      match lookup with
      | .absent => some (s.return_ t (-1))
      | .found ip =>
        if s.unused ip then
          some ((s.setInode ip fun x ↦
            { x with type := T_DEVICE, major := major.toInt16 }).return_ t 0)
        else none
      | .existing _ => some (s.stop .unlock)
    | .go t res d => if t < s.next then s.go t res d else none
    | .load ip type major =>
      if s.unused ip then some (s.setInode ip fun x ↦ { x with type := type, major := major })
      else none
    | .refer ip n =>
      some { (s.setInode ip fun x ↦ { x with refCount := x.refCount - s.others ip + n }) with
        others := Function.update s.others ip n }
    | .change data => some { s with data := data }

/-! ### What the steps do -/

variable {s s' : Machine ι δ} {t : Nat}

omit [DecidableEq ι] in
/-- What a transfer leaves alone. -/
theorem transfer_spec (s : Machine ι δ) (i : Nat) (res : Int32) :
    (s.transfer i res).procs = s.procs ∧ (s.transfer i res).next = s.next ∧
      (∀ j, ((s.transfer i res).files j).refCount = (s.files j).refCount ∧
        ((s.transfer i res).files j).type = (s.files j).type ∧
          ((s.transfer i res).files j).ip = (s.files j).ip) ∧
      (s.transfer i res).inodes = s.inodes ∧ (s.transfer i res).others = s.others ∧
      (s.transfer i res).fault = s.fault ∧
      (s.transfer i res).history.opened = s.history.opened ∧
      (s.transfer i res).history.put = s.history.put := by
  unfold transfer
  dsimp only
  split
  · refine ⟨rfl, rfl, fun j ↦ ?_, rfl, rfl, rfl, rfl, rfl⟩
    by_cases hj : j = i
    · subst hj
      simp [setFile]
    · simp [setFile, Function.update_of_ne hj]
  · exact ⟨rfl, rfl, fun _ ↦ ⟨rfl, rfl, rfl⟩, rfl, rfl, rfl, rfl, rfl⟩

/-- What a round of `File::write` does. -/
theorem writeChunk_cases {i : Nat} {n k res : Int32} {d : δ}
    (hs : s.writeChunk t i n k res d = some s') :
    (¬ k < n ∧ s' = s.return_ t (if k = n then n else -1)) ∨
      (k < n ∧ (s.files i).ip = none ∧ s' = s.stop .null) ∨
      ∃ ip, k < n ∧ (s.files i).ip = some ip ∧
        CanWrite (s.files i).offset (chunk n k).toUInt32 res ∧
        ((res ≠ chunk n k ∧
            s' = ({ s with data := Function.update s.data ip d }.transfer i res).return_ t
              (if k = n then n else -1)) ∨
          (res = chunk n k ∧
            s' = ({ s with data := Function.update s.data ip d }.transfer i res).goto t
              (.writing i n (k + res)))) := by
  unfold writeChunk at hs
  dsimp only at hs
  split at hs
  · next hlt =>
    split at hs
    · next hip => exact .inr (.inl ⟨hlt, hip, (Option.some.inj hs).symm⟩)
    · next ip hip =>
      split at hs
      · next hcan =>
        refine .inr (.inr ⟨ip, hlt, hip, hcan, ?_⟩)
        split at hs
        · next hne => exact .inl ⟨hne, (Option.some.inj hs).symm⟩
        · next heq => exact .inr ⟨not_not.mp heq, (Option.some.inj hs).symm⟩
      · cases hs
  · next hlt => exact .inl ⟨hlt, (Option.some.inj hs).symm⟩

/-- A system call is made by a process that is in none. -/
theorem call_eq {f : Option (Machine ι δ)} (hs : s.call t f = some s') :
    t < s.next ∧ (s.procs t).pc = .idle ∧ f = some s' := by
  unfold call at hs
  split at hs
  · next h => exact ⟨h.1, h.2, hs⟩
  · cases hs

omit [DecidableEq ι] in
/-- `getArgFd` gives the pointer of a descriptor. -/
theorem getArgFd_eq {fd : Int32} {desc : Descriptor} (h : s.getArgFd t fd = some desc) :
    (s.procs t).openFiles[fd.toInt.toNat]? = some (some desc) := by
  unfold getArgFd at h
  split at h
  · cases h
  · exact Option.join_eq_some_iff.mp h

end Machine

end Orfos.Files
