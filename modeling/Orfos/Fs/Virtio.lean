import Mathlib.Data.Fin.Basic
import Mathlib.Data.List.FinRange
import Mathlib.Logic.Function.Basic
import Orfos.Base.Guarded

/-!
# The disk driver

`kernel/fs/virtio.cpp` for any number of processes in `diskrw`, the interrupt handler and the
device. A step of a process is a part of `diskrw` that runs under `disk.mutex` and touches what
the device reads at most once; the handler tests the index of the used ring and takes an entry in
separate steps. A process that sleeps may be woken at any time. The device takes heads from the
avail ring in order, and reports the ones that it has taken in any order, with status 0.

The requests are numbered in the order in which they are published. The numbers, and what the
device and the handler have done with each request, are kept as a history beside the data.
-/

namespace Orfos.Fs.Virtio

/-- `NUM_DESCS` of `kernel/fs/virtio.h`. -/
abbrev NUM_DESCS : Nat := 8

/-- `VRING_DESC_F_NEXT`. -/
abbrev VRING_DESC_F_NEXT : UInt16 := 1

/-- `VRING_DESC_F_WRITE`. -/
abbrev VRING_DESC_F_WRITE : UInt16 := 2

/-- `VIRTIO_BLK_T_IN`. -/
abbrev VIRTIO_BLK_T_IN : UInt32 := 0

/-- `VIRTIO_BLK_T_OUT`. -/
abbrev VIRTIO_BLK_T_OUT : UInt32 := 1

/-- `BLOCK_SIZE` of `kernel/fs/block.h`. -/
abbrev BLOCK_SIZE : UInt64 := 1024

/-- What a descriptor points to: an entry of `disk.ops`, the data of a buffer, or the status of
an entry of `disk.info`. -/
inductive Address (β : Type) where
  | null
  | ops (i : Fin NUM_DESCS)
  | data (buf : β)
  | status (i : Fin NUM_DESCS)
  deriving DecidableEq

/-- `Descriptor`. -/
structure Descriptor (β : Type) where
  address : Address β
  length : UInt32
  flags : UInt16
  next : UInt16
  deriving DecidableEq

/-- `Avail`. -/
structure Avail where
  index : UInt16
  ring : Fin NUM_DESCS → UInt16

/-- `Used`, with the `id` of each element. -/
structure Used where
  index : UInt16
  ring : Fin NUM_DESCS → UInt32

/-- `BlockRequest`. -/
structure BlockRequest where
  type : UInt32
  reserved : UInt32
  sector : UInt64

/-- An element of `info`. -/
structure Info (β : Type) where
  buffer : Option β
  status : UInt8

/-- `Disk`, over pointers `β` to buffers. -/
structure Disk (β : Type) where
  descriptor : Fin NUM_DESCS → Descriptor β
  avail : Avail
  used : Used
  free : Fin NUM_DESCS → Bool
  usedIndex : UInt16
  info : Fin NUM_DESCS → Info β
  ops : Fin NUM_DESCS → BlockRequest

/-- What stops the kernel: the assertions of `freeDescriptor`, an index that `diskrw` could not
allocate, a chain without an end, and in `diskInterrupt` an entry of the used ring out of range,
the assertion on the status and a null pointer. -/
inductive Fault where
  | range
  | notFree
  | index
  | endless
  | id
  | status
  | null
  deriving DecidableEq

variable {τ β : Type} [DecidableEq τ] [DecidableEq β]

/-- The arguments of `diskrw` other than the buffer: the direction, and the `sector` that it
computes from the block of the buffer. -/
structure Transfer where
  write : Bool
  sector : UInt64
  deriving DecidableEq

/-- `index` of `diskrw`. -/
structure Index where
  head : Fin NUM_DESCS
  data : Fin NUM_DESCS
  status : Fin NUM_DESCS
  deriving DecidableEq

/-- The three descriptors. -/
def Index.toList (x : Index) : List (Fin NUM_DESCS) := [x.head, x.data, x.status]

/-- The slot of a ring that an index stands for. -/
def slot (index : UInt16) : Fin NUM_DESCS := ⟨index.toNat % NUM_DESCS, Nat.mod_lt _ (by decide)⟩

namespace Disk

/-- `allocateDescriptor`; `none` is -1. -/
def allocateDescriptor (d : Disk β) : Option (Fin NUM_DESCS) × Disk β :=
  match (List.finRange NUM_DESCS).find? d.free with
  | some i => (some i, { d with free := Function.update d.free i false })
  | none => (none, d)

/-- `freeDescriptor`. -/
def freeDescriptor (i : Nat) (d : Disk β) : Except Fault (Disk β) :=
  if h : i < NUM_DESCS then
    if d.free ⟨i, h⟩ then .error .notFree
    else
      .ok { d with
        descriptor := Function.update d.descriptor ⟨i, h⟩ ⟨.null, 0, 0, 0⟩
        free := Function.update d.free ⟨i, h⟩ true }
  else .error .range

/-- The loop of `freeChain`. A round frees a descriptor that was not free, so there are no more
rounds than descriptors. -/
def freeChainFrom : Nat → Nat → Disk β → Except Fault (Disk β)
  | 0, _, _ => .error .endless
  | fuel + 1, i, d =>
    if h : i < NUM_DESCS then
      let flag := (d.descriptor ⟨i, h⟩).flags
      let next := (d.descriptor ⟨i, h⟩).next
      (freeDescriptor i d).bind fun d ↦
        if flag &&& VRING_DESC_F_NEXT ≠ 0 then freeChainFrom fuel next.toNat d else .ok d
    else .error .range

/-- `freeChain`. -/
def freeChain (i : Nat) (d : Disk β) : Except Fault (Disk β) := freeChainFrom (NUM_DESCS + 1) i d

/-- The loop of `diskrw` that frees the descriptors allocated so far. -/
def freeAll : List (Fin NUM_DESCS) → Disk β → Except Fault (Disk β)
  | [], d => .ok d
  | i :: index, d => (freeDescriptor i d).bind (freeAll index)

/-- A round of the allocation loop of `diskrw` from the `index` allocated so far: the value of
`ok` and `index`. A failure sets `ok` to false in the loop that frees, so not if there is nothing
to free. -/
def allocateFrom : Nat → List (Fin NUM_DESCS) → Disk β →
    Except Fault (Bool × List (Fin NUM_DESCS) × Disk β)
  | 0, index, d => .ok (true, index, d)
  | n + 1, index, d =>
    match allocateDescriptor d with
    | (some i, d) => allocateFrom n (index ++ [i]) d
    | (none, d) => (freeAll index d).map fun d ↦ (index.isEmpty, index, d)

/-- What `diskrw` writes before it changes the avail ring. -/
def prepare (buf : β) (op : Transfer) (x : Index) (d : Disk β) : Disk β :=
  let descriptor := Function.update d.descriptor x.head
    ⟨.ops x.head, 16, VRING_DESC_F_NEXT, x.data.val.toUInt16⟩
  let descriptor := Function.update descriptor x.data
    ⟨.data buf, BLOCK_SIZE.toUInt32,
      (if op.write then 0 else VRING_DESC_F_WRITE) ||| VRING_DESC_F_NEXT, x.status.val.toUInt16⟩
  let descriptor := Function.update descriptor x.status
    ⟨.status x.head, 1, VRING_DESC_F_WRITE, 0⟩
  { d with
    descriptor := descriptor
    ops := Function.update d.ops x.head
      ⟨if op.write then VIRTIO_BLK_T_OUT else VIRTIO_BLK_T_IN, 0, op.sector⟩
    info := Function.update d.info x.head ⟨some buf, 0xff⟩ }

/-- `disk.avail->ring[disk.avail->index % NUM_DESCS] = index[0]`. -/
def storeHead (x : Index) (d : Disk β) : Disk β :=
  { d with avail := { d.avail with
      ring := Function.update d.avail.ring (slot d.avail.index) x.head.val.toUInt16 } }

/-- `++disk.avail->index`. -/
def publish (d : Disk β) : Disk β := { d with avail := { d.avail with index := d.avail.index + 1 } }

/-- The end of `diskrw`. -/
def finish (x : Index) (d : Disk β) : Except Fault (Disk β) :=
  freeChain x.head
    { d with info := Function.update d.info x.head { d.info x.head with buffer := none } }

/-- What the device does with a request that it has taken: it follows the chain to the status and
enters the head in the used ring. -/
def report (head : UInt16) (d : Disk β) : Disk β :=
  let data := (d.descriptor (slot head)).next
  let status := (d.descriptor (slot data)).next
  let info := match (d.descriptor (slot status)).address with
    | .status i => Function.update d.info i { d.info i with status := 0 }
    | _ => d.info
  { d with
    info := info
    used :=
      { index := d.used.index + 1
        ring := Function.update d.used.ring (slot d.used.index) head.toUInt32 } }

end Disk

/-- Where a process is in `diskrw`. `entering` is also where it sleeps for descriptors, and
`waiting` where it sleeps for the device; `r` is the number of its request. -/
inductive Pc (β : Type) where
  | outside
  | entering (buf : β) (op : Transfer)
  | allocating (buf : β) (op : Transfer)
  | allocated (buf : β) (op : Transfer) (x : Index)
  | prepared (buf : β) (op : Transfer) (x : Index)
  | stored (buf : β) (op : Transfer) (x : Index)
  | waiting (buf : β) (op : Transfer) (x : Index) (r : Nat)
  | testing (buf : β) (op : Transfer) (x : Index) (r : Nat)
  deriving DecidableEq

/-- Who holds `disk.mutex`. -/
inductive Holder (τ : Type) where
  | process (t : τ)
  | interrupt
  deriving DecidableEq

/-- A request as it was published. -/
structure Request (τ β : Type) where
  process : τ
  buf : β
  head : Fin NUM_DESCS

/-- The requests in the order of their numbers, how many of them the device has taken, which of
these it has still to report and which it has reported, in order, and how many reports the
handler has processed. -/
structure History (τ β : Type) where
  requests : List (Request τ β)
  taken : Nat
  inside : List Nat
  reports : List Nat
  processed : Nat

/-- The driver, the processes and the device. `flag` is the field `disk` of the
buffers, `body` says whether the handler has found an entry in the used ring,
`deviceIndex` is the index up to which the device has taken heads, and `heads` are those that it
has not reported. -/
structure Machine (τ β : Type) where
  disk : Disk β
  flag : β → Bool
  lock : Option (Holder τ)
  pc : τ → Pc β
  body : Bool
  deviceIndex : UInt16
  heads : List UInt16
  fault : Option Fault
  history : History τ β

/-- What happens next. -/
inductive Event (τ β : Type) where
  | call (t : τ) (buf : β) (block : UInt32) (write : Bool)
  | go (t : τ)
  | interrupt
  | handle
  | take
  | report (k : Nat)

namespace Machine

/-- Move a process on. -/
def goto (s : Machine τ β) (t : τ) (l : Pc β) : Machine τ β :=
  { s with pc := Function.update s.pc t l }

/-- `disk.mutex.lock`, once the mutex is free. -/
def acquire (s : Machine τ β) (t : τ) (l : Pc β) : Option (Machine τ β) :=
  if s.lock = none then some ({ s with lock := some (.process t) }.goto t l) else none

/-- Give the mutex back, in `sleep` or at the end. -/
def release (s : Machine τ β) (t : τ) (l : Pc β) : Machine τ β :=
  { s with lock := none }.goto t l

/-- The kernel stops. -/
def stop (s : Machine τ β) (f : Fault) : Machine τ β := { s with fault := some f }

/-- The allocation loop of `diskrw`. -/
def allocate (s : Machine τ β) (t : τ) (buf : β) (op : Transfer) : Machine τ β :=
  match s.disk.allocateFrom 3 [] with
  | .error f => s.stop f
  | .ok (false, _, d) => { s with disk := d }.release t (.entering buf op)
  | .ok (true, [i, j, k], d) => { s with disk := d }.goto t (.allocated buf op ⟨i, j, k⟩)
  | .ok (true, _, d) => { s with disk := d }.stop .index

/-- The next step of a process. -/
def go (s : Machine τ β) (t : τ) : Option (Machine τ β) :=
  match s.pc t with
  | .outside => none
  | .entering buf op => s.acquire t (.allocating buf op)
  | .allocating buf op => some (s.allocate t buf op)
  | .allocated buf op x =>
    some ({ s with
      disk := s.disk.prepare buf op x
      flag := Function.update s.flag buf true }.goto t (.prepared buf op x))
  | .prepared buf op x =>
    some ({ s with disk := s.disk.storeHead x }.goto t (.stored buf op x))
  | .stored buf op x =>
    some ({ s with
      disk := s.disk.publish
      history := { s.history with
        requests := s.history.requests ++ [Request.mk t buf x.head] } }.goto t
          (.testing buf op x s.history.requests.length))
  | .waiting buf op x r => s.acquire t (.testing buf op x r)
  | .testing buf op x r =>
    if s.flag buf then some (s.release t (.waiting buf op x r))
    else
      match s.disk.finish x with
      | .ok d => some ({ s with disk := d }.release t .outside)
      | .error f => some (s.stop f)

/-- An entry of the used ring in `diskInterrupt`. -/
def process (s : Machine τ β) : Machine τ β :=
  let id := s.disk.used.ring (slot s.disk.usedIndex)
  if h : id.toNat < NUM_DESCS then
    if (s.disk.info ⟨id.toNat, h⟩).status ≠ 0 then s.stop .status
    else
      match (s.disk.info ⟨id.toNat, h⟩).buffer with
      | none => s.stop .null
      | some buf =>
        { s with
          disk := { s.disk with usedIndex := s.disk.usedIndex + 1 }
          flag := Function.update s.flag buf false
          body := false
          history := { s.history with processed := s.history.processed + 1 } }
  else s.stop .id

/-- The next step of `diskInterrupt`. -/
def handle (s : Machine τ β) : Option (Machine τ β) :=
  if s.lock = some .interrupt then
    if s.body then some s.process
    else if s.disk.usedIndex ≠ s.disk.used.index then some { s with body := true }
    else some { s with lock := none }
  else none

/-- The device takes the next head of the avail ring. -/
def take (s : Machine τ β) : Option (Machine τ β) :=
  if s.deviceIndex ≠ s.disk.avail.index then
    some { s with
      deviceIndex := s.deviceIndex + 1
      heads := s.heads ++ [s.disk.avail.ring (slot s.deviceIndex)]
      history := { s.history with
        taken := s.history.taken + 1
        inside := s.history.inside ++ [s.history.taken] } }
  else none

/-- The device reports one of the heads that it has taken. -/
def report (s : Machine τ β) (k : Nat) : Option (Machine τ β) :=
  s.heads[k]?.map fun head ↦
    { s with
      disk := s.disk.report head
      heads := s.heads.eraseIdx k
      history := { s.history with
        inside := s.history.inside.eraseIdx k
        reports := s.history.reports ++ s.history.inside[k]?.toList } }

/-- One step. Nothing happens after a fault. -/
def step (s : Machine τ β) (e : Event τ β) : Option (Machine τ β) :=
  if s.fault.isSome then none
  else
    match e with
    | .call t buf block write =>
      match s.pc t with
      | .outside =>
        some (s.goto t (.entering buf ⟨write, block.toUInt64 * (BLOCK_SIZE / 512)⟩))
      | _ => none
    | .go t => s.go t
    | .interrupt => if s.lock = none then some { s with lock := some .interrupt, body := false }
      else none
    | .handle => s.handle
    | .take => s.take
    | .report k => s.report k

end Machine

end Orfos.Fs.Virtio
