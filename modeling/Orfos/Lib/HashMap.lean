import Mathlib.Algebra.Ring.Nat
import Orfos.Base.Chain

/-!
# The kernel hash map

Model of `kernel/lib/hash_map.h`: `2^capacity` buckets, each a pointer to a chain of
heap nodes. A node is a heap cell whose payload is the `std::pair<Key, Value>`; the
reference that `operator[]` returns is the address of the node. `none` stands for a
lookup loop that does not end or follows a dangling pointer.

`std::hash<Key>` is a field of the map, as in the source. Iterators, `size` and
`empty` are in `Lib.HashMapIterator`.
-/

namespace Orfos.Lib

open Orfos.Base

/-- `HashMap`: the hash function, the bucket count in bits, the mask and the bucket heads. -/
structure HashMap (K V : Type) where
  makeHash : K → UInt64
  capacity : Nat
  capacityMask : UInt64
  nodes : Array (Option Nat)
  heap : Heap (K × V)

namespace HashMap

variable {K V : Type}

/-- `1 << i` computed in a 32-bit `int` and converted to `size_t`. -/
def shiftedOne (i : Nat) : UInt64 := UInt64.ofBitVec ((1#32 <<< i).signExtend 64)

/-- The constructor's loop `capacityMask |= 1 << i` for `i < capacity`. -/
def maskOf : Nat → UInt64
  | 0 => 0
  | i + 1 => maskOf i ||| shiftedOne i

/-- The constructor `HashMap(capacity)`: every bucket is empty. -/
def new (makeHash : K → UInt64) (capacity : Nat) : HashMap K V where
  makeHash := makeHash
  capacity := capacity
  capacityMask := maskOf capacity
  nodes := Array.replicate (2 ^ capacity) none
  heap := Heap.empty

/-- `hash & capacityMask`. -/
def index (m : HashMap K V) (key : K) : Nat := (m.makeHash key &&& m.capacityMask).toNat

variable [DecidableEq K]

/-- The search loop shared by `operator[]`, `erase` and `contains`: the node before the
stop and the node it stopped at. More steps than nodes ever allocated cannot terminate. -/
def find (m : HashMap K V) (key : K) : Option (Option Nat × Option Nat) :=
  match m.nodes[m.index key]? with
  | none => none
  | some head => scan m.heap (fun kv ↦ decide (kv.1 = key)) m.heap.limit none head

/-- `operator[]`: the node of `key`, allocated with a default value when the search
found none. The new node links to the last node passed, as the source has it. -/
def subscript [Inhabited V] (m : HashMap K V) (key : K) : Option (Nat × HashMap K V) :=
  match m.find key with
  | none => none
  | some (_, some node) => some (node, m)
  | some (prev, none) =>
    some (m.heap.limit,
      { m with
        heap := m.heap.alloc (key, default) prev
        nodes := m.nodes.setIfInBounds (m.index key) (some m.heap.limit) })

/-- The value that a reference returned by `operator[]` denotes. -/
def value (m : HashMap K V) (node : Nat) : Option V := (m.heap.cell node).map (·.payload.2)

/-- A store through a reference returned by `operator[]`. -/
def store (m : HashMap K V) (node : Nat) (f : V → V) : HashMap K V :=
  { m with heap := m.heap.setPayload node (fun kv ↦ (kv.1, f kv.2)) }

/-- `erase`. -/
def erase (m : HashMap K V) (key : K) : Option (HashMap K V) :=
  match m.find key with
  | none => none
  | some (_, none) => some m
  | some (prev, some node) =>
    match m.heap.cell node with
    | none => none
    | some c =>
      match prev with
      | some p => some { m with heap := (m.heap.setNext p c.next).free node }
      | none =>
        some { m with
          heap := m.heap.free node
          nodes := m.nodes.setIfInBounds (m.index key) c.next }

/-- `contains`. -/
def contains (m : HashMap K V) (key : K) : Option Bool :=
  (m.find key).map (·.2.isSome)

/-- One call on a map: `operator[]` followed by a store through its reference (`id` for a
plain read), `erase` or `contains`. -/
inductive Op (K V : Type) where
  | subscript (key : K) (f : V → V)
  | erase (key : K)
  | contains (key : K)

variable [Inhabited V]

/-- The map after one call. -/
def step (m : HashMap K V) : Op K V → Option (HashMap K V)
  | .subscript key f => (m.subscript key).map fun r ↦ r.2.store r.1 f
  | .erase key => m.erase key
  | .contains key => (m.contains key).map fun _ ↦ m

/-- The map after a sequence of calls. -/
def run (m : HashMap K V) : List (Op K V) → Option (HashMap K V)
  | [] => some m
  | op :: ops => (m.step op).bind fun m' ↦ m'.run ops

end HashMap
end Orfos.Lib
