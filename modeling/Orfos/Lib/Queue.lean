import Orfos.Base.Chain

/-!
# The pointer queue

`kernel/lib/queue.h`, the container behind `lib::Queue`: a singly linked list with a pointer to its
first and to its last node. The container declares a destructor and no copy of its own, so that a
copy takes over the two pointers and shares the nodes.
-/

namespace Orfos.Lib

open Orfos.Base

/-- The nodes of all containers, and the addresses that were passed to `delete`. The kernel's
`operator delete` leaves the memory as it is. -/
structure Nodes (T : Type) where
  heap : Heap T
  deleted : List Nat

/-- `delete node`. -/
def Nodes.delete {T : Type} (m : Nodes T) (node : Nat) : Nodes T :=
  { m with deleted := node :: m.deleted }

@[simp] theorem Nodes.heap_delete {T : Type} (m : Nodes T) (node : Nat) :
    (m.delete node).heap = m.heap := rfl

@[simp] theorem Nodes.deleted_delete {T : Type} (m : Nodes T) (node : Nat) :
    (m.delete node).deleted = node :: m.deleted := rfl

/-- Only nodes that were made have been deleted. -/
def Nodes.Made {T : Type} (m : Nodes T) : Prop := ∀ a ∈ m.deleted, a < m.heap.limit

theorem Nodes.Made.delete {T : Type} {m : Nodes T} (hm : m.Made) {node : Nat} {c : Cell T}
    (hc : m.heap.cell node = some c) : (m.delete node).Made := by
  intro a ha
  rcases List.mem_cons.mp ha with rfl | ha
  · exact Heap.lt_limit_of_cell hc
  · exact hm a ha

theorem Nodes.Made.limit_le {T : Type} {m : Nodes T} (hm : m.Made) {heap : Heap T}
    (hl : m.heap.limit ≤ heap.limit) : ({ m with heap } : Nodes T).Made :=
  fun a ha ↦ Nat.lt_of_lt_of_le (hm a ha) hl

/-- `QueueContainer`; null is `none`. -/
structure QueueContainer where
  head : Option Nat
  tail : Option Nat

namespace QueueContainer

variable {T : Type}

/-- The constructor. -/
def new : QueueContainer := ⟨none, none⟩

/-- `empty`. -/
def empty (q : QueueContainer) : Bool := q.head.isNone && q.tail.isNone

/-- `front`; its assertion and the pointer it follows can fail. -/
def front (q : QueueContainer) (m : Nodes T) : Option T :=
  if q.empty then none
  else do
    let c ← m.heap.cell (← q.head)
    some c.payload

/-- `push_back`. -/
def push_back (q : QueueContainer) (m : Nodes T) (value : T) :
    Option (QueueContainer × Nodes T) :=
  let node := m.heap.limit
  let heap := m.heap.alloc value none
  match q.head with
  | none => some (⟨some node, some node⟩, { m with heap })
  | some head => do
    let tail ← q.tail
    let _ ← heap.cell tail
    some (⟨some head, some node⟩, { m with heap := heap.setNext tail (some node) })

/-- `pop_front`. -/
def pop_front (q : QueueContainer) (m : Nodes T) : Option (QueueContainer × Nodes T) :=
  if q.empty then none
  else do
    let node ← q.head
    let c ← m.heap.cell node
    some (⟨c.next, if c.next = none then none else q.tail⟩, m.delete node)

/-- One round of the destructor's loop: the next node is read before this one is deleted. -/
def destroyOne (elem : Nat) (m : Nodes T) : Option (Option Nat × Nodes T) := do
  let c ← m.heap.cell elem
  some (c.next, m.delete elem)

/-- The container has these nodes: they are linked from `head` to a null link, and `tail` points to
the last of them. -/
structure Holds (h : Heap T) (q : QueueContainer) (xs : List (Nat × T)) : Prop where
  chain : Chain h q.head xs
  tail : q.tail = xs.getLast?.map Prod.fst

namespace Holds

variable {h : Heap T} {q : QueueContainer} {xs : List (Nat × T)} {m : Nodes T}

protected theorem new (h : Heap T) : Holds h .new [] := ⟨.nil, rfl⟩

theorem head_eq_none_iff (hq : Holds h q xs) : q.head = none ↔ xs = [] := by
  rw [hq.chain.head_eq]
  cases xs <;> simp

theorem tail_eq_none_iff (hq : Holds h q xs) : q.tail = none ↔ xs = [] := by
  rw [hq.tail]
  cases xs <;> simp [List.getLast?_cons]

theorem empty_iff (hq : Holds h q xs) : q.empty ↔ xs = [] := by
  simp [empty, hq.head_eq_none_iff, hq.tail_eq_none_iff]

/-- A change of the heap that keeps the nodes keeps the container. -/
theorem frame {h' : Heap T} (hq : Holds h q xs)
    (hk : ∀ a ∈ xs.map Prod.fst, h'.cell a = h.cell a) : Holds h' q xs :=
  ⟨hq.chain.frame hk, hq.tail⟩

theorem front_eq (hq : Holds m.heap q xs) : q.front m = xs.head?.map Prod.snd := by
  cases hx : xs with
  | nil => simp [front, hq.empty_iff.mpr hx]
  | cons p xs =>
    obtain ⟨a, x⟩ := p
    subst hx
    have hne : q.empty = false := by simp [← Bool.not_eq_true, hq.empty_iff]
    have hhead : q.head = some a := hq.chain.head_eq
    obtain ⟨next, hcell⟩ := hq.chain.cell_of_mem (List.mem_cons_self (a := (a, x)))
    simp [front, hne, hhead, hcell]

/-- `pop_front` deletes the first node and leaves the others. -/
theorem pop_front_eq {a : Nat} {x : T} (hq : Holds m.heap q ((a, x) :: xs)) :
    ∃ q', q.pop_front m = some (q', m.delete a) ∧ Holds m.heap q' xs := by
  have hne : q.empty = false := by simp [← Bool.not_eq_true, hq.empty_iff]
  have hhead : q.head = some a := hq.chain.head_eq
  obtain ⟨hchain, htail⟩ := hq
  rw [hhead] at hchain
  cases hchain with
  | @cons _ _ next _ cell rest =>
    refine ⟨⟨next, if next = none then none else q.tail⟩, ?_, rest, ?_⟩
    · simp [pop_front, hne, hhead, cell]
    · rw [rest.head_eq, htail]
      cases xs with
      | nil => rfl
      | cons p xs => simp [List.getLast?_cons_cons]

/-- `push_back` puts a new node behind the last one. -/
theorem push_back_eq (hq : Holds m.heap q xs) (value : T) :
    ∃ q' h', q.push_back m value = some (q', { m with heap := h' }) ∧
      h'.limit = m.heap.limit + 1 ∧
      Holds h' q' (xs ++ [(m.heap.limit, value)]) ∧
      ∀ n ys, Chain m.heap n ys → (xs.map Prod.fst).Disjoint (ys.map Prod.fst) →
        Chain h' n ys := by
  rcases List.eq_nil_or_concat xs with rfl | ⟨us, ⟨t, y⟩, rfl⟩
  · have hhead : q.head = none := hq.head_eq_none_iff.mpr rfl
    refine ⟨⟨some m.heap.limit, some m.heap.limit⟩, m.heap.alloc value none, ?_, rfl,
      ⟨.cons (by simp) .nil, rfl⟩, ?_⟩
    · simp [push_back, hhead]
    · intro n ys hy _
      refine hy.frame fun a ha ↦ ?_
      simp [hy.ne_limit ha]
  · rw [List.concat_eq_append] at hq ⊢
    have htail : q.tail = some t := by simp [hq.tail]
    have hmem : (t, y) ∈ us ++ [(t, y)] := by simp
    obtain ⟨next, hcell⟩ := hq.chain.cell_of_mem hmem
    have hlt : t ≠ m.heap.limit := hq.chain.ne_limit (List.mem_map.mpr ⟨_, hmem, rfl⟩)
    obtain ⟨head, hhead⟩ : ∃ head, q.head = some head := by
      rw [← Option.ne_none_iff_exists', ne_eq, hq.head_eq_none_iff]
      simp
    refine ⟨⟨some head, some m.heap.limit⟩, (m.heap.alloc value none).setNext t (some m.heap.limit),
      ?_, rfl, ⟨?_, by simp⟩, ?_⟩
    · simp [push_back, hhead, htail, hlt, hcell]
    · have hc := hq.chain.append_alloc value
      rw [hhead] at hc
      simpa using hc
    · intro n ys hy hdis
      refine hy.frame fun a ha ↦ ?_
      have hta : a ≠ t := by
        rintro rfl
        exact hdis (by simp) ha
      simp [hta, hy.ne_limit ha]

end Holds

end QueueContainer

end Orfos.Lib
