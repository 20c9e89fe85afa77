import Mathlib.Data.List.Nodup
import Mathlib.Data.List.Perm.Subperm

/-!
# Singly linked chains in a bump-allocated heap

A heap hands out addresses in increasing order and never hands one out twice.
A chain is the finite path that the `next` links trace from a head pointer; a null
pointer is `none`. The search loop over a chain takes fuel and reports `none` both when
the fuel runs out and when it follows a dangling pointer, so that a proof of `some`
is a proof that the pointer loop terminates.
-/

namespace Orfos.Base

universe u

/-- One heap cell: a payload and the address of the next cell. -/
structure Cell (α : Type u) where
  payload : α
  next : Option Nat

/-- Cells at addresses below `limit`; no address at or above it was ever handed out. -/
structure Heap (α : Type u) where
  limit : Nat
  cell : Nat → Option (Cell α)
  unused : ∀ a, limit ≤ a → cell a = none

namespace Heap

variable {α : Type u}

/-- A heap without cells. -/
def empty : Heap α := ⟨0, fun _ ↦ none, fun _ _ ↦ rfl⟩

/-- Put a new cell at the first unused address. -/
def alloc (h : Heap α) (x : α) (next : Option Nat) : Heap α where
  limit := h.limit + 1
  cell a := if a = h.limit then some ⟨x, next⟩ else h.cell a
  unused a ha := by
    rw [if_neg (by omega)]
    exact h.unused a (by omega)

/-- Give one cell back; its address is not handed out again. -/
def free (h : Heap α) (a : Nat) : Heap α where
  limit := h.limit
  cell b := if b = a then none else h.cell b
  unused b hb := by
    split
    · rfl
    · exact h.unused b hb

/-- Rewrite one cell in place; a dangling address is left dangling. -/
def modify (h : Heap α) (a : Nat) (f : Cell α → Cell α) : Heap α where
  limit := h.limit
  cell b := if b = a then (h.cell b).map f else h.cell b
  unused b hb := by
    rw [h.unused b hb]
    split <;> rfl

/-- Overwrite the `next` link of one cell. -/
def setNext (h : Heap α) (a : Nat) (next : Option Nat) : Heap α :=
  h.modify a (fun c ↦ { c with next := next })

/-- Rewrite the payload of one cell. -/
def setPayload (h : Heap α) (a : Nat) (f : α → α) : Heap α :=
  h.modify a (fun c ↦ { c with payload := f c.payload })

@[simp] theorem limit_alloc (h : Heap α) (x : α) (next : Option Nat) :
    (h.alloc x next).limit = h.limit + 1 := rfl

@[simp] theorem cell_alloc (h : Heap α) (x : α) (next : Option Nat) (a : Nat) :
    (h.alloc x next).cell a = if a = h.limit then some ⟨x, next⟩ else h.cell a := rfl

@[simp] theorem cell_free (h : Heap α) (a b : Nat) :
    (h.free a).cell b = if b = a then none else h.cell b := rfl

@[simp] theorem cell_setNext (h : Heap α) (a b : Nat) (next : Option Nat) :
    (h.setNext a next).cell b =
      if b = a then (h.cell b).map (fun c ↦ { c with next := next }) else h.cell b := rfl

@[simp] theorem cell_setPayload (h : Heap α) (a b : Nat) (f : α → α) :
    (h.setPayload a f).cell b =
      if b = a then (h.cell b).map (fun c ↦ { c with payload := f c.payload })
      else h.cell b := rfl

/-- An address with a cell was handed out. -/
theorem lt_limit_of_cell {h : Heap α} {a : Nat} {c : Cell α} (hc : h.cell a = some c) :
    a < h.limit := by
  by_contra hn
  rw [h.unused a (by omega)] at hc
  cases hc

end Heap

/-- The cells met from a head pointer to the terminating null, with their addresses. -/
inductive Chain {α : Type u} (h : Heap α) : Option Nat → List (Nat × α) → Prop
  | nil : Chain h none []
  | cons {a : Nat} {x : α} {next : Option Nat} {xs : List (Nat × α)}
      (cell : h.cell a = some ⟨x, next⟩) (rest : Chain h next xs) :
      Chain h (some a) ((a, x) :: xs)

namespace Chain

variable {α : Type u} {h : Heap α}

/-- The head pointer is null exactly on the empty chain. -/
theorem head_eq {n : Option Nat} {xs : List (Nat × α)} (hc : Chain h n xs) :
    n = xs.head?.map Prod.fst := by
  cases hc <;> rfl

/-- A head pointer starts at most one chain. -/
theorem unique {n : Option Nat} {xs ys : List (Nat × α)} (hx : Chain h n xs)
    (hy : Chain h n ys) : xs = ys := by
  induction hx generalizing ys with
  | nil => cases hy; rfl
  | cons cell rest ih =>
    cases hy with
    | cons cell' rest' =>
      rw [cell] at cell'
      cases cell'
      rw [ih rest']

/-- Every chained address holds its payload. -/
theorem cell_of_mem {n : Option Nat} {xs : List (Nat × α)} (hc : Chain h n xs)
    {a : Nat} {x : α} (hm : (a, x) ∈ xs) : ∃ next, h.cell a = some ⟨x, next⟩ := by
  induction hc with
  | nil => cases hm
  | cons cell rest ih =>
    rcases List.mem_cons.mp hm with he | hm
    · cases he
      exact ⟨_, cell⟩
    · exact ih hm

/-- Every suffix of a chain is the chain of its own head. -/
theorem suffix {n : Option Nat} {xs ys : List (Nat × α)} {a : Nat} {x : α}
    (hc : Chain h n (xs ++ (a, x) :: ys)) : Chain h (some a) ((a, x) :: ys) := by
  induction xs generalizing n with
  | nil =>
    have hn := hc.head_eq
    simp only [List.nil_append, List.head?_cons, Option.map_some] at hn
    rw [hn] at hc
    exact hc
  | cons p xs ih =>
    cases hc with
    | cons _ rest => exact ih rest

/-- A terminating chain visits no address twice. -/
theorem nodup {n : Option Nat} {xs : List (Nat × α)} (hc : Chain h n xs) :
    (xs.map Prod.fst).Nodup := by
  induction hc with
  | nil => exact List.nodup_nil
  | @cons a x next xs cell rest ih =>
    refine List.nodup_cons.mpr ⟨?_, ih⟩
    intro hm
    obtain ⟨⟨b, y⟩, hy, he⟩ := List.mem_map.mp hm
    change b = a at he
    subst b
    obtain ⟨ys, zs, rfl⟩ := List.append_of_mem hy
    -- The address would start both the whole chain and a proper suffix of it.
    have hs := (Chain.cons cell rest).unique rest.suffix
    have hl := congrArg List.length hs
    simp only [List.length_cons, List.length_append] at hl
    omega

/-- A chain is no longer than the number of addresses handed out. -/
theorem length_le {n : Option Nat} {xs : List (Nat × α)} (hc : Chain h n xs) :
    xs.length ≤ h.limit := by
  have hs : xs.map Prod.fst ⊆ List.range h.limit := by
    intro a ha
    obtain ⟨⟨b, y⟩, hy, rfl⟩ := List.mem_map.mp ha
    obtain ⟨next, hb⟩ := hc.cell_of_mem hy
    exact List.mem_range.mpr (Heap.lt_limit_of_cell hb)
  have hl := (List.subperm_of_subset hc.nodup hs).length_le
  simpa using hl

/-- A chain survives every change that keeps its own cells. -/
theorem frame {h' : Heap α} {n : Option Nat} {xs : List (Nat × α)} (hc : Chain h n xs)
    (hk : ∀ a ∈ xs.map Prod.fst, h'.cell a = h.cell a) : Chain h' n xs := by
  induction hc with
  | nil => exact .nil
  | cons cell rest ih =>
    refine .cons ?_ (ih fun a ha ↦ hk a (List.mem_cons_of_mem _ ha))
    rw [hk _ (by simp), cell]

/-- Every chained address is below the limit, so a fresh cell is on no chain. -/
theorem ne_limit {n : Option Nat} {xs : List (Nat × α)} (hc : Chain h n xs)
    {a : Nat} (ha : a ∈ xs.map Prod.fst) : a ≠ h.limit := by
  obtain ⟨⟨b, y⟩, hy, rfl⟩ := List.mem_map.mp ha
  obtain ⟨next, hb⟩ := hc.cell_of_mem hy
  exact Nat.ne_of_lt (Heap.lt_limit_of_cell hb)

/-- The last cell of a chain is a chain of its own. -/
theorem last {n : Option Nat} {xs : List (Nat × α)} (hc : Chain h n xs) :
    Chain h (xs.getLast?.map Prod.fst) xs.getLast?.toList := by
  rcases List.eq_nil_or_concat xs with rfl | ⟨ys, ⟨a, x⟩, rfl⟩
  · exact .nil
  · simp only [List.concat_eq_append, List.getLast?_append, List.getLast?_singleton,
      Option.some_or, Option.map_some, Option.toList_some]
    rw [List.concat_eq_append] at hc
    exact hc.suffix

/-- Redirecting the link in front of a cell unlinks exactly that cell. -/
theorem unlink {n : Option Nat} {xs ys : List (Nat × α)} {a b : Nat} {x y : α}
    {next : Option Nat} (hc : Chain h n (xs ++ (a, x) :: (b, y) :: ys))
    (hb : h.cell b = some ⟨y, next⟩) :
    Chain (h.setNext a next) n (xs ++ (a, x) :: ys) := by
  have hd := hc.nodup
  simp only [List.map_append, List.map_cons] at hd
  induction xs generalizing n with
  | nil =>
    cases hc with
    | cons cell rest =>
      cases rest with
      | cons cell' rest' =>
        rw [cell'] at hb
        cases hb
        refine .cons (by simp [cell]) (rest'.frame ?_)
        intro c hm
        have hne : c ≠ a := by
          rintro rfl
          simp [hm] at hd
        simp [hne]
  | cons p xs ih =>
    cases hc with
    | @cons c z nx _ cell rest =>
      have hne : c ≠ a := by
        rintro rfl
        simp at hd
      refine .cons (by simp [hne, cell]) (ih rest ?_)
      exact (List.nodup_cons.mp hd).2

/-- Freeing a cell off the chain keeps the chain. -/
theorem free_of_notMem {n : Option Nat} {xs : List (Nat × α)} {a : Nat} (hc : Chain h n xs)
    (ha : a ∉ xs.map Prod.fst) : Chain (h.free a) n xs := by
  refine hc.frame fun b hb ↦ ?_
  have hne : b ≠ a := fun he ↦ ha (he ▸ hb)
  simp [hne]

/-- Freeing the first cell leaves the chain of its successor. -/
theorem free_head {n : Option Nat} {ys : List (Nat × α)} {a : Nat} {x : α}
    {next : Option Nat} (hc : Chain h n ((a, x) :: ys)) (ha : h.cell a = some ⟨x, next⟩) :
    Chain (h.free a) next ys := by
  have hd := (List.nodup_cons.mp hc.nodup).1
  cases hc with
  | cons cell rest =>
    rw [cell] at ha
    cases ha
    exact rest.free_of_notMem hd

/-- Unlinking a cell behind its predecessor and freeing it removes it from the chain. -/
theorem unlink_free {n : Option Nat} {xs ys : List (Nat × α)} {a b : Nat} {x y : α}
    {next : Option Nat} (hc : Chain h n (xs ++ (a, x) :: (b, y) :: ys))
    (hb : h.cell b = some ⟨y, next⟩) :
    Chain ((h.setNext a next).free b) n (xs ++ (a, x) :: ys) := by
  refine (hc.unlink hb).free_of_notMem ?_
  have hd := hc.nodup
  simp only [List.map_append, List.map_cons, List.nodup_append, List.nodup_cons,
    List.mem_cons] at hd
  obtain ⟨_, ⟨hab, hby, _⟩, hxs⟩ := hd
  simp only [List.map_append, List.map_cons, List.mem_append, List.mem_cons]
  rintro (hm | rfl | hm)
  · exact hxs b hm b (by simp) rfl
  · exact hab (by simp)
  · exact hby hm

/-- Rewriting one payload rewrites it in the chain and keeps every link. -/
theorem setPayload {n : Option Nat} {xs ys : List (Nat × α)} {a : Nat} {x : α} (f : α → α)
    (hc : Chain h n (xs ++ (a, x) :: ys)) :
    Chain (h.setPayload a f) n (xs ++ (a, f x) :: ys) := by
  have hd := hc.nodup
  simp only [List.map_append, List.map_cons] at hd
  induction xs generalizing n with
  | nil =>
    cases hc with
    | cons cell rest =>
      refine .cons (by simp [cell]) (rest.frame ?_)
      intro c hm
      have hne : c ≠ a := by
        rintro rfl
        simp [hm] at hd
      simp [hne]
  | cons p xs ih =>
    cases hc with
    | @cons c z nx _ cell rest =>
      have hne : c ≠ a := by
        rintro rfl
        simp at hd
      refine .cons (by simp [hne, cell]) (ih rest ?_)
      exact (List.nodup_cons.mp hd).2

/-- A new cell linked behind the last one ends the chain. -/
theorem append_alloc {n : Option Nat} {xs : List (Nat × α)} {a : Nat} {x : α} (y : α)
    (hc : Chain h n (xs ++ [(a, x)])) :
    Chain ((h.alloc y none).setNext a (some h.limit)) n (xs ++ [(a, x), (h.limit, y)]) := by
  have hd := hc.nodup
  simp only [List.map_append, List.map_cons] at hd
  induction xs generalizing n with
  | nil =>
    have hne : a ≠ h.limit := hc.ne_limit (by simp)
    cases hc with
    | cons cell _ =>
      refine .cons ?_ (.cons ?_ .nil)
      · simp [hne, cell]
      · simp [hne.symm]
  | cons p xs ih =>
    have hne : p.1 ≠ h.limit := hc.ne_limit (by simp)
    cases hc with
    | @cons c z nx _ cell rest =>
      have hca : c ≠ a := by
        rintro rfl
        simp at hd
      refine .cons ?_ (ih rest (List.nodup_cons.mp hd).2)
      change c ≠ h.limit at hne
      simp [hca, hne, cell]

end Chain

/-- The addresses that the `next` links lead to from a pointer. -/
inductive Reachable {α : Type u} (h : Heap α) : Option Nat → Nat → Prop
  | here (a : Nat) : Reachable h (some a) a
  | next {a b : Nat} {c : Cell α} (cell : h.cell a = some c) (rest : Reachable h c.next b) :
      Reachable h (some a) b

/-- From the head of a chain the links lead to its own addresses and to no others. -/
theorem Chain.reachable_iff {α : Type u} {h : Heap α} {n : Option Nat} {xs : List (Nat × α)}
    (hc : Chain h n xs) {a : Nat} : Reachable h n a ↔ a ∈ xs.map Prod.fst := by
  induction hc with
  | nil =>
    constructor
    · intro hr
      cases hr
    · intro hm
      cases hm
  | @cons b x next xs cell rest ih =>
    constructor
    · intro hr
      cases hr with
      | here => simp
      | next cell' hr =>
        rw [cell] at cell'
        cases cell'
        exact List.mem_cons_of_mem _ (ih.mp hr)
    · intro hm
      rcases List.mem_cons.mp hm with rfl | hm
      · exact .here _
      · exact .next cell (ih.mpr hm)

/-- The pointer loop `while (node) { if (found) break; prev = node; node = node->next; }`:
the last cell passed and the cell it stopped at. -/
def scan {α : Type u} (h : Heap α) (found : α → Bool) :
    Nat → Option Nat → Option Nat → Option (Option Nat × Option Nat)
  | _, prev, none => some (prev, none)
  | 0, _, some _ => none
  | fuel + 1, prev, some a =>
    match h.cell a with
    | none => none
    | some c => if found c.payload then some (prev, some a) else scan h found fuel (some a) c.next

/-- On a chain where nothing is found the loop ends at null, just past the last cell. -/
theorem scan_absent {α : Type u} {h : Heap α} {found : α → Bool} {n : Option Nat}
    {xs : List (Nat × α)} (hc : Chain h n xs) (hf : ∀ p ∈ xs, found p.2 = false)
    (fuel : Nat) (prev : Option Nat) (hl : xs.length ≤ fuel) :
    scan h found fuel prev n = some ((xs.getLast?.map Prod.fst).or prev, none) := by
  induction hc generalizing fuel prev with
  | nil => cases fuel <;> simp [scan]
  | @cons a x next xs cell rest ih =>
    cases fuel with
    | zero => simp at hl
    | succ fuel =>
      have hx := hf (a, x) (by simp)
      simp only [scan, cell, hx, Bool.false_eq_true, if_false]
      rw [ih (fun p hp ↦ hf p (by simp [hp])) fuel (some a) (by simpa using hl)]
      cases xs with
      | nil => rfl
      | cons p xs =>
        obtain ⟨z, hz⟩ : ∃ z, (p :: xs).getLast? = some z := ⟨_, List.getLast?_cons⟩
        simp [List.getLast?_cons_cons, hz]

/-- On a chain with a match the loop stops at the first one, with its predecessor. -/
theorem scan_present {α : Type u} {h : Heap α} {found : α → Bool} {n : Option Nat}
    {xs ys : List (Nat × α)} {a : Nat} {x : α} (hc : Chain h n (xs ++ (a, x) :: ys))
    (hf : ∀ p ∈ xs, found p.2 = false) (hx : found x = true)
    (fuel : Nat) (prev : Option Nat) (hl : xs.length < fuel) :
    scan h found fuel prev n = some ((xs.getLast?.map Prod.fst).or prev, some a) := by
  induction xs generalizing n fuel prev with
  | nil =>
    cases hc with
    | cons cell rest =>
      cases fuel with
      | zero => simp at hl
      | succ fuel => simp [scan, cell, hx]
  | cons p xs ih =>
    cases hc with
    | @cons b y next _ cell rest =>
      cases fuel with
      | zero => simp at hl
      | succ fuel =>
        have hy := hf (b, y) (by simp)
        simp only [scan, cell, hy, Bool.false_eq_true, if_false]
        rw [ih rest (fun q hq ↦ hf q (by simp [hq])) fuel (some b) (by simpa using hl)]
        cases xs with
        | nil => rfl
        | cons q xs =>
          obtain ⟨z, hz⟩ : ∃ z, (q :: xs).getLast? = some z := ⟨_, List.getLast?_cons⟩
          simp [List.getLast?_cons_cons, hz]

end Orfos.Base
