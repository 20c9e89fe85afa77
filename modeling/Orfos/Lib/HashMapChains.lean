import Orfos.Lib.HashMapRefinement

/-!
# Chains of the hash map

The pointer structure behind the calls of `kernel/lib/hash_map.h`. `operator[]` links a new node to
the last node that its search has passed and drops the nodes in between; what stays linked is
nevertheless well formed, on any hash and after any calls. A map that drops nodes can lose keys
(`Lib.HashMapRefinement`), but its loops end and `erase` unlinks what it should.
-/

namespace Orfos.Lib.HashMap

open Orfos.Base

variable {K V : Type} {m : HashMap K V} {t : Table K V}

/-- Every bucket pointer starts a finite chain without a cycle. The keys of the chain are those that
the masked hash sends to the bucket, none of them twice, and no node is in two buckets. -/
structure WellLinked (m : HashMap K V) : Prop where
  bounds : ∀ key, m.index key < m.nodes.size
  finite : ∀ (i : Nat) head, m.nodes[i]? = some head → ∃ xs, Chain m.heap head xs
  acyclic : ∀ (i : Nat) head xs, m.nodes[i]? = some head → Chain m.heap head xs →
    (xs.map Prod.fst).Nodup
  placed : ∀ (i : Nat) head xs, m.nodes[i]? = some head → Chain m.heap head xs →
    ∀ p ∈ xs, m.index p.2.1 = i
  distinct : ∀ (i : Nat) head xs, m.nodes[i]? = some head → Chain m.heap head xs →
    (xs.map fun p ↦ p.2.1).Nodup
  separate : ∀ (i j : Nat) head head' xs ys, i ≠ j →
    m.nodes[i]? = some head → Chain m.heap head xs →
    m.nodes[j]? = some head' → Chain m.heap head' ys →
    (xs.map Prod.fst).Disjoint (ys.map Prod.fst)

/-- The pairs of a chain are those of its bucket in the table. -/
theorem Rep.pairs (hr : Rep m t) {i : Nat} {head : Option Nat} {xs : List (Nat × (K × V))}
    (hi : m.nodes[i]? = some head) (hx : Chain m.heap head xs) :
    xs.map Prod.snd = t.chain i := by
  obtain ⟨ys, hy, he⟩ := hr.chains i head hi
  rw [hx.unique hy, he]

/-- A map that represents a table is well linked. -/
theorem Rep.wellLinked (hr : Rep m t) : m.WellLinked where
  bounds := hr.bounds
  finite i head hi := by
    obtain ⟨xs, hx, -⟩ := hr.chains i head hi
    exact ⟨xs, hx⟩
  acyclic i head xs _ hx := hx.nodup
  placed i head xs hi hx p hp := by
    rw [← hr.bucket]
    exact t.placed i p.2 (hr.pairs hi hx ▸ List.mem_map.mpr ⟨p, hp, rfl⟩)
  distinct i head xs hi hx := by
    have hd := t.distinct i
    rwa [← hr.pairs hi hx, List.map_map] at hd
  separate i j head head' xs ys hij hi hx hj hy := by
    intro a ha
    obtain ⟨⟨b, kv⟩, hb, rfl⟩ := List.mem_map.mp ha
    obtain ⟨next, hcell⟩ := hx.cell_of_mem hb
    -- The node has a key, and the key selects one bucket.
    have hmem : kv ∈ t.chain i := hr.pairs hi hx ▸ List.mem_map.mpr ⟨_, hb, rfl⟩
    refine not_shared hcell ?_ hy (hr.pairs hj hy)
    rw [t.placed i kv hmem]
    exact hij.symm

variable [DecidableEq K]

/-- The search loop ends for every key. -/
theorem Rep.find_isSome (hr : Rep m t) (key : K) : (m.find key).isSome := by
  cases h : t.lookup key with
  | none =>
    obtain ⟨_, _, _, _, _, hf⟩ := hr.find_absent h
    rw [hf]
    rfl
  | some v =>
    obtain ⟨_, _, _, _, _, _, _, hf⟩ := hr.find_present h
    rw [hf]
    rfl

variable [Inhabited V]

/-- After any calls the chains are well linked; every search loop ends, and `erase` unlinks exactly
the node of its key. -/
theorem chains_wellLinked (makeHash : K → UInt64) (capacity : Nat) (hc : capacity < 31)
    (ops : List (Op K V)) :
    ∃ m, (new makeHash capacity : HashMap K V).run ops = some m ∧ m.WellLinked ∧
      ∀ key, (m.find key).isSome ∧ ∃ m', m.erase key = some m' ∧ Unlinked m m' key := by
  obtain ⟨m, hm, hr⟩ := (rep_new makeHash hc).run_eq ops
  exact ⟨m, hm, hr.wellLinked, fun key ↦ ⟨hr.find_isSome key, hr.erase_unlinks key⟩⟩

/-- Three blocks that are equal modulo 256: the second one is dropped, and what is left is well
linked. -/
theorem chains_wellLinked_colliding :
    ∃ m, (new (fun k : UInt64 ↦ k) 8 : HashMap UInt64 Nat).run
        [.subscript 46 (fun _ ↦ 1), .subscript 302 (fun _ ↦ 2), .subscript 558 (fun _ ↦ 3),
          .erase 46] = some m ∧
      m.WellLinked ∧
      ∀ key, (m.find key).isSome ∧ ∃ m', m.erase key = some m' ∧ Unlinked m m' key :=
  chains_wellLinked _ 8 (by decide) _

end Orfos.Lib.HashMap
