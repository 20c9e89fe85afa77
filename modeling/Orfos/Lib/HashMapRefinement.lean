import Mathlib.Data.List.Induction
import Orfos.Lib.HashMap
import Orfos.Lib.HashTable

/-!
# Hash map refinement

Three levels of `kernel/lib/hash_map.h`: the pointer model, the bucket tables and finite
maps. Every run of the pointer model is a run of the bucket table, on any hash and any
collision pattern, so its loops terminate and its chains stay acyclic. The bucket table is
a finite map exactly as long as no key is inserted into a bucket that holds two others:
`operator[]` links the new node to the last node of the chain and drops the rest.
-/

namespace Orfos.Lib.HashMap

open Orfos.Base

variable {K V : Type}

/-! ### The bucket index -/

/-- The bucket that a map of the given capacity selects for a key. -/
def bucketOf (makeHash : K → UInt64) (capacity : Nat) (key : K) : Nat :=
  (makeHash key &&& maskOf capacity).toNat

/-- Below 31 bits the mask has exactly the `capacity` low bits set. -/
theorem toNat_maskOf {c : Nat} (h : c < 31) : (maskOf c).toNat = 2 ^ c - 1 := by
  revert c
  decide

/-- Below 31 bits every bucket index is inside the bucket array. -/
theorem bucketOf_lt (makeHash : K → UInt64) {c : Nat} (h : c < 31) (key : K) :
    bucketOf makeHash c key < 2 ^ c := by
  rw [bucketOf, UInt64.toNat_and, toNat_maskOf h, Nat.and_two_pow_sub_one_eq_mod]
  exact Nat.mod_lt _ (Nat.two_pow_pos c)

/-! ### Pointers represent a bucket table -/

/-- Every bucket pointer starts a chain whose pairs are the bucket of the table. -/
structure Rep (m : HashMap K V) (t : Table K V) : Prop where
  bucket : t.bucket = m.index
  bounds : ∀ key, m.index key < m.nodes.size
  chains : ∀ i head, m.nodes[i]? = some head →
    ∃ xs, Chain m.heap head xs ∧ xs.map Prod.snd = t.chain i

/-- A new map represents the empty table. -/
theorem rep_new (makeHash : K → UInt64) {c : Nat} (hc : c < 31) :
    Rep (new makeHash c : HashMap K V) (Table.empty (bucketOf makeHash c)) where
  bucket := rfl
  bounds key := by
    simp only [new, Array.size_replicate]
    exact bucketOf_lt makeHash hc key
  chains i head h := by
    have hn : head = none := by
      simp only [new, Array.getElem?_replicate] at h
      split at h
      · exact (Option.some.inj h).symm
      · cases h
    subst hn
    exact ⟨[], .nil, rfl⟩

variable {m : HashMap K V} {t : Table K V}

/-- The chain behind the bucket of a key. -/
theorem Rep.at_key (hr : Rep m t) (key : K) :
    ∃ head xs, m.nodes[m.index key]? = some head ∧ Chain m.heap head xs ∧
      xs.map Prod.snd = t.chain (t.bucket key) := by
  have hb := hr.bounds key
  obtain ⟨xs, hx, he⟩ := hr.chains _ _ (Array.getElem?_eq_getElem hb)
  exact ⟨_, xs, Array.getElem?_eq_getElem hb, hx, by rw [hr.bucket]; exact he⟩

/-- A node of one bucket is on the chain of no other bucket. -/
theorem not_shared {key : K} {v : V} {a i : Nat} {next head : Option Nat}
    {xs : List (Nat × (K × V))} (ha : m.heap.cell a = some ⟨(key, v), next⟩)
    (hi : i ≠ t.bucket key) (hx : Chain m.heap head xs) (he : xs.map Prod.snd = t.chain i) :
    a ∉ xs.map Prod.fst := by
  intro hm
  obtain ⟨⟨b, kv⟩, hb, rfl⟩ := List.mem_map.mp hm
  obtain ⟨next', hc⟩ := hx.cell_of_mem hb
  rw [ha] at hc
  cases hc
  have hmem : (key, v) ∈ t.chain i := he ▸ List.mem_map.mpr ⟨_, hb, rfl⟩
  exact hi (t.placed i _ hmem).symm

variable [DecidableEq K]

private theorem found_false {xs : List (Nat × (K × V))} {key : K}
    (h : ∀ kv ∈ xs.map Prod.snd, kv.1 ≠ key) :
    ∀ p ∈ xs, (fun kv : K × V ↦ decide (kv.1 = key)) p.2 = false := by
  intro p hp
  simpa using h p.2 (List.mem_map.mpr ⟨p, hp, rfl⟩)

/-- A missing key: the loop ends at null after the last node of the bucket. -/
theorem Rep.find_absent (hr : Rep m t) {key : K} (h : t.lookup key = none) :
    ∃ head xs, m.nodes[m.index key]? = some head ∧ Chain m.heap head xs ∧
      xs.map Prod.snd = t.chain (t.bucket key) ∧
      m.find key = some (xs.getLast?.map Prod.fst, none) := by
  obtain ⟨head, xs, hh, hx, he⟩ := hr.at_key key
  refine ⟨head, xs, hh, hx, he, ?_⟩
  have hf := found_false (he ▸ Table.lookup_eq_none_iff.mp h)
  rw [find, hh]
  simpa using scan_absent hx hf m.heap.limit none hx.length_le

/-- A present key: the loop stops at its node, with the node before it. -/
theorem Rep.find_present (hr : Rep m t) {key : K} {v : V} (h : t.lookup key = some v) :
    ∃ head pre a post, m.nodes[m.index key]? = some head ∧
      Chain m.heap head (pre ++ (a, (key, v)) :: post) ∧
      (pre ++ (a, (key, v)) :: post).map Prod.snd = t.chain (t.bucket key) ∧
      m.find key = some (pre.getLast?.map Prod.fst, some a) := by
  obtain ⟨head, xs, hh, hx, he⟩ := hr.at_key key
  have hm : (key, v) ∈ xs.map Prod.snd := he ▸ Table.lookup_eq_some_iff.mp h
  obtain ⟨⟨a, kv⟩, ha, hk⟩ := List.mem_map.mp hm
  change kv = (key, v) at hk
  subst hk
  obtain ⟨pre, post, rfl⟩ := List.append_of_mem ha
  refine ⟨head, pre, a, post, hh, hx, he, ?_⟩
  have hd := t.distinct (t.bucket key)
  rw [← he] at hd
  simp only [List.map_append, List.map_cons, List.map_map] at hd
  have hf : ∀ kv ∈ pre.map Prod.snd, kv.1 ≠ key := by
    intro kv hkv hk
    have hn := (List.nodup_append.mp hd).2.2 kv.1
    refine hn ?_ key (by simp) hk
    rw [← List.map_map]
    exact List.mem_map.mpr ⟨kv, hkv, rfl⟩
  have hl := hx.length_le
  simp only [List.length_append, List.length_cons] at hl
  rw [find, hh]
  simpa using scan_present hx (found_false hf) (by simp) m.heap.limit none (by omega)

/-- `contains` answers whether the table has the key. -/
theorem Rep.contains_eq (hr : Rep m t) (key : K) :
    m.contains key = some (t.lookup key).isSome := by
  cases h : t.lookup key with
  | none =>
    obtain ⟨_, _, _, _, _, hf⟩ := hr.find_absent h
    simp [contains, hf]
  | some v =>
    obtain ⟨_, _, _, _, _, _, _, hf⟩ := hr.find_present h
    simp [contains, hf]

omit [DecidableEq K] in
/-- The chain of another bucket survives any change away from its cells. -/
private theorem Rep.other (hr : Rep m t) {i : Nat} {head : Option Nat} {h' : Heap (K × V)}
    (hi : m.nodes[i]? = some head)
    (hk : ∀ xs, Chain m.heap head xs → xs.map Prod.snd = t.chain i →
      ∀ a ∈ xs.map Prod.fst, h'.cell a = m.heap.cell a) :
    ∃ xs, Chain h' head xs ∧ xs.map Prod.snd = t.chain i := by
  obtain ⟨xs, hx, he⟩ := hr.chains i head hi
  exact ⟨xs, hx.frame (hk xs hx he), he⟩

/-! ### Each call simulates the table -/

section Subscript

variable [Inhabited V]

private theorem Rep.subscript_absent (hr : Rep m t) {key : K} (h : t.lookup key = none) :
    ∃ m', m.subscript key = some (m.heap.limit, m') ∧ Rep m' (t.touch key) ∧
      (∃ next, m'.heap.cell m.heap.limit = some ⟨(key, default), next⟩) ∧
      ∃ prev, m'.find key = some (prev, some m.heap.limit) := by
  obtain ⟨head, xs, hh, hx, he, hf⟩ := hr.find_absent h
  refine ⟨_, by rw [subscript, hf], ⟨?_, ?_, ?_⟩, ?_, none, ?_⟩
  · rw [Table.bucket_touch]
    exact hr.bucket
  · intro k
    simp only [Array.size_setIfInBounds]
    exact hr.bounds k
  · intro i head' hi
    have hc := Table.chain_touch_of_notMem h
    have hb := congrFun hr.bucket key
    by_cases hik : i = m.index key
    · subst i
      have hlt := hr.bounds key
      simp only [Array.getElem?_setIfInBounds_self, hlt, if_true, Option.some.injEq] at hi
      subst hi
      -- The new node, then the last node of the old chain.
      refine ⟨(m.heap.limit, (key, default)) :: xs.getLast?.toList, ?_, ?_⟩
      · refine .cons (by simp) (hx.last.frame ?_)
        intro a ha
        have hne := hx.last.ne_limit ha
        simp [hne]
      · rw [hc, hb, Function.update_self, Table.inserted, ← he, List.getLast?_map]
        cases xs.getLast? <;> rfl
    · rw [hc, hb, Function.update_of_ne hik]
      rw [Array.getElem?_setIfInBounds_ne (Ne.symm hik)] at hi
      exact hr.other hi fun ys hy _ a ha ↦ by simp [hy.ne_limit ha]
  · exact ⟨xs.getLast?.map Prod.fst, by simp⟩
  · have hn : (m.nodes.setIfInBounds (m.index key) (some m.heap.limit))[m.index key]? =
        some (some m.heap.limit) := by
      simp [hr.bounds key]
    simp only [find, index] at hn ⊢
    rw [hn]
    simp [scan]

/-- `operator[]` returns the node of its key and leaves the touched table. -/
theorem Rep.subscript_eq (hr : Rep m t) (key : K) :
    ∃ a m' next, m.subscript key = some (a, m') ∧ Rep m' (t.touch key) ∧
      m'.heap.cell a = some ⟨(key, (t.lookup key).getD default), next⟩ ∧
      (∃ prev, m'.find key = some (prev, some a)) ∧
      ((t.lookup key).isSome → m' = m) := by
  cases h : t.lookup key with
  | none =>
    obtain ⟨m', hs, hr', ⟨next, hc⟩, hf⟩ := hr.subscript_absent h
    exact ⟨_, m', next, hs, hr', hc, hf, by simp⟩
  | some v =>
    obtain ⟨head, pre, a, post, _, hx, _, hf⟩ := hr.find_present h
    obtain ⟨next, hc⟩ := hx.cell_of_mem (a := a) (x := (key, v)) (by simp)
    rw [Table.touch_of_mem (by simp [h])]
    exact ⟨a, m, next, by rw [subscript, hf], hr, hc, ⟨_, hf⟩, fun _ ↦ rfl⟩

end Subscript

/-- A store through the reference of a key updates that key. -/
theorem Rep.store_eq (hr : Rep m t) {key : K} {v : V} {a : Nat} {next : Option Nat}
    (ha : m.heap.cell a = some ⟨(key, v), next⟩) (hl : t.lookup key = some v)
    (hf : ∃ prev, m.find key = some (prev, some a)) (f : V → V) :
    Rep (m.store a f) (t.update key f) where
  bucket := hr.bucket
  bounds := hr.bounds
  chains := by
    intro i head hi
    change m.nodes[i]? = some head at hi
    obtain ⟨xs, hx, he⟩ := hr.chains i head hi
    by_cases hik : i = t.bucket key
    · subst i
      obtain ⟨head', pre, b, post, hh, hc, hpairs, hfind⟩ := hr.find_present hl
      rw [hr.bucket, hh] at hi
      cases hi
      -- The reference is the node at which the search stops.
      obtain ⟨prev, hf⟩ := hf
      rw [hfind] at hf
      cases hf
      refine ⟨pre ++ (a, (key, f v)) :: post,
        hc.setPayload (fun kv ↦ (kv.1, f kv.2)), ?_⟩
      simp only [List.map_append, List.map_cons] at hpairs ⊢
      exact (Table.chain_update_split hpairs.symm f).symm
    · have hn := not_shared ha hik hx he
      refine ⟨xs, hx.frame ?_, by rw [Table.chain_update_of_ne hik, he]⟩
      intro b hb
      have hne : b ≠ a := fun h ↦ hn (h ▸ hb)
      simp [HashMap.store, hne]

/-- From `m` to `m'` exactly the nodes of a key have left the chains: every bucket keeps its other
nodes, in their order. -/
structure Unlinked (m m' : HashMap K V) (key : K) : Prop where
  index : m'.index = m.index
  size : m'.nodes.size = m.nodes.size
  chains : ∀ (i : Nat) head xs, m.nodes[i]? = some head → Chain m.heap head xs →
    ∃ head', m'.nodes[i]? = some head' ∧
      Chain m'.heap head' (xs.filter fun p ↦ decide (p.2.1 ≠ key))

/-- Nothing has to be unlinked for a missing key. -/
private theorem Rep.unlinked_absent (hr : Rep m t) {key : K} (h : t.lookup key = none) :
    Unlinked m m key where
  index := rfl
  size := rfl
  chains i head xs hi hx := by
    obtain ⟨ys, hy, he⟩ := hr.chains i head hi
    rw [hx.unique hy]
    refine ⟨head, hi, ?_⟩
    have hkeep : (ys.filter fun p ↦ decide (p.2.1 ≠ key)) = ys := by
      rw [List.filter_eq_self]
      intro p hp
      have hmem : p.2 ∈ t.chain i := he ▸ List.mem_map.mpr ⟨p, hp, rfl⟩
      rw [decide_eq_true_eq]
      intro hk
      have hb := t.placed i p.2 hmem
      rw [hk] at hb
      subst hb
      exact Table.lookup_eq_none_iff.mp h p.2 hmem hk
    rwa [hkeep]

/-- A change of the bucket of a key that keeps the nodes of all others and takes the node out of
its own chain. -/
private theorem Rep.unlinked_present (hr : Rep m t) {m' : HashMap K V} {key : K} {v : V} {a : Nat}
    {head head' : Option Nat} (pre : List (Nat × (K × V))) {post : List (Nat × (K × V))}
    (hindex : m'.index = m.index)
    (hnodes : m'.nodes = m.nodes.setIfInBounds (m.index key) head')
    (hh : m.nodes[m.index key]? = some head)
    (hx : Chain m.heap head (pre ++ (a, (key, v)) :: post))
    (he : (pre ++ (a, (key, v)) :: post).map Prod.snd = t.chain (t.bucket key))
    (hx' : Chain m'.heap head' (pre ++ post))
    (hcells : ∀ b, b ∉ (pre ++ (a, (key, v)) :: post).map Prod.fst →
      m'.heap.cell b = m.heap.cell b) : Unlinked m m' key where
  index := hindex
  size := by rw [hnodes, Array.size_setIfInBounds]
  chains i head'' xs hi hy := by
    have hb := congrFun hr.bucket key
    by_cases hik : i = m.index key
    · subst i
      rw [hh, Option.some.injEq] at hi
      subst hi
      rw [hy.unique hx]
      refine ⟨head', by rw [hnodes]; simp [hr.bounds key], ?_⟩
      have hd := t.distinct (t.bucket key)
      rw [← he, List.map_map, List.map_append, List.map_cons, List.nodup_append,
        List.nodup_cons] at hd
      obtain ⟨-, ⟨hpost, -⟩, hpre⟩ := hd
      have hkeep : (pre.filter fun p ↦ decide (p.2.1 ≠ key)) = pre := by
        rw [List.filter_eq_self]
        intro p hp
        rw [decide_eq_true_eq]
        exact hpre _ (List.mem_map.mpr ⟨p, hp, rfl⟩) key (by simp)
      have hkeep' : (post.filter fun p ↦ decide (p.2.1 ≠ key)) = post := by
        rw [List.filter_eq_self]
        intro p hp
        rw [decide_eq_true_eq]
        intro hk
        exact hpost (List.mem_map.mpr ⟨p, hp, hk⟩)
      rw [List.filter_append, List.filter_cons_of_neg (by simp), hkeep, hkeep']
      exact hx'
    · obtain ⟨ys, hys, hpairs⟩ := hr.chains i head'' hi
      rw [hy.unique hys]
      have hkeep : (ys.filter fun p ↦ decide (p.2.1 ≠ key)) = ys := by
        rw [List.filter_eq_self]
        intro p hp
        rw [decide_eq_true_eq]
        intro hk
        have hplaced := t.placed i p.2 (hpairs ▸ List.mem_map.mpr ⟨p, hp, rfl⟩)
        rw [hk, hb] at hplaced
        exact hik hplaced.symm
      rw [hkeep]
      refine ⟨head'', by rw [hnodes, Array.getElem?_setIfInBounds_ne (Ne.symm hik)]; exact hi, ?_⟩
      -- The chains of the other buckets keep their cells: only this bucket's are written.
      refine hys.frame fun b hbm ↦ hcells b fun hm ↦ ?_
      obtain ⟨⟨c, kv⟩, hp, rfl⟩ := List.mem_map.mp hm
      obtain ⟨nx, hcell⟩ := hx.cell_of_mem hp
      have hmem : kv ∈ t.chain (t.bucket key) := he ▸ List.mem_map.mpr ⟨_, hp, rfl⟩
      exact not_shared hcell (by rwa [t.placed _ _ hmem, hb]) hys hpairs hbm

/-- `erase` unlinks exactly the node of its key. -/
theorem Rep.erase_unlinks (hr : Rep m t) (key : K) :
    ∃ m', m.erase key = some m' ∧ Unlinked m m' key := by
  cases h : t.lookup key with
  | none =>
    obtain ⟨_, _, _, _, _, hf⟩ := hr.find_absent h
    exact ⟨m, by simp [erase, hf], hr.unlinked_absent h⟩
  | some v =>
    obtain ⟨head, pre, a, post, hh, hx, he, hf⟩ := hr.find_present h
    obtain ⟨next, hc⟩ := hx.cell_of_mem (a := a) (x := (key, v)) (by simp)
    rcases List.eq_nil_or_concat pre with rfl | ⟨pre', ⟨p, y⟩, rfl⟩
    · -- The node is the head: the bucket pointer moves to its successor.
      refine ⟨{ m with heap := m.heap.free a, nodes := m.nodes.setIfInBounds (m.index key) next },
        by simp [erase, hf, hc],
        hr.unlinked_present [] rfl rfl hh hx he (hx.free_head hc) fun b hb ↦ ?_⟩
      simp only [List.nil_append, List.map_cons, List.mem_cons, not_or] at hb
      simp [hb.1]
    · -- The predecessor skips the node.
      simp only [List.concat_eq_append, List.append_assoc, List.singleton_append] at *
      have hsame : m.nodes = m.nodes.setIfInBounds (m.index key) head := by
        obtain ⟨hlt, hget⟩ := Array.getElem?_eq_some_iff.mp hh
        rw [Array.setIfInBounds, dif_pos hlt, ← hget, Array.set_getElem_self]
      refine ⟨{ m with heap := (m.heap.setNext p next).free a }, by simp [erase, hf, hc],
        hr.unlinked_present (pre' ++ [(p, y)]) rfl hsame hh (by simpa using hx)
          (by simpa using he) (by simpa using hx.unlink_free hc) fun b hb ↦ ?_⟩
      simp only [List.append_assoc, List.singleton_append, List.map_append, List.map_cons,
        List.mem_append, List.mem_cons, not_or] at hb
      simp [hb.2.1, hb.2.2.1]

/-- `erase` leaves the table without the key. -/
theorem Rep.erase_eq (hr : Rep m t) (key : K) :
    ∃ m', m.erase key = some m' ∧ Rep m' (t.erase key) := by
  obtain ⟨m', hm', hu⟩ := hr.erase_unlinks key
  refine ⟨m', hm', by rw [hu.index]; exact hr.bucket, fun k ↦ ?_, fun i head' hi ↦ ?_⟩
  · rw [hu.index, hu.size]
    exact hr.bounds k
  · have hlt : i < m.nodes.size := by
      rw [← hu.size]
      exact (Array.getElem?_eq_some_iff.mp hi).1
    obtain ⟨xs, hx, he⟩ := hr.chains i _ (Array.getElem?_eq_getElem hlt)
    obtain ⟨head'', hi', hx'⟩ := hu.chains i _ xs (Array.getElem?_eq_getElem hlt) hx
    rw [hi, Option.some.injEq] at hi'
    subst hi'
    exact ⟨_, hx', by rw [Table.chain_erase, ← he, List.filter_map]; rfl⟩

/-! ### Whole runs -/

variable [Inhabited V]

/-- One call on the bucket table. -/
def tableStep (t : Table K V) : Op K V → Table K V
  | .subscript key f => (t.touch key).update key f
  | .erase key => t.erase key
  | .contains _ => t

/-- A sequence of calls on the bucket table. -/
def tableRun (t : Table K V) (ops : List (Op K V)) : Table K V := ops.foldl tableStep t

/-- One call on the pointers is one call on the bucket table. -/
theorem Rep.step_eq (hr : Rep m t) (op : Op K V) :
    ∃ m', m.step op = some m' ∧ Rep m' (tableStep t op) := by
  cases op with
  | subscript key f =>
    obtain ⟨a, m', next, hs, hr', hc, hf, _⟩ := hr.subscript_eq key
    have hl := Table.lookup_touch_self t key
    exact ⟨m'.store a f, by simp [step, hs], hr'.store_eq hc hl hf f⟩
  | erase key => exact hr.erase_eq key
  | contains key => exact ⟨m, by simp [step, hr.contains_eq key], hr⟩

/-- A run on the pointers never gets stuck and is the run on the bucket table. -/
theorem Rep.run_eq (hr : Rep m t) (ops : List (Op K V)) :
    ∃ m', m.run ops = some m' ∧ Rep m' (tableRun t ops) := by
  induction ops generalizing m t with
  | nil => exact ⟨m, rfl, hr⟩
  | cons op ops ih =>
    obtain ⟨m', hs, hr'⟩ := hr.step_eq op
    obtain ⟨m'', hs', hr''⟩ := ih hr'
    exact ⟨m'', by simp [run, hs, hs'], hr''⟩

/-! ### Finite maps -/

/-- One call on a finite map. -/
def specStep (f : K → Option V) : Op K V → K → Option V
  | .subscript key g => Function.update f key (some (g ((f key).getD default)))
  | .erase key => Function.update f key none
  | .contains _ => f

/-- A sequence of calls on a finite map that starts empty. -/
def specRun (ops : List (Op K V)) : K → Option V := ops.foldl specStep (fun _ ↦ none)

@[simp] theorem specRun_concat (ops : List (Op K V)) (op : Op K V) :
    specRun (ops ++ [op]) = specStep (specRun ops) op := by
  simp [specRun]

@[simp] theorem tableRun_concat (t : Table K V) (ops : List (Op K V)) (op : Op K V) :
    tableRun t (ops ++ [op]) = tableStep (tableRun t ops) op := by
  simp [tableRun]

@[simp] theorem bucket_tableStep (t : Table K V) (op : Op K V) :
    (tableStep t op).bucket = t.bucket := by
  cases op <;> simp [tableStep]

@[simp] theorem bucket_tableRun (t : Table K V) (ops : List (Op K V)) :
    (tableRun t ops).bucket = t.bucket := by
  induction ops generalizing t with
  | nil => rfl
  | cons op ops ih =>
    change (tableRun (tableStep t op) ops).bucket = t.bucket
    rw [ih, bucket_tableStep]

/-- What a caller can see of a map is the finite map `f`: membership, and the value behind
the reference that `operator[]` returns, which is the default one for a missing key. -/
def Agrees (m : HashMap K V) (f : K → Option V) : Prop :=
  ∀ key, m.contains key = some (f key).isSome ∧
    ∃ a m', m.subscript key = some (a, m') ∧ m'.value a = some ((f key).getD default)

/-- A represented table shows a caller its own lookups. -/
theorem Rep.agrees_iff (hr : Rep m t) (f : K → Option V) :
    Agrees m f ↔ ∀ key, t.lookup key = f key := by
  have hv : ∀ key, ∃ a m', m.subscript key = some (a, m') ∧
      m'.value a = some ((t.lookup key).getD default) := by
    intro key
    obtain ⟨a, m', next, hs, _, hc, _⟩ := hr.subscript_eq key
    exact ⟨a, m', hs, by simp [value, hc]⟩
  constructor
  · intro h key
    obtain ⟨hm, a, m', hs, hval⟩ := h key
    obtain ⟨a', m'', hs', hval'⟩ := hv key
    rw [hr.contains_eq, Option.some.injEq] at hm
    rw [hs] at hs'
    cases hs'
    rw [hval] at hval'
    cases ht : t.lookup key <;> cases hf : f key <;> simp_all
  · intro h key
    rw [← h key]
    exact ⟨hr.contains_eq key, hv key⟩

/-- After every prefix of the calls the map shows the finite map of those calls: a key is
contained exactly when it was accessed since its last erasure, it yields the value most
recently stored under it, and no call disturbs another key. -/
def Refines (makeHash : K → UInt64) (capacity : Nat) (ops : List (Op K V)) : Prop :=
  ∀ pre, pre <+: ops →
    ∃ m, (new makeHash capacity : HashMap K V).run pre = some m ∧ Agrees m (specRun pre)

/-- Every `operator[]` on a missing key is made while at most one present key shares its
bucket. -/
def Roomy (makeHash : K → UInt64) (capacity : Nat) (ops : List (Op K V)) : Prop :=
  ∀ pre key g, pre ++ [Op.subscript key g] <+: ops → specRun pre key = none →
    ∀ k₁ k₂, (specRun pre k₁).isSome → (specRun pre k₂).isSome →
      bucketOf makeHash capacity k₁ = bucketOf makeHash capacity key →
      bucketOf makeHash capacity k₂ = bucketOf makeHash capacity key → k₁ = k₂

/-- One call keeps a table equal to its finite map if the touched bucket has room. -/
theorem lookup_tableStep {f : K → Option V} (hl : ∀ key, t.lookup key = f key) (op : Op K V)
    (hr : ∀ key g, op = .subscript key g → t.HasRoom key) (key : K) :
    (tableStep t op).lookup key = specStep f op key := by
  cases op with
  | subscript k g =>
    simp only [tableStep, specStep, Table.lookup_update]
    by_cases hk : key = k
    · subst hk
      simp [Table.lookup_touch_self, hl]
    · rw [if_neg hk, Table.lookup_touch_of_room (hr k g rfl) hk, Function.update_of_ne hk, hl]
  | erase k =>
    simp only [tableStep, specStep, Table.lookup_erase]
    by_cases hk : key = k
    · simp [hk]
    · simp [hk, hl]
  | contains k => exact hl key

omit [Inhabited V] in
/-- A bucket with two present keys cannot take a third. -/
theorem hasRoom_of_roomy {f : K → Option V} (hl : ∀ key, t.lookup key = f key) {key : K}
    (hu : f key = none → ∀ k₁ k₂, (f k₁).isSome → (f k₂).isSome →
      t.bucket k₁ = t.bucket key → t.bucket k₂ = t.bucket key → k₁ = k₂) :
    t.HasRoom key := by
  cases hk : f key with
  | some v => exact .inl (by simp [hl, hk])
  | none =>
    refine .inr ?_
    have hp := t.placed (t.bucket key)
    have hd := t.distinct (t.bucket key)
    rcases hc : t.chain (t.bucket key) with _ | ⟨⟨k₁, v₁⟩, _ | ⟨⟨k₂, v₂⟩, rest⟩⟩
    · simp
    · simp
    · rw [hc] at hp hd
      have hb₁ : t.bucket k₁ = t.bucket key := hp (k₁, v₁) (by simp)
      have hb₂ : t.bucket k₂ = t.bucket key := hp (k₂, v₂) (by simp)
      have h₁ : f k₁ = some v₁ := by
        rw [← hl, Table.lookup_eq_some_iff, hb₁, hc]
        simp
      have h₂ : f k₂ = some v₂ := by
        rw [← hl, Table.lookup_eq_some_iff, hb₂, hc]
        simp
      have he := hu hk k₁ k₂ (by simp [h₁]) (by simp [h₂]) hb₁ hb₂
      simp [he] at hd

private theorem lookup_tableRun_of_roomy {makeHash : K → UInt64} {capacity : Nat}
    {ops : List (Op K V)} (hu : Roomy makeHash capacity ops) (pre : List (Op K V))
    (hp : pre <+: ops) (key : K) :
    (tableRun (Table.empty (bucketOf makeHash capacity)) pre).lookup key = specRun pre key := by
  induction pre using List.reverseRecOn generalizing key with
  | nil => rfl
  | append_singleton pre op ih =>
    rw [tableRun_concat, specRun_concat]
    have hp' : pre <+: ops := (List.prefix_append pre [op]).trans hp
    refine lookup_tableStep (fun k ↦ ih hp' k) op ?_ key
    rintro k g rfl
    refine hasRoom_of_roomy (fun k ↦ ih hp' k) fun hn k₁ k₂ h₁ h₂ hb₁ hb₂ ↦ ?_
    rw [bucket_tableRun] at hb₁ hb₂
    exact hu pre k g hp hn k₁ k₂ h₁ h₂ hb₁ hb₂

/-- The kernel hash map is a finite map on exactly the call sequences that never insert
into a bucket with two present keys. -/
theorem refines_iff_roomy (makeHash : K → UInt64) (capacity : Nat) (hc : capacity < 31)
    (ops : List (Op K V)) : Refines makeHash capacity ops ↔ Roomy makeHash capacity ops := by
  have hrun := fun pre : List (Op K V) ↦ (rep_new makeHash hc).run_eq pre
  constructor
  · intro h pre key g hp hn k₁ k₂ h₁ h₂ hb₁ hb₂
    by_contra hne
    obtain ⟨m, hm, ha⟩ := h pre ((List.prefix_append pre _).trans hp)
    obtain ⟨m', hm', ha'⟩ := h _ hp
    obtain ⟨_, hr₁, hr⟩ := hrun pre
    obtain ⟨_, hr₂, hr'⟩ := hrun (pre ++ [.subscript key g])
    rw [hm] at hr₁
    rw [hm'] at hr₂
    cases hr₁
    cases hr₂
    have hl := (hr.agrees_iff _).mp ha
    have hl' := (hr'.agrees_iff _).mp ha'
    have hk₁ : k₁ ≠ key := by
      rintro rfl
      simp [hn] at h₁
    have hk₂ : k₂ ≠ key := by
      rintro rfl
      simp [hn] at h₂
    -- The insertion unlinked one of the two keys, but the finite map keeps both.
    have hlost := Table.touch_loses (t := tableRun _ pre) (by rw [hl, hn]) hk₁ hk₂ hne
      (by rw [bucket_tableRun]; exact hb₁) (by rw [bucket_tableRun]; exact hb₂)
    have hkeep : ∀ k, k ≠ key → ((tableRun (Table.empty (bucketOf makeHash capacity))
        pre).touch key).lookup k = specRun pre k := by
      intro k hk
      have he := hl' k
      simp only [tableRun_concat, specRun_concat, tableStep, specStep, Table.lookup_update,
        if_neg hk, Function.update_of_ne hk] at he
      exact he
    rw [hkeep k₁ hk₁, hkeep k₂ hk₂] at hlost
    rcases hlost with he | he
    · simp [he] at h₁
    · simp [he] at h₂
  · intro h pre hp
    obtain ⟨m, hm, hr⟩ := hrun pre
    exact ⟨m, hm, (hr.agrees_iff _).mpr (lookup_tableRun_of_roomy h pre hp)⟩

/-- Two keys of one bucket, stored to, read back and erased, on the default capacity. -/
theorem refines_two_colliding_blocks :
    (8 < 31) ∧ Refines (fun k : UInt64 ↦ k) 8
      [.subscript 46 (fun _ ↦ 1), .subscript 302 (fun _ ↦ (2 : Nat)), .erase 46] := by
  refine ⟨by decide, (refines_iff_roomy _ 8 (by decide) _).mpr ?_⟩
  rintro pre key g ⟨rest, he⟩ hn k₁ k₂ h₁ h₂ _ _
  rcases pre with _ | ⟨op₁, _ | ⟨op₂, _ | ⟨op₃, pre⟩⟩⟩
  · simp [specRun] at h₁
  · -- Only the first key is present when the second one enters.
    simp only [List.cons_append, List.nil_append, List.cons.injEq] at he
    obtain ⟨rfl, -, -⟩ := he
    have hone : ∀ k : UInt64, (specRun [Op.subscript 46 fun _ ↦ (1 : Nat)] k).isSome → k = 46 := by
      intro k hk
      by_contra hne
      simp [specRun, specStep, Function.update_of_ne hne] at hk
    rw [hone k₁ h₁, hone k₂ h₂]
  · simp at he
  · simp at he

/-- Three blocks that are equal modulo 256, on the default capacity and the identity hash:
the entry of the second one is gone. -/
theorem not_refines_three_colliding_blocks :
    ¬ Refines (fun k : UInt64 ↦ k) 8
      [.subscript 46 (fun _ ↦ 1), .subscript 302 (fun _ ↦ 2),
        .subscript 558 (fun _ ↦ (3 : Nat))] := by
  intro h
  obtain ⟨m, hm, ha⟩ := h _ (List.prefix_refl _)
  have hc : (((new (fun k : UInt64 ↦ k) 8 : HashMap UInt64 Nat).run
      [.subscript 46 (fun _ ↦ 1), .subscript 302 (fun _ ↦ 2),
        .subscript 558 (fun _ ↦ 3)]).bind fun m ↦ m.contains 302) = some false := by
    decide +kernel
  rw [hm, Option.bind_some, (ha 302).1] at hc
  exact absurd hc (by decide)

end Orfos.Lib.HashMap
