import Mathlib.Data.List.Nodup
import Mathlib.Data.List.Perm.Subperm
import Orfos.Lib.HashMapChains

/-!
# Enumerating the hash map

`HashMap::Iterator`, `size`, `empty`, `begin` and `end` of `kernel/lib/hash_map.h`. `size` counts
the buckets that are not empty, which is the number of keys as long as no bucket has two. `begin`
points into the first bucket even if it is empty, and `++` stays in the last bucket, so a loop from
`begin` never comes to `end`.

An iterator is compared with iterators of its own map only, so the pointer to the map is left out.
-/

namespace Orfos.Lib.HashMap

open Orfos.Base

variable {K V : Type}

/-- `HashMap::Iterator`. -/
structure Iterator where
  vecIndex : Nat
  elem : Option Nat
  deriving DecidableEq

/-- `size`. -/
def size (m : HashMap K V) : Nat := m.nodes.toList.countP Option.isSome

/-- `empty`. -/
def empty (m : HashMap K V) : Bool := m.nodes.toList.all Option.isNone

/-- `end`. -/
def end_ (m : HashMap K V) : Iterator := ⟨m.nodes.size, none⟩

/-- `begin`. -/
def begin_ (m : HashMap K V) : Iterator :=
  match m.nodes[0]? with
  | none => m.end_
  | some front => ⟨0, front⟩

/-- `Iterator::operator*`. It is undefined on a pointer that is null or dangling. -/
def deref (m : HashMap K V) (it : Iterator) : Option (K × V) :=
  (it.elem.bind m.heap.cell).map (·.payload)

/-- `Iterator::operator++`. It is undefined on a pointer that is null or dangling. -/
def increment (m : HashMap K V) (it : Iterator) : Option Iterator :=
  match it.elem.bind m.heap.cell with
  | none => none
  | some c =>
    match c.next with
    | some next => some { it with elem := some next }
    | none =>
      if it.vecIndex < m.nodes.size - 1 then
        m.nodes[it.vecIndex + 1]?.map fun head ↦ ⟨it.vecIndex + 1, head⟩
      else some it

/-- The keys that `for (; it != end(); ++it)` visits, if it comes to `end` in `n` rounds. -/
def visitFrom (m : HashMap K V) : Nat → Iterator → Option (List K)
  | 0, it => if it = m.end_ then some [] else none
  | n + 1, it =>
    if it = m.end_ then some []
    else do
      let kv ← m.deref it
      let it ← m.increment it
      let ks ← m.visitFrom n it
      pure (kv.1 :: ks)

/-- The keys visited from `begin` on. -/
def visit (m : HashMap K V) (n : Nat) : Option (List K) := m.visitFrom n m.begin_

section

variable {m : HashMap K V} {it it' : Iterator}

/-- `++` stays inside the buckets. -/
theorem increment_inside (hit : it.vecIndex < m.nodes.size) (h : m.increment it = some it') :
    it'.vecIndex < m.nodes.size := by
  unfold increment at h
  split at h
  · cases h
  · split at h
    · cases h
      exact hit
    · split at h
      · obtain ⟨head, -, rfl⟩ := Option.map_eq_some_iff.mp h
        change it.vecIndex + 1 < m.nodes.size
        omega
      · cases h
        exact hit

/-- A loop that starts inside the buckets does not end. -/
theorem visitFrom_inside (n : Nat) (hit : it.vecIndex < m.nodes.size) :
    m.visitFrom n it = none := by
  have hne : it ≠ m.end_ := by
    rintro rfl
    exact Nat.lt_irrefl _ hit
  induction n generalizing it with
  | zero => rw [visitFrom, if_neg hne]
  | succ n ih =>
    rw [visitFrom, if_neg hne]
    cases hd : m.deref it with
    | none => rfl
    | some kv =>
      cases hi : m.increment it with
      | none => rfl
      | some it' =>
        have hit' := increment_inside hit hi
        have hne' : it' ≠ m.end_ := by
          rintro rfl
          exact Nat.lt_irrefl _ hit'
        simp [ih hit' hne']

/-- A loop from `begin` does not end if there is a bucket. -/
theorem visit_eq_none (n : Nat) (hm : 0 < m.nodes.size) : m.visit n = none := by
  rw [visit, begin_, Array.getElem?_eq_getElem hm]
  exact visitFrom_inside n hm

end

variable [DecidableEq K]

/-- The list has every contained key once, and no other key. -/
def Lists (m : HashMap K V) (ks : List K) : Prop :=
  ks.Nodup ∧ ∀ key, key ∈ ks ↔ m.contains key = some true

/-- `size` and `empty` agree with `contains`, and a loop from `begin` to `end` visits every contained
key once. -/
structure Enumerates (m : HashMap K V) : Prop where
  size : ∃ ks, m.Lists ks ∧ m.size = ks.length
  empty : m.empty = true ↔ m.Lists []
  visits : ∃ n ks, m.visit n = some ks ∧ m.Lists ks

section

variable [Inhabited V] {m m' : HashMap K V}

/-- The calls keep the number of buckets. -/
theorem nodes_size_step {op : Op K V} (h : m.step op = some m') :
    m'.nodes.size = m.nodes.size := by
  cases op with
  | subscript key f =>
    obtain ⟨⟨a, m''⟩, hs, rfl⟩ := Option.map_eq_some_iff.mp h
    unfold subscript at hs
    split at hs
    · cases hs
    · cases hs
      rfl
    · cases hs
      exact Array.size_setIfInBounds
  | erase key =>
    change m.erase key = some m' at h
    unfold erase at h
    split at h
    · cases h
    · cases h
      rfl
    · split at h
      · cases h
      · split at h
        · cases h
          rfl
        · cases h
          exact Array.size_setIfInBounds
  | contains key =>
    obtain ⟨_, -, rfl⟩ := Option.map_eq_some_iff.mp h
    rfl

theorem nodes_size_run {ops : List (Op K V)} (h : m.run ops = some m') :
    m'.nodes.size = m.nodes.size := by
  induction ops generalizing m with
  | nil =>
    cases h
    rfl
  | cons op ops ih =>
    obtain ⟨m'', hs, hr⟩ := Option.bind_eq_some_iff.mp h
    rw [ih hr, nodes_size_step hs]

/-- No map enumerates its keys. -/
theorem never_enumerates (makeHash : K → UInt64) (capacity : Nat) (ops : List (Op K V))
    (hm : (new makeHash capacity : HashMap K V).run ops = some m) : ¬ m.Enumerates := by
  rintro ⟨-, -, n, ks, hvisit, -⟩
  have hsize : 0 < m.nodes.size := by
    rw [nodes_size_run hm, new, Array.size_replicate]
    exact Nat.two_pow_pos capacity
  rw [visit_eq_none n hsize] at hvisit
  cases hvisit

/-- A map without keys. -/
theorem never_enumerates_empty :
    ∃ m, (new (fun k : UInt64 ↦ k) 8 : HashMap UInt64 Nat).run [] = some m ∧ ¬ m.Enumerates :=
  ⟨_, rfl, never_enumerates _ 8 [] rfl⟩

/-- Two keys in one bucket: the loop does not come to its end. -/
theorem not_enumerates_colliding :
    ∃ m, (new (fun k : UInt64 ↦ k) 8 : HashMap UInt64 Nat).run
        [.subscript 46 (fun _ ↦ 1), .subscript 302 (fun _ ↦ 2)] = some m ∧ ¬ m.Enumerates := by
  obtain ⟨m, hm, -⟩ := (rep_new (fun k : UInt64 ↦ k) (by decide : 8 < 31)).run_eq
    [.subscript 46 (fun _ ↦ 1), .subscript 302 (fun _ ↦ (2 : Nat))]
  refine ⟨m, hm, ?_⟩
  rintro ⟨-, -, n, ks, hvisit, -⟩
  have hsize : 0 < m.nodes.size := by
    rw [nodes_size_run hm, new, Array.size_replicate]
    exact Nat.two_pow_pos 8
  rw [visit_eq_none n hsize] at hvisit
  cases hvisit

end

/-! ### What is right about `size` and `empty` -/

section

variable {m : HashMap K V} {t : Table K V} {ks : List K}

/-- The buckets that are not empty. -/
def used (m : HashMap K V) : List Nat :=
  (List.range m.nodes.size).filter fun i ↦ (m.nodes[i]?.join).isSome

omit [DecidableEq K] in
theorem size_eq (m : HashMap K V) : m.size = m.used.length := by
  have hlist : m.nodes.toList = (List.range m.nodes.size).map fun i ↦ m.nodes[i]?.join := by
    apply List.ext_getElem
    · simp
    · intro i hi _
      simp at hi
      simp [hi]
  rw [size, hlist, List.countP_map, List.countP_eq_length_filter]
  rfl

omit [DecidableEq K] in
/-- A bucket is not empty if and only if its table has a pair there. -/
theorem Rep.mem_used_iff (hr : Rep m t) (i : Nat) : i ∈ m.used ↔ ∃ kv, kv ∈ t.chain i := by
  rw [used, List.mem_filter, List.mem_range]
  constructor
  · rintro ⟨hi, hsome⟩
    rw [Array.getElem?_eq_getElem hi, Option.join_some] at hsome
    obtain ⟨xs, hx, he⟩ := hr.chains i _ (Array.getElem?_eq_getElem hi)
    rw [hx.head_eq] at hsome
    cases xs with
    | nil => cases hsome
    | cons p xs => exact ⟨p.2, he ▸ List.mem_map.mpr ⟨p, by simp, rfl⟩⟩
  · rintro ⟨kv, hkv⟩
    have hi : i < m.nodes.size := by
      rw [← t.placed i kv hkv, hr.bucket]
      exact hr.bounds kv.1
    obtain ⟨xs, hx, he⟩ := hr.chains i _ (Array.getElem?_eq_getElem hi)
    refine ⟨hi, ?_⟩
    rw [Array.getElem?_eq_getElem hi, Option.join_some, hx.head_eq]
    cases xs with
    | nil =>
      rw [← he] at hkv
      cases hkv
    | cons p xs => rfl

/-- The contained keys are those of the pairs in the table. -/
theorem Rep.contains_iff (hr : Rep m t) (key : K) :
    m.contains key = some true ↔ ∃ kv ∈ t.chain (t.bucket key), kv.1 = key := by
  rw [hr.contains_eq, Option.some.injEq, Option.isSome_iff_exists]
  simp only [Table.lookup_eq_some_iff]
  constructor
  · rintro ⟨v, hv⟩
    exact ⟨_, hv, rfl⟩
  · rintro ⟨⟨k, v⟩, hkv, rfl⟩
    exact ⟨v, hkv⟩

/-- Some list has the contained keys. -/
theorem Rep.exists_lists (hr : Rep m t) : ∃ ks, m.Lists ks := by
  refine ⟨m.used.flatMap fun i ↦ (t.chain i).map Prod.fst, ?_, fun key ↦ ?_⟩
  · refine List.nodup_flatMap.mpr ⟨fun i _ ↦ t.distinct i, ?_⟩
    refine (List.nodup_range.filter _).imp fun {i j} hij ↦ ?_
    intro key hi hj
    obtain ⟨kv, hkv, rfl⟩ := List.mem_map.mp hi
    obtain ⟨kv', hkv', he⟩ := List.mem_map.mp hj
    rw [← t.placed i kv hkv, ← t.placed j kv' hkv', he] at hij
    exact hij rfl
  · rw [hr.contains_iff, List.mem_flatMap]
    constructor
    · rintro ⟨i, -, hkey⟩
      obtain ⟨kv, hkv, rfl⟩ := List.mem_map.mp hkey
      exact ⟨kv, (t.placed i kv hkv).symm ▸ hkv, rfl⟩
    · rintro ⟨kv, hkv, rfl⟩
      exact ⟨_, (hr.mem_used_iff _).mpr ⟨kv, hkv⟩, List.mem_map.mpr ⟨kv, hkv, rfl⟩⟩

/-- The buckets of the contained keys are those that are not empty. -/
theorem Rep.mem_used_iff_lists (hr : Rep m t) (hks : m.Lists ks) (i : Nat) :
    i ∈ m.used ↔ i ∈ ks.map m.index := by
  rw [hr.mem_used_iff, List.mem_map, ← hr.bucket]
  constructor
  · rintro ⟨kv, hkv⟩
    have hb := t.placed i kv hkv
    exact ⟨kv.1, (hks.2 _).mpr ((hr.contains_iff _).mpr ⟨kv, hb.symm ▸ hkv, rfl⟩), hb⟩
  · rintro ⟨key, hkey, rfl⟩
    obtain ⟨kv, hkv, -⟩ := (hr.contains_iff key).mp ((hks.2 key).mp hkey)
    exact ⟨kv, hkv⟩

/-- `size` is the number of keys if and only if no two of them are in one bucket. -/
theorem Rep.size_eq_iff (hr : Rep m t) :
    (∃ ks, m.Lists ks ∧ m.size = ks.length) ↔
      ∀ k₁ k₂, m.contains k₁ = some true → m.contains k₂ = some true →
        m.index k₁ = m.index k₂ → k₁ = k₂ := by
  have hused : m.used.Nodup := List.nodup_range.filter _
  constructor
  · rintro ⟨ks, hks, hsize⟩ k₁ k₂ h₁ h₂ he
    -- As many buckets as keys: each bucket has one.
    have hsub : m.used ⊆ ks.map m.index := fun i hi ↦ (hr.mem_used_iff_lists hks i).mp hi
    have hperm := (List.subperm_of_subset hused hsub).perm_of_length_le
      (Nat.le_of_eq (by rw [List.length_map, ← hsize, size_eq m]))
    exact List.inj_on_of_nodup_map (hperm.nodup_iff.mp hused) ((hks.2 k₁).mpr h₁)
      ((hks.2 k₂).mpr h₂) he
  · intro hinj
    obtain ⟨ks, hks⟩ := hr.exists_lists
    refine ⟨ks, hks, ?_⟩
    have hnodup : (ks.map m.index).Nodup := hks.1.map_on fun k₁ h₁ k₂ h₂ ↦
      hinj k₁ k₂ ((hks.2 k₁).mp h₁) ((hks.2 k₂).mp h₂)
    have hperm := (List.perm_ext_iff_of_nodup hused hnodup).mpr (hr.mem_used_iff_lists hks)
    rw [size_eq, hperm.length_eq, List.length_map]

/-- `empty` holds if and only if no key is contained. -/
theorem Rep.empty_iff (hr : Rep m t) : m.empty = true ↔ m.Lists [] := by
  have hempty : m.empty = true ↔ m.used = [] := by
    rw [← List.length_eq_zero_iff, ← size_eq, size, empty, List.countP_eq_zero, List.all_eq_true]
    simp
  obtain ⟨ks, hks⟩ := hr.exists_lists
  rw [hempty]
  constructor
  · intro hused
    have hnil : ks = [] := by
      cases ks with
      | nil => rfl
      | cons k ks =>
        have hmem := (hr.mem_used_iff_lists hks (m.index k)).mpr (by simp)
        rw [hused] at hmem
        cases hmem
    exact hnil ▸ hks
  · intro hnil
    refine List.eq_nil_iff_forall_not_mem.mpr fun i hi ↦ ?_
    have hmem := (hr.mem_used_iff_lists hnil i).mp hi
    cases hmem

end

end Orfos.Lib.HashMap
