import Mathlib.Data.List.Nodup
import Mathlib.Logic.Function.Basic

/-!
# Bucket tables

The hash map of `kernel/lib/hash_map.h` with its node addresses forgotten: each bucket is
the list of pairs that its chain traces. `touch` is what `operator[]` does to a bucket,
including the link to the last node of the chain, so that a bucket never holds more than
two pairs after an insertion. `Lib.HashMapRefinement` connects this level to the pointers.
A table cannot be built with a pair outside its bucket or with a key twice in one bucket.
-/

namespace Orfos.Lib

/-- Buckets of distinct keys, each key in the bucket that the hash selects. -/
structure Table (K V : Type) where
  bucket : K → Nat
  chain : Nat → List (K × V)
  placed : ∀ i, ∀ kv ∈ chain i, bucket kv.1 = i
  distinct : ∀ i, ((chain i).map Prod.fst).Nodup

namespace Table

variable {K V : Type}

/-- A table without entries. -/
def empty (bucket : K → Nat) : Table K V where
  bucket := bucket
  chain _ := []
  placed _ _ h := by cases h
  distinct _ := List.nodup_nil

/-- Replace the chain of one bucket. -/
def setChain (t : Table K V) (i : Nat) (xs : List (K × V))
    (hp : ∀ kv ∈ xs, t.bucket kv.1 = i) (hd : (xs.map Prod.fst).Nodup) : Table K V where
  bucket := t.bucket
  chain := Function.update t.chain i xs
  placed j := by
    by_cases hj : j = i
    · subst j
      simpa using hp
    · simpa [hj] using t.placed j
  distinct j := by
    by_cases hj : j = i
    · subst j
      simpa using hd
    · simpa [hj] using t.distinct j

@[simp] theorem bucket_setChain (t : Table K V) (i : Nat) (xs : List (K × V))
    (hp : ∀ kv ∈ xs, t.bucket kv.1 = i) (hd : (xs.map Prod.fst).Nodup) :
    (t.setChain i xs hp hd).bucket = t.bucket := rfl

@[simp] theorem chain_setChain (t : Table K V) (i : Nat) (xs : List (K × V))
    (hp : ∀ kv ∈ xs, t.bucket kv.1 = i) (hd : (xs.map Prod.fst).Nodup) :
    (t.setChain i xs hp hd).chain = Function.update t.chain i xs := rfl

variable [DecidableEq K]

/-- The value stored under a key. -/
def lookup (t : Table K V) (key : K) : Option V :=
  ((t.chain (t.bucket key)).find? (fun kv ↦ decide (kv.1 = key))).map Prod.snd

/-- A lookup finds exactly the pairs of the key's bucket. -/
theorem lookup_eq_some_iff {t : Table K V} {key : K} {v : V} :
    t.lookup key = some v ↔ (key, v) ∈ t.chain (t.bucket key) := by
  unfold lookup
  constructor
  · intro h
    obtain ⟨⟨k, w⟩, hf, he⟩ := Option.map_eq_some_iff.mp h
    have hk : k = key := by simpa using List.find?_some hf
    change w = v at he
    subst hk he
    exact List.mem_of_find?_eq_some hf
  · intro h
    cases hf : (t.chain (t.bucket key)).find? (fun kv ↦ decide (kv.1 = key)) with
    | none =>
      have hn := List.find?_eq_none.mp hf (key, v) h
      simp at hn
    | some kv =>
      have hk : kv.1 = key := by simpa using List.find?_some hf
      have hm := List.mem_of_find?_eq_some hf
      have he := List.inj_on_of_nodup_map (t.distinct _) hm h hk
      simp [he]

/-- A lookup misses exactly the keys that are in no pair of their bucket. -/
theorem lookup_eq_none_iff {t : Table K V} {key : K} :
    t.lookup key = none ↔ ∀ kv ∈ t.chain (t.bucket key), kv.1 ≠ key := by
  simp [lookup]

/-- The bucket of a key has room for it: the key is there, or at most one other is. -/
def HasRoom (t : Table K V) (key : K) : Prop :=
  (t.lookup key).isSome ∨ (t.chain (t.bucket key)).length ≤ 1

instance (t : Table K V) (key : K) : Decidable (t.HasRoom key) :=
  inferInstanceAs (Decidable (_ ∨ _))

/-- Only the bucket of the key decides a lookup. -/
theorem lookup_congr {t t' : Table K V} {key : K} (hb : t'.bucket key = t.bucket key)
    (hc : t'.chain (t.bucket key) = t.chain (t.bucket key)) :
    t'.lookup key = t.lookup key := by
  rw [lookup, lookup, hb, hc]

/-- The insertion of a missing key drops the pairs of its bucket, the last one apart. -/
def Drops (t : Table K V) (key k : K) : Prop :=
  (t.lookup key).isNone ∧ k ∈ (t.chain (t.bucket key)).dropLast.map Prod.fst

instance (t : Table K V) (key k : K) : Decidable (t.Drops key k) :=
  inferInstanceAs (Decidable (_ ∧ _))

/-- A bucket with room drops nothing. -/
theorem Drops.not_hasRoom {t : Table K V} {key k : K} (h : t.Drops key k) : ¬ t.HasRoom key := by
  obtain ⟨hn, hm⟩ := h
  rintro (hs | hlen)
  · simp [Option.isNone_iff_eq_none.mp hn] at hs
  · have hd : (t.chain (t.bucket key)).dropLast = [] := by
      rw [← List.length_eq_zero_iff, List.length_dropLast]
      omega
    rw [hd] at hm
    cases hm

section Touch

variable [Inhabited V]

/-- The bucket after `operator[]` has inserted a missing key: only the last pair of the
old chain stays linked. -/
def inserted (t : Table K V) (key : K) : List (K × V) :=
  (key, default) :: (t.chain (t.bucket key)).getLast?.toList

omit [DecidableEq K] in
private theorem mem_inserted {t : Table K V} {key : K} {kv : K × V}
    (h : kv ∈ t.inserted key) : kv = (key, default) ∨ kv ∈ t.chain (t.bucket key) := by
  rcases List.mem_cons.mp h with he | hm
  · exact .inl he
  · exact .inr (List.mem_of_getLast? (Option.mem_toList.mp hm))

/-- `operator[]` without its store: a missing key enters with a default value. -/
def touch (t : Table K V) (key : K) : Table K V :=
  if h : (t.lookup key).isSome then t
  else t.setChain (t.bucket key) (t.inserted key)
    (by
      intro kv hm
      rcases mem_inserted hm with rfl | hm
      · rfl
      · exact t.placed _ kv hm)
    (by
      have hn := lookup_eq_none_iff.mp (Option.not_isSome_iff_eq_none.mp h)
      cases hl : (t.chain (t.bucket key)).getLast? with
      | none => simp [inserted, hl]
      | some kv =>
        have hne := hn kv (List.mem_of_getLast? hl)
        simp [inserted, hl, Ne.symm hne])

@[simp] theorem bucket_touch (t : Table K V) (key : K) : (t.touch key).bucket = t.bucket := by
  unfold touch
  split <;> rfl

/-- Touching a present key changes nothing. -/
theorem touch_of_mem {t : Table K V} {key : K} (h : (t.lookup key).isSome) :
    t.touch key = t := by
  rw [touch, dif_pos h]

/-- Touching a missing key relinks its bucket. -/
theorem chain_touch_of_notMem {t : Table K V} {key : K} (h : t.lookup key = none) :
    (t.touch key).chain = Function.update t.chain (t.bucket key) (t.inserted key) := by
  rw [touch, dif_neg (by simp [h])]
  rfl

/-- The touched key is present, with its old value or the default. -/
theorem lookup_touch_self (t : Table K V) (key : K) :
    (t.touch key).lookup key = some ((t.lookup key).getD default) := by
  cases h : t.lookup key with
  | some v => rw [touch_of_mem (by simp [h]), h]; rfl
  | none =>
    rw [lookup_eq_some_iff, bucket_touch, chain_touch_of_notMem h]
    simp [inserted]

/-- Keys of other buckets are untouched. -/
theorem lookup_touch_of_bucket_ne {t : Table K V} {key k : K}
    (h : t.bucket k ≠ t.bucket key) : (t.touch key).lookup k = t.lookup k := by
  cases hk : t.lookup key with
  | some v => rw [touch_of_mem (by simp [hk])]
  | none =>
    apply lookup_congr (by simp)
    rw [chain_touch_of_notMem hk]
    simp [h]

/-- A key that survives a touch keeps its value: `operator[]` never invents an entry. -/
theorem lookup_of_lookup_touch {t : Table K V} {key k : K} {v : V} (hk : k ≠ key)
    (h : (t.touch key).lookup k = some v) : t.lookup k = some v := by
  cases hn : t.lookup key with
  | some w => rwa [touch_of_mem (by simp [hn])] at h
  | none =>
    by_cases hb : t.bucket k = t.bucket key
    · rw [lookup_eq_some_iff, bucket_touch, chain_touch_of_notMem hn, hb] at h
      rw [lookup_eq_some_iff, hb]
      rcases mem_inserted (by simpa using h) with he | hm
      · exact absurd (congrArg Prod.fst he) hk
      · exact hm
    · rwa [lookup_touch_of_bucket_ne hb] at h

/-- With room in the bucket, a touch keeps every other key. -/
theorem lookup_touch_of_room {t : Table K V} {key k : K} (hr : t.HasRoom key)
    (hk : k ≠ key) : (t.touch key).lookup k = t.lookup k := by
  cases hn : t.lookup key with
  | some w => rw [touch_of_mem (by simp [hn])]
  | none =>
    by_cases hb : t.bucket k = t.bucket key
    · have hl : (t.chain (t.bucket key)).length ≤ 1 := by
        rcases hr with h | h
        · simp [hn] at h
        · exact h
      apply Option.ext
      intro v
      constructor
      · exact lookup_of_lookup_touch hk
      · intro h
        rw [lookup_eq_some_iff, hb] at h
        rw [lookup_eq_some_iff, bucket_touch, chain_touch_of_notMem hn, hb]
        have he : (t.chain (t.bucket key)).getLast? = some (k, v) := by
          match hc : t.chain (t.bucket key), hl, h with
          | [kv], _, h => simpa using (List.mem_singleton.mp h).symm
        simp [inserted, he]
    · exact lookup_touch_of_bucket_ne hb

/-- Without room, the insertion loses a key: two others cannot both stay linked. -/
theorem touch_loses {t : Table K V} {key k₁ k₂ : K} (hn : t.lookup key = none)
    (h₁ : k₁ ≠ key) (h₂ : k₂ ≠ key) (hne : k₁ ≠ k₂)
    (hb₁ : t.bucket k₁ = t.bucket key) (hb₂ : t.bucket k₂ = t.bucket key) :
    (t.touch key).lookup k₁ = none ∨ (t.touch key).lookup k₂ = none := by
  by_contra hc
  rw [not_or, ← Ne, ← Ne, Option.ne_none_iff_exists', Option.ne_none_iff_exists'] at hc
  obtain ⟨⟨v₁, hv₁⟩, ⟨v₂, hv₂⟩⟩ := hc
  -- Both pairs would be the last pair of the old chain.
  rw [lookup_eq_some_iff, bucket_touch, chain_touch_of_notMem hn, hb₁] at hv₁
  rw [lookup_eq_some_iff, bucket_touch, chain_touch_of_notMem hn, hb₂] at hv₂
  simp only [Function.update_self, inserted, List.mem_cons,
    Option.mem_toList] at hv₁ hv₂
  rcases hv₁ with he | hv₁
  · exact h₁ (congrArg Prod.fst he)
  rcases hv₂ with he | hv₂
  · exact h₂ (congrArg Prod.fst he)
  rw [hv₁] at hv₂
  exact hne (congrArg Prod.fst (Option.some.inj hv₂))

/-- What a touch does to another key. -/
theorem lookup_touch_of_ne {t : Table K V} {key k : K} (hk : k ≠ key) :
    (t.touch key).lookup k = if t.Drops key k then none else t.lookup k := by
  cases hn : t.lookup key with
  | some w => simp [touch_of_mem, Drops, hn]
  | none =>
    by_cases hb : t.bucket k = t.bucket key
    · have htouch : (t.touch key).lookup k =
          ((t.inserted key).find? fun kv ↦ decide (kv.1 = k)).map Prod.snd := by
        rw [lookup, bucket_touch, chain_touch_of_notMem hn, hb, Function.update_self]
      have hold : t.lookup k =
          ((t.chain (t.bucket key)).find? fun kv ↦ decide (kv.1 = k)).map Prod.snd := by
        rw [lookup, hb]
      have hd := t.distinct (t.bucket key)
      rcases List.eq_nil_or_concat' (t.chain (t.bucket key)) with hc | ⟨L, kv, hc⟩
      · rw [htouch, hold, inserted, hc]
        simp [Ne.symm hk]
      · have hlast : (t.inserted key).find? (fun kv ↦ decide (kv.1 = k)) =
            [kv].find? fun kv ↦ decide (kv.1 = k) := by
          rw [inserted, hc, List.getLast?_concat, Option.toList_some,
            List.find?_cons_of_neg (by simpa using Ne.symm hk)]
        rw [hc, List.map_append, List.nodup_append] at hd
        rw [htouch, hold, hlast, hc, List.find?_append]
        split
        · next hdrop =>
          have hm := hdrop.2
          rw [hc, List.dropLast_concat] at hm
          have hne : kv.1 ≠ k := fun h ↦ hd.2.2 k hm kv.1 (by simp) h.symm
          simp [hne]
        · next hkeep =>
          have hnot : L.find? (fun kv ↦ decide (kv.1 = k)) = none := by
            rw [List.find?_eq_none]
            intro x hx h
            refine hkeep ⟨by simp [hn], ?_⟩
            rw [hc, List.dropLast_concat]
            exact List.mem_map.mpr ⟨x, hx, by simpa using h⟩
          rw [hnot, Option.none_or]
    · rw [lookup_touch_of_bucket_ne hb, if_neg]
      rintro ⟨-, hm⟩
      obtain ⟨kv, hkv, rfl⟩ := List.mem_map.mp hm
      exact hb (t.placed _ kv (List.dropLast_subset _ hkv))

end Touch

/-- A store through the reference that `operator[]` returned for a key. -/
def update (t : Table K V) (key : K) (f : V → V) : Table K V :=
  t.setChain (t.bucket key)
    ((t.chain (t.bucket key)).map fun kv ↦ if kv.1 = key then (kv.1, f kv.2) else kv)
    (by
      intro kv hm
      obtain ⟨kv', hm', rfl⟩ := List.mem_map.mp hm
      split
      · exact t.placed _ kv' hm'
      · exact t.placed _ kv' hm')
    (by
      have he : ((t.chain (t.bucket key)).map fun kv ↦
          if kv.1 = key then (kv.1, f kv.2) else kv).map Prod.fst =
            (t.chain (t.bucket key)).map Prod.fst := by
        rw [List.map_map]
        apply List.map_congr_left
        intro kv _
        simp only [Function.comp_apply]
        split <;> rfl
      rw [he]
      exact t.distinct _)

omit [DecidableEq K] in
private theorem key_ne_of_split {t : Table K V} {key : K} {v : V} {pre post : List (K × V)}
    (h : t.chain (t.bucket key) = pre ++ (key, v) :: post) :
    (∀ kv ∈ pre, kv.1 ≠ key) ∧ ∀ kv ∈ post, kv.1 ≠ key := by
  have hd := t.distinct (t.bucket key)
  rw [h, List.map_append, List.map_cons, List.nodup_append, List.nodup_cons] at hd
  obtain ⟨_, ⟨hpost, _⟩, hpre⟩ := hd
  constructor
  · intro kv hm he
    exact hpre kv.1 (List.mem_map.mpr ⟨kv, hm, rfl⟩) key (by simp) he
  · intro kv hm he
    exact hpost (List.mem_map.mpr ⟨kv, hm, he⟩)

/-- A store rewrites one pair of its bucket in place. -/
theorem chain_update_split {t : Table K V} {key : K} {v : V} {pre post : List (K × V)}
    (h : t.chain (t.bucket key) = pre ++ (key, v) :: post) (f : V → V) :
    (t.update key f).chain (t.bucket key) = pre ++ (key, f v) :: post := by
  obtain ⟨hpre, hpost⟩ := key_ne_of_split h
  simp only [update, chain_setChain, Function.update_self, h, List.map_append, List.map_cons,
    if_true]
  have hkeep : ∀ xs : List (K × V), (∀ kv ∈ xs, kv.1 ≠ key) →
      (xs.map fun kv ↦ if kv.1 = key then (kv.1, f kv.2) else kv) = xs := by
    intro xs hxs
    conv_rhs => rw [← List.map_id xs]
    exact List.map_congr_left fun kv hkv ↦ by simp [hxs kv hkv]
  rw [hkeep pre hpre, hkeep post hpost]

@[simp] theorem bucket_update (t : Table K V) (key : K) (f : V → V) :
    (t.update key f).bucket = t.bucket := rfl

/-- A store changes the value of its own key only. -/
theorem lookup_update (t : Table K V) (key k : K) (f : V → V) :
    (t.update key f).lookup k = if k = key then (t.lookup k).map f else t.lookup k := by
  by_cases hb : t.bucket k = t.bucket key
  · apply Option.ext
    intro v
    rw [lookup_eq_some_iff, bucket_update, hb]
    simp only [update, chain_setChain, Function.update_self, List.mem_map]
    split
    · next h =>
      subst k
      simp only [Option.map_eq_some_iff, lookup_eq_some_iff]
      constructor
      · rintro ⟨⟨k, w⟩, hm, he⟩
        split at he
        · next hk =>
          cases he
          exact ⟨w, hm, rfl⟩
        · next hk => exact absurd (congrArg Prod.fst he) hk
      · rintro ⟨w, hm, rfl⟩
        exact ⟨(key, w), hm, by simp⟩
    · next h =>
      rw [lookup_eq_some_iff, hb]
      constructor
      · rintro ⟨⟨k', w⟩, hm, he⟩
        split at he
        · next hk => exact absurd ((congrArg Prod.fst he).symm.trans hk) h
        · exact he ▸ hm
      · intro hm
        exact ⟨(k, v), hm, by simp [h]⟩
  · have hk : k ≠ key := fun he ↦ hb (by rw [he])
    rw [if_neg hk]
    apply lookup_congr (by simp)
    simp [update, hb]

/-- `erase` unlinks the pair of its key. -/
def erase (t : Table K V) (key : K) : Table K V :=
  t.setChain (t.bucket key) ((t.chain (t.bucket key)).filter (fun kv ↦ decide (kv.1 ≠ key)))
    (fun kv hm ↦ t.placed _ kv (List.mem_of_mem_filter hm))
    ((t.distinct _).sublist (List.filter_sublist.map _))

/-- `erase` takes the pair of its key out of every bucket that has it, and no other pair. -/
theorem chain_erase (t : Table K V) (key : K) (i : Nat) :
    (t.erase key).chain i = (t.chain i).filter (fun kv ↦ decide (kv.1 ≠ key)) := by
  by_cases hi : i = t.bucket key
  · subst i
    simp only [erase, chain_setChain, Function.update_self]
  · simp only [erase, chain_setChain, Function.update_of_ne hi]
    refine (List.filter_eq_self.mpr fun kv hkv ↦ ?_).symm
    rw [decide_eq_true_eq]
    intro hk
    exact hi (hk ▸ (t.placed i kv hkv).symm)

/-- A store keeps every other bucket. -/
theorem chain_update_of_ne {t : Table K V} {key : K} {i : Nat} (hi : i ≠ t.bucket key)
    (f : V → V) : (t.update key f).chain i = t.chain i := by
  simp [update, hi]

@[simp] theorem bucket_erase (t : Table K V) (key : K) : (t.erase key).bucket = t.bucket := rfl

/-- Erasing a key removes it and no other. -/
theorem lookup_erase (t : Table K V) (key k : K) :
    (t.erase key).lookup k = if k = key then none else t.lookup k := by
  by_cases hb : t.bucket k = t.bucket key
  · apply Option.ext
    intro v
    rw [lookup_eq_some_iff, bucket_erase, hb]
    simp only [erase, chain_setChain, Function.update_self, List.mem_filter,
      decide_eq_true_eq]
    split
    · next h => simp [h]
    · next h => rw [lookup_eq_some_iff, hb]; simp [h]
  · have hk : k ≠ key := fun he ↦ hb (by rw [he])
    rw [if_neg hk]
    apply lookup_congr (by simp)
    simp [erase, hb]

end Table
end Orfos.Lib
