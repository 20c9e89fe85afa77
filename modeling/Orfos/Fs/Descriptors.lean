import Mathlib.Data.Finset.Card
import Mathlib.Data.Fintype.Basic
import Orfos.Fs.Virtio

/-!
# The descriptors of the disk

Every descriptor is free or belongs to the chain of one process. A chain has three descriptors,
so the number of free ones is 2, 5 or 8 whenever a process starts to allocate: its first two
allocations never fail. This holds for any number of processes, whatever buffers they use.
-/

namespace Orfos.Fs.Virtio

open Orfos.Base

variable {τ β : Type}

namespace Disk

/-- The disk with some descriptors allocated. -/
def without (l : List (Fin NUM_DESCS)) (d : Disk β) : Disk β :=
  { d with free := fun i ↦ if i ∈ l then false else d.free i }

/-- The disk with some descriptors freed. -/
def freed (l : List (Fin NUM_DESCS)) (d : Disk β) : Disk β :=
  { d with
    descriptor := fun i ↦ if i ∈ l then ⟨.null, 0, 0, 0⟩ else d.descriptor i
    free := fun i ↦ if i ∈ l then true else d.free i }

/-- `d` holds the chain of a request. -/
structure Linked (d : Disk β) (buf : β) (op : Transfer) (x : Index) : Prop where
  head : d.descriptor x.head = ⟨.ops x.head, 16, VRING_DESC_F_NEXT, x.data.val.toUInt16⟩
  data : d.descriptor x.data = ⟨.data buf, BLOCK_SIZE.toUInt32,
    (if op.write then 0 else VRING_DESC_F_WRITE) ||| VRING_DESC_F_NEXT, x.status.val.toUInt16⟩
  status : d.descriptor x.status = ⟨.status x.head, 1, VRING_DESC_F_WRITE, 0⟩
  ops : d.ops x.head = ⟨if op.write then VIRTIO_BLK_T_OUT else VIRTIO_BLK_T_IN, 0,
    op.sector⟩

variable {d : Disk β} {i : Fin NUM_DESCS} {l : List (Fin NUM_DESCS)} {x : Index}

theorem freeDescriptor_eq (h : d.free i = false) : freeDescriptor i d = .ok (d.freed [i]) := by
  rw [freeDescriptor, dif_pos i.isLt, h, if_neg (by decide), freed]
  congr 2
  · funext j
    by_cases hj : j = i <;> simp [hj]
  · funext j
    by_cases hj : j = i <;> simp [hj]

theorem freed_freed (d : Disk β) (l l' : List (Fin NUM_DESCS)) :
    (d.freed l).freed l' = d.freed (l ++ l') := by
  unfold freed
  congr 1
  · funext j
    by_cases hj : j ∈ l <;> by_cases hj' : j ∈ l' <;> simp [hj, hj']
  · funext j
    by_cases hj : j ∈ l <;> by_cases hj' : j ∈ l' <;> simp [hj, hj']

/-- Different descriptors that are not free may be freed one after the other. -/
theorem freeAll_eq (hn : l.Nodup) (h : ∀ i ∈ l, d.free i = false) :
    freeAll l d = .ok (d.freed l) := by
  induction l generalizing d with
  | nil => simp [freeAll, freed]
  | cons i l ih =>
    obtain ⟨hi, hn⟩ := List.nodup_cons.mp hn
    rw [freeAll, freeDescriptor_eq (h i (by simp))]
    change freeAll l (d.freed [i]) = _
    rw [ih hn fun j hj ↦ ?_, freed_freed]
    · rfl
    · have hne : j ≠ i := fun he ↦ hi (he ▸ hj)
      simp [freed, hne, h j (by simp [hj])]

/-- What `allocateDescriptor` does. -/
theorem allocateDescriptor_cases (d : Disk β) :
    (∃ i, d.free i = true ∧ allocateDescriptor d = (some i, d.without [i])) ∨
      (∀ i, d.free i = false) ∧ allocateDescriptor d = (none, d) := by
  unfold allocateDescriptor
  cases hf : (List.finRange NUM_DESCS).find? d.free with
  | none =>
    refine .inr ⟨fun i ↦ ?_, rfl⟩
    have := List.find?_eq_none.mp hf i (List.mem_finRange i)
    simpa using this
  | some i =>
    refine .inl ⟨i, List.find?_some hf, ?_⟩
    have hfree : Function.update d.free i false = fun j ↦ if j ∈ [i] then false else d.free j := by
      funext j
      by_cases hj : j = i <;> simp [hj]
    rw [without, ← hfree]

theorem toUInt16_toNat (i : Fin NUM_DESCS) : i.val.toUInt16.toNat = i.val := by
  revert i
  decide

/-- A round of `freeChain` that is not the last. -/
theorem freeChainFrom_next {n : Nat} {j : Fin NUM_DESCS} (h : d.free i = false)
    (hf : (d.descriptor i).flags &&& VRING_DESC_F_NEXT ≠ 0)
    (hj : (d.descriptor i).next = j.val.toUInt16) :
    freeChainFrom (n + 1) i d = freeChainFrom n j (d.freed [i]) := by
  rw [freeChainFrom, dif_pos i.isLt, freeDescriptor_eq h, ← toUInt16_toNat j, ← hj]
  exact if_pos hf

theorem freeChainFrom_last {n : Nat} (h : d.free i = false)
    (hf : (d.descriptor i).flags &&& VRING_DESC_F_NEXT = 0) :
    freeChainFrom (n + 1) i d = .ok (d.freed [i]) := by
  rw [freeChainFrom, dif_pos i.isLt, freeDescriptor_eq h]
  exact if_neg (not_not.mpr hf)

/-- `freeChain` frees the three descriptors of a chain. -/
theorem freeChain_eq {buf : β} {op : Transfer} (h : Linked d buf op x)
    (hn : x.toList.Nodup) (hfree : ∀ i ∈ x.toList, d.free i = false) :
    freeChain x.head d = .ok (d.freed x.toList) := by
  obtain ⟨hhead, hdata⟩ := List.nodup_cons.mp hn
  simp only [Index.toList, List.mem_cons, List.not_mem_nil, or_false, not_or] at hhead hfree
  have hds : x.data ≠ x.status := by simpa using hdata
  have hd : (d.freed [x.head]).descriptor x.data = d.descriptor x.data := by
    simp [freed, Ne.symm hhead.1]
  have hs : (d.freed ([x.head] ++ [x.data])).descriptor x.status = d.descriptor x.status := by
    simp [freed, Ne.symm hhead.2, Ne.symm hds]
  rw [freeChain, freeChainFrom_next (hfree x.head (.inl rfl)) (j := x.data), freeChainFrom_next
    (j := x.status), freed_freed, freeChainFrom_last, freed_freed]
  · rfl
  · simp [freed, Ne.symm hhead.2, Ne.symm hds, hfree x.status]
  · rw [hs, h.status]
    change VRING_DESC_F_WRITE &&& VRING_DESC_F_NEXT = 0
    decide
  · simp [freed, Ne.symm hhead.1, hfree x.data]
  · rw [hd, h.data]
    change ((if op.write then 0 else VRING_DESC_F_WRITE) ||| VRING_DESC_F_NEXT) &&&
      VRING_DESC_F_NEXT ≠ 0
    cases op.write <;> decide
  · rw [hd, h.data]
  · rw [h.head]
    change VRING_DESC_F_NEXT &&& VRING_DESC_F_NEXT ≠ 0
    decide
  · rw [h.head]

theorem without_without (d : Disk β) (l l' : List (Fin NUM_DESCS)) :
    (d.without l).without l' = d.without (l ++ l') := by
  unfold without
  congr 1
  funext j
  by_cases hj : j ∈ l <;> by_cases hj' : j ∈ l' <;> simp [hj, hj']

/-- The number of free descriptors. -/
def room (d : Disk β) : Nat := (Finset.univ.filter fun i ↦ d.free i = true).card

theorem room_without (hn : l.Nodup) (h : ∀ i ∈ l, d.free i = true) :
    (d.without l).room + l.length = d.room := by
  have hset : (Finset.univ.filter fun i ↦ (d.without l).free i = true) =
      (Finset.univ.filter fun i ↦ d.free i = true) \ l.toFinset := by
    ext i
    simp only [without, Finset.mem_filter, Finset.mem_univ, true_and, Finset.mem_sdiff,
      List.mem_toFinset]
    by_cases hi : i ∈ l <;> simp [hi]
  have hsub : l.toFinset ⊆ Finset.univ.filter fun i ↦ d.free i = true := by
    intro i hi
    simpa using h i (List.mem_toFinset.mp hi)
  have hle := Finset.card_le_card hsub
  rw [room, hset, Finset.card_sdiff_of_subset hsub, List.toFinset_card_of_nodup hn]
  rw [List.toFinset_card_of_nodup hn] at hle
  exact Nat.sub_add_cancel hle

theorem room_freed (hn : l.Nodup) (h : ∀ i ∈ l, d.free i = false) :
    (d.freed l).room = d.room + l.length := by
  have hset : (Finset.univ.filter fun i ↦ (d.freed l).free i = true) =
      (Finset.univ.filter fun i ↦ d.free i = true) ∪ l.toFinset := by
    ext i
    simp only [freed, Finset.mem_filter, Finset.mem_univ, true_and, Finset.mem_union,
      List.mem_toFinset]
    by_cases hi : i ∈ l <;> simp [hi]
  have hdisj : Disjoint (Finset.univ.filter fun i ↦ d.free i = true) l.toFinset := by
    rw [Finset.disjoint_right]
    intro i hi hmem
    rw [Finset.mem_filter, h i (List.mem_toFinset.mp hi)] at hmem
    cases hmem.2
  rw [room, hset, Finset.card_union_of_disjoint hdisj, List.toFinset_card_of_nodup hn]
  rfl

theorem room_eq_zero (h : ∀ i, d.free i = false) : d.room = 0 := by
  rw [room, Finset.card_eq_zero]
  ext i
  simp [h i]

/-- A round of the allocation loop: three descriptors, or none if there were only two. -/
theorem allocateFrom_three (h : 2 ≤ d.room) :
    (∃ x : Index, x.toList.Nodup ∧ (∀ i ∈ x.toList, d.free i = true) ∧
      allocateFrom 3 [] d = .ok (true, x.toList, d.without x.toList)) ∨
      ∃ i j, i ≠ j ∧ d.free i = true ∧ d.free j = true ∧
        allocateFrom 3 [] d = .ok (false, [i, j], (d.without [i, j]).freed [i, j]) := by
  rcases allocateDescriptor_cases d with ⟨i, hi, hd⟩ | ⟨hnone, -⟩
  · have hroom : (d.without [i]).room + 1 = d.room := room_without (by simp) (by simpa using hi)
    rcases allocateDescriptor_cases (d.without [i]) with ⟨j, hj, hd'⟩ | ⟨hnone, -⟩
    · rw [without_without] at hd'
      have hij : j ≠ i ∧ d.free j = true := by
        by_cases he : j = i <;> simp_all [without]
      rcases allocateDescriptor_cases (d.without ([i] ++ [j])) with ⟨k, hk, hd''⟩ | ⟨hnone, hd''⟩
      · rw [without_without] at hd''
        have hk' : k ≠ i ∧ k ≠ j ∧ d.free k = true := by
          by_cases hki : k = i <;> by_cases hkj : k = j <;> simp_all [without]
        refine .inl ⟨⟨i, j, k⟩, ?_, ?_, ?_⟩
        · simp [Index.toList, Ne.symm hij.1, Ne.symm hk'.1, Ne.symm hk'.2.1]
        · simp [Index.toList, hi, hij.2, hk'.2.2]
        · rw [allocateFrom, hd]
          change allocateFrom 2 [i] (d.without [i]) = _
          rw [allocateFrom, hd']
          change allocateFrom 1 [i, j] (d.without ([i] ++ [j])) = _
          rw [allocateFrom, hd'']
          rfl
      · refine .inr ⟨i, j, Ne.symm hij.1, hi, hij.2, ?_⟩
        have hfree := freeAll_eq (d := d.without [i, j]) (l := [i, j])
          (by simp [Ne.symm hij.1]) (by simp [without])
        rw [allocateFrom, hd]
        change allocateFrom 2 [i] (d.without [i]) = _
        rw [allocateFrom, hd']
        change allocateFrom 1 [i, j] (d.without ([i] ++ [j])) = _
        rw [allocateFrom, hd'']
        change (freeAll [i, j] (d.without [i, j])).map _ = _
        rw [hfree]
        rfl
    · have := room_eq_zero hnone
      omega
  · have := room_eq_zero hnone
    omega

end Disk

/-! ### Chains -/

/-- The descriptors of a process. -/
def Pc.index : Pc β → Option Index
  | .allocated _ _ x | .prepared _ _ x | .stored _ _ x | .waiting _ _ x _ | .testing _ _ x _ =>
    some x
  | _ => none

/-- The request in the descriptors of a process, once they are filled in. -/
def Pc.sent : Pc β → Option (β × Transfer × Index)
  | .prepared buf op x | .stored buf op x | .waiting buf op x _
  | .testing buf op x _ => some (buf, op, x)
  | _ => none

theorem Pc.index_of_sent {p : Pc β} {buf : β} {op : Transfer} {x : Index}
    (h : p.sent = some (buf, op, x)) : p.index = some x := by
  cases p <;> cases h <;> rfl

/-- The free descriptors and those of the processes are all of them, each once. -/
structure Owned (d : Disk β) (own : τ → Option Index) : Prop where
  nodup : ∀ t x, own t = some x → x.toList.Nodup
  held : ∀ t x, own t = some x → ∀ i ∈ x.toList, d.free i = false
  apart : ∀ t t' x x', own t = some x → own t' = some x' →
    ∀ i, i ∈ x.toList → i ∈ x'.toList → t = t'
  cover : ∀ i, d.free i = false → ∃ t x, own t = some x ∧ i ∈ x.toList
  room : d.room % 3 = 2

section

variable [DecidableEq τ] {d d' : Disk β} {own : τ → Option Index} {t : τ} {x : Index}

omit [DecidableEq τ] in
theorem Owned.two_le (h : Owned d own) : 2 ≤ d.room := by
  have := h.room
  omega

/-- A process gets three descriptors. -/
theorem Owned.without (h : Owned d own) (ht : own t = none) (hn : x.toList.Nodup)
    (hfree : ∀ i ∈ x.toList, d.free i = true) :
    Owned (d.without x.toList) (Function.update own t (some x)) := by
  have hroom := Disk.room_without hn hfree
  have hnot : ∀ t' x', own t' = some x' → ∀ i ∈ x'.toList, i ∉ x.toList := by
    intro t' x' ht' i hi hx
    have := h.held t' x' ht' i hi
    rw [hfree i hx] at this
    cases this
  refine ⟨?_, ?_, ?_, ?_, ?_⟩
  · intro t' x' h'
    by_cases he : t' = t
    · subst he
      rw [Function.update_self, Option.some.injEq] at h'
      exact h' ▸ hn
    · rw [Function.update_of_ne he] at h'
      exact h.nodup t' x' h'
  · intro t' x' h' i hi
    by_cases he : t' = t
    · subst he
      rw [Function.update_self, Option.some.injEq] at h'
      subst h'
      simp [Disk.without, hi]
    · rw [Function.update_of_ne he] at h'
      simp [Disk.without, h.held t' x' h' i hi]
  · intro t₁ t₂ x₁ x₂ h₁ h₂ i hi₁ hi₂
    by_cases he₁ : t₁ = t <;> by_cases he₂ : t₂ = t
    · rw [he₁, he₂]
    · subst he₁
      rw [Function.update_self, Option.some.injEq] at h₁
      rw [Function.update_of_ne he₂] at h₂
      exact absurd (h₁ ▸ hi₁) (hnot t₂ x₂ h₂ i hi₂)
    · subst he₂
      rw [Function.update_self, Option.some.injEq] at h₂
      rw [Function.update_of_ne he₁] at h₁
      exact absurd (h₂ ▸ hi₂) (hnot t₁ x₁ h₁ i hi₁)
    · rw [Function.update_of_ne he₁] at h₁
      rw [Function.update_of_ne he₂] at h₂
      exact h.apart t₁ t₂ x₁ x₂ h₁ h₂ i hi₁ hi₂
  · intro i hi
    by_cases hx : i ∈ x.toList
    · exact ⟨t, x, Function.update_self .., hx⟩
    · obtain ⟨t', x', ht', hi'⟩ := h.cover i (by simpa [Disk.without, hx] using hi)
      have hne : t' ≠ t := by
        rintro rfl
        rw [ht] at ht'
        cases ht'
      exact ⟨t', x', by rw [Function.update_of_ne hne, ht'], hi'⟩
  · have hlen : x.toList.length = 3 := rfl
    have := h.room
    omega

/-- A process gives its descriptors back. -/
theorem Owned.freed (h : Owned d own) (ht : own t = some x) :
    Owned (d.freed x.toList) (Function.update own t none) := by
  have hroom := Disk.room_freed (h.nodup t x ht) (h.held t x ht)
  have hold : ∀ {t' x'}, Function.update own t none t' = some x' → t' ≠ t ∧ own t' = some x' := by
    intro t' x' h'
    by_cases he : t' = t
    · subst he
      rw [Function.update_self] at h'
      cases h'
    · rw [Function.update_of_ne he] at h'
      exact ⟨he, h'⟩
  refine ⟨?_, ?_, ?_, ?_, ?_⟩
  · exact fun t' x' h' ↦ h.nodup t' x' (hold h').2
  · intro t' x' h' i hi
    obtain ⟨hne, h'⟩ := hold h'
    have hx : i ∉ x.toList := fun hx ↦ hne (h.apart t' t x' x h' ht i hi hx)
    simp [Disk.freed, hx, h.held t' x' h' i hi]
  · exact fun t₁ t₂ x₁ x₂ h₁ h₂ ↦ h.apart t₁ t₂ x₁ x₂ (hold h₁).2 (hold h₂).2
  · intro i hi
    have hx : i ∉ x.toList := fun hx ↦ by simp [Disk.freed, hx] at hi
    obtain ⟨t', x', ht', hi'⟩ := h.cover i (by simpa [Disk.freed, hx] using hi)
    have hne : t' ≠ t := by
      rintro rfl
      rw [ht, Option.some.injEq] at ht'
      exact hx (ht' ▸ hi')
    exact ⟨t', x', by rw [Function.update_of_ne hne, ht'], hi'⟩
  · have hlen : x.toList.length = 3 := rfl
    have := h.room
    omega

omit [DecidableEq τ] in
theorem Owned.congr {own' : τ → Option Index} (h : Owned d own) (hd : d'.free = d.free)
    (ho : own' = own) : Owned d' own' := by
  subst ho
  refine ⟨h.nodup, ?_, h.apart, ?_, ?_⟩
  · rw [hd]
    exact h.held
  · rw [hd]
    exact h.cover
  · rw [Disk.room, hd]
    exact h.room

end

namespace Disk

variable {d d' : Disk β} {buf : β} {op : Transfer} {x : Index}

theorem Linked.congr (h : d.Linked buf op x)
    (hd : ∀ i ∈ x.toList, d'.descriptor i = d.descriptor i) (ho : d'.ops = d.ops) :
    d'.Linked buf op x := by
  refine ⟨?_, ?_, ?_, ?_⟩
  · rw [hd _ (by simp [Index.toList]), h.head]
  · rw [hd _ (by simp [Index.toList]), h.data]
  · rw [hd _ (by simp [Index.toList]), h.status]
  · rw [ho, h.ops]

/-- `diskrw` links its three descriptors. -/
theorem prepare_linked (d : Disk β) (hn : x.toList.Nodup) :
    (d.prepare buf op x).Linked buf op x := by
  simp only [Index.toList, List.nodup_cons, List.mem_cons, List.not_mem_nil, or_false, not_or,
    not_false_eq_true, List.nodup_nil, and_true] at hn
  obtain ⟨⟨hhd, hhs⟩, hds⟩ := hn
  refine ⟨?_, ?_, ?_, ?_⟩
  · simp [prepare, Function.update_of_ne hhs, Function.update_of_ne hhd]
  · simp [prepare, Function.update_of_ne hds]
  · simp [prepare]
  · simp [prepare]

/-- The chains of the others stay as they are. -/
theorem Linked.prepare (h : d.Linked buf op x) {buf' : β} {op' : Transfer} {x' : Index}
    (hx : ∀ i ∈ x.toList, i ∉ x'.toList) :
    (d.prepare buf' op' x').Linked buf op x := by
  simp only [Index.toList, List.mem_cons, List.not_mem_nil, or_false, not_or] at hx
  have hdesc : ∀ i, i = x.head ∨ i = x.data ∨ i = x.status →
      (d.prepare buf' op' x').descriptor i = d.descriptor i := by
    intro i hi
    obtain ⟨h₁, h₂, h₃⟩ := hx i hi
    simp [Disk.prepare, Function.update_of_ne h₁, Function.update_of_ne h₂,
      Function.update_of_ne h₃]
  refine ⟨?_, ?_, ?_, ?_⟩
  · rw [hdesc _ (.inl rfl), h.head]
  · rw [hdesc _ (.inr (.inl rfl)), h.data]
  · rw [hdesc _ (.inr (.inr rfl)), h.status]
  · simp [Disk.prepare, Function.update_of_ne (hx _ (.inl rfl)).1, h.ops]

end Disk

/-! ### Runs -/

/-- A fault of `diskInterrupt`. -/
def Fault.ofHandler (f : Fault) : Prop := f = .id ∨ f = .status ∨ f = .null

variable [DecidableEq τ]

namespace Machine

/-- What holds of the descriptors between the steps. -/
structure Sound (s : Machine τ β) : Prop where
  owned : Owned s.disk fun t ↦ (s.pc t).index
  linked : ∀ t buf op x, (s.pc t).sent = some (buf, op, x) →
    s.disk.Linked buf op x
  fault : ∀ f, s.fault = some f → f.ofHandler

variable {s s' : Machine τ β} {t : τ} {l : Pc β}

theorem index_goto (s : Machine τ β) (t : τ) (l : Pc β) :
    (fun t' ↦ ((s.goto t l).pc t').index) =
      Function.update (fun t' ↦ (s.pc t').index) t l.index := by
  funext t'
  by_cases he : t' = t
  · subst he
    simp [goto]
  · simp [goto, Function.update_of_ne he]

/-- What a step does not change for the process that takes it, it changes for nobody. -/
theorem update_same {α : Type} (f : Pc β → α) (h : f l = f (s.pc t)) (t' : τ) :
    f (Function.update s.pc t l t') = f (s.pc t') := by
  by_cases he : t' = t
  · subst he
    rw [Function.update_self, h]
  · rw [Function.update_of_ne he]

omit [DecidableEq τ] in
/-- A step that leaves the descriptors alone. -/
theorem Sound.congr (h : s.Sound) (hfree : s'.disk.free = s.disk.free)
    (hdesc : s'.disk.descriptor = s.disk.descriptor) (hops : s'.disk.ops = s.disk.ops)
    (hindex : ∀ t, (s'.pc t).index = (s.pc t).index) (hsent : ∀ t, (s'.pc t).sent = (s.pc t).sent)
    (hfault : ∀ f, s'.fault = some f → f.ofHandler) : s'.Sound := by
  refine ⟨h.owned.congr hfree (funext hindex), ?_, hfault⟩
  intro t buf op x ht
  rw [hsent] at ht
  exact (h.linked t buf op x ht).congr (fun i _ ↦ by rw [hdesc]) hops

/-- The allocation loop takes three free descriptors or leaves them all. -/
theorem Sound.allocate (h : s.Sound) {buf : β} {op : Transfer}
    (hpc : s.pc t = .allocating buf op) : (s.allocate t buf op).Sound := by
  have hindex : (s.pc t).index = none := by rw [hpc]; rfl
  have hkeep : ∀ t' x', (s.pc t').index = some x' → ∀ i ∈ x'.toList, s.disk.free i = false :=
    h.owned.held
  rcases Disk.allocateFrom_three h.owned.two_le with ⟨x, hn, hfree, hd⟩ | ⟨i, j, hij, hi, hj, hd⟩
  · have hs : s.allocate t buf op =
        { s with disk := s.disk.without x.toList }.goto t (.allocated buf op x) := by
      rw [Machine.allocate, hd]
      rfl
    rw [hs]
    refine ⟨?_, ?_, h.fault⟩
    · rw [index_goto]
      exact h.owned.without hindex hn hfree
    · intro t' buf' op' x' ht'
      have hne : t' ≠ t := by
        rintro rfl
        simp [goto, Pc.sent] at ht'
      simp only [goto, Function.update_of_ne hne] at ht'
      exact (h.linked t' buf' op' x' ht').congr (fun _ _ ↦ rfl) rfl
  · have hs : s.allocate t buf op =
        { s with disk := (s.disk.without [i, j]).freed [i, j] }.release t
          (.entering buf op) := by
      rw [Machine.allocate, hd]
    have hback : ((s.disk.without [i, j]).freed [i, j]).free = s.disk.free := by
      funext k
      by_cases hk : k ∈ [i, j]
      · have htrue : s.disk.free k = true := by
          simp only [List.mem_cons, List.not_mem_nil, or_false] at hk
          rcases hk with rfl | rfl
          · exact hi
          · exact hj
        simp only [Disk.freed, if_pos hk, htrue]
      · simp only [Disk.freed, Disk.without, if_neg hk]
    rw [hs]
    refine ⟨h.owned.congr hback (funext fun t' ↦ ?_), ?_, h.fault⟩
    · exact update_same Pc.index (by rw [hindex]; rfl) t'
    · intro t' buf' op' x' ht'
      have hsent : (s.pc t').sent = some (buf', op', x') := by
        rw [← ht']
        exact (update_same Pc.sent (by rw [hpc]; rfl) t').symm
      refine (h.linked t' buf' op' x' hsent).congr (fun k hk ↦ ?_) rfl
      have hnot : k ∉ [i, j] := by
        have hfalse := hkeep t' x' (Pc.index_of_sent hsent) k hk
        simp only [List.mem_cons, List.not_mem_nil, or_false]
        rintro (rfl | rfl)
        · rw [hi] at hfalse
          cases hfalse
        · rw [hj] at hfalse
          cases hfalse
      exact if_neg hnot

omit [DecidableEq τ] in
/-- The end of `diskrw` frees the descriptors of the process. -/
theorem Sound.finish (h : s.Sound) {buf : β} {op : Transfer} {x : Index} {r : Nat}
    (hpc : s.pc t = .testing buf op x r) :
    ∃ d, s.disk.finish x = .ok d ∧ d.free = (s.disk.freed x.toList).free ∧
      d.descriptor = (s.disk.freed x.toList).descriptor ∧ d.ops = s.disk.ops ∧
        d.avail = s.disk.avail ∧ d.used = s.disk.used ∧ d.usedIndex = s.disk.usedIndex ∧
          d.info = Function.update s.disk.info x.head ⟨none, (s.disk.info x.head).status⟩ := by
  have hindex : (s.pc t).index = some x := by rw [hpc]; rfl
  have hlinked := h.linked t buf op x (by rw [hpc]; rfl)
  have heq := Disk.freeChain_eq (d := { s.disk with
      info := Function.update s.disk.info x.head ⟨none, (s.disk.info x.head).status⟩ })
    (hlinked.congr (fun _ _ ↦ rfl) rfl) (h.owned.nodup t x hindex) (h.owned.held t x hindex)
  exact ⟨_, heq, rfl, rfl, rfl, rfl, rfl, rfl, rfl⟩

/-- Taking the mutex. -/
theorem Sound.acquire (h : s.Sound) (hindex : l.index = (s.pc t).index)
    (hsent : l.sent = (s.pc t).sent) (hs : s.acquire t l = some s') : s'.Sound := by
  unfold Machine.acquire at hs
  split at hs
  · cases hs
    exact h.congr rfl rfl rfl (update_same Pc.index hindex) (update_same Pc.sent hsent) h.fault
  · cases hs

theorem Sound.prepare (h : s.Sound) {buf : β} {op : Transfer} {x : Index} {flag : β → Bool}
    (hpc : s.pc t = .allocated buf op x) :
    ({ s with
      disk := s.disk.prepare buf op x
      flag := flag }.goto t (.prepared buf op x)).Sound := by
  have hindex : (s.pc t).index = some x := by rw [hpc]; rfl
  refine ⟨h.owned.congr rfl (funext (update_same Pc.index ?_)), ?_, h.fault⟩
  · rw [hindex]
    rfl
  · intro t' buf' op' x' ht'
    by_cases he : t' = t
    · subst he
      simp only [goto, Function.update_self, Pc.sent, Option.some.injEq, Prod.mk.injEq] at ht'
      obtain ⟨rfl, rfl, rfl⟩ := ht'
      exact s.disk.prepare_linked (h.owned.nodup t' x hindex)
    · simp only [goto, Function.update_of_ne he] at ht'
      refine (h.linked t' buf' op' x' ht').prepare fun i hi hi' ↦ he ?_
      exact h.owned.apart t' t x' x (Pc.index_of_sent ht') hindex i hi hi'

theorem Sound.leave (h : s.Sound) {buf : β} {op : Transfer} {x : Index} {r : Nat} {d : Disk β}
    (hpc : s.pc t = .testing buf op x r) (hd : s.disk.finish x = .ok d) :
    ({ s with disk := d }.release t .outside).Sound := by
  have hindex : (s.pc t).index = some x := by rw [hpc]; rfl
  obtain ⟨d', hd', hfree, hdesc, hops, -⟩ := h.finish hpc
  cases hd.symm.trans hd'
  refine ⟨?_, ?_, h.fault⟩
  · exact (h.owned.freed hindex).congr hfree (index_goto _ t .outside)
  · intro t' buf' op' x' ht'
    have hne : t' ≠ t := by
      rintro rfl
      simp [release, goto, Pc.sent] at ht'
    simp only [release, goto, Function.update_of_ne hne] at ht'
    refine (h.linked t' buf' op' x' ht').congr (fun i hi ↦ ?_) hops
    have hnot : i ∉ x.toList := fun hi' ↦
      hne (h.owned.apart t' t x' x (Pc.index_of_sent ht') hindex i hi hi')
    change d.descriptor i = _
    rw [hdesc]
    exact if_neg hnot

variable [DecidableEq β]

theorem Sound.go (h : s.Sound) (hs : s.go t = some s') : s'.Sound := by
  unfold Machine.go at hs
  cases hpc : s.pc t with
  | outside =>
    rw [hpc] at hs
    cases hs
  | entering buf op =>
    rw [hpc] at hs
    exact h.acquire (by rw [hpc]; rfl) (by rw [hpc]; rfl) hs
  | allocating buf op =>
    rw [hpc] at hs
    cases hs
    exact h.allocate hpc
  | allocated buf op x =>
    rw [hpc] at hs
    cases hs
    exact h.prepare hpc
  | prepared buf op x =>
    rw [hpc] at hs
    cases hs
    exact h.congr rfl rfl rfl (update_same Pc.index (by rw [hpc]; rfl))
      (update_same Pc.sent (by rw [hpc]; rfl)) h.fault
  | stored buf op x =>
    rw [hpc] at hs
    cases hs
    exact h.congr rfl rfl rfl (update_same Pc.index (by rw [hpc]; rfl))
      (update_same Pc.sent (by rw [hpc]; rfl)) h.fault
  | waiting buf op x r =>
    rw [hpc] at hs
    exact h.acquire (by rw [hpc]; rfl) (by rw [hpc]; rfl) hs
  | testing buf op x r =>
    rw [hpc] at hs
    dsimp only at hs
    split at hs
    · cases hs
      exact h.congr rfl rfl rfl (update_same Pc.index (by rw [hpc]; rfl))
        (update_same Pc.sent (by rw [hpc]; rfl)) h.fault
    · obtain ⟨d, hd, -⟩ := h.finish hpc
      rw [hd] at hs
      cases hs
      exact h.leave hpc hd

omit [DecidableEq τ] in
theorem Sound.process (h : s.Sound) : s.process.Sound := by
  have hstop : ∀ f : Fault, f.ofHandler → (s.stop f).Sound := fun f hf ↦
    h.congr rfl rfl rfl (fun _ ↦ rfl) (fun _ ↦ rfl) fun f' hf' ↦ by
      cases hf'
      exact hf
  unfold Machine.process
  dsimp only
  split
  · split
    · exact hstop .status (.inr (.inl rfl))
    · split
      · exact hstop .null (.inr (.inr rfl))
      · exact h.congr rfl rfl rfl (fun _ ↦ rfl) (fun _ ↦ rfl) h.fault
  · exact hstop .id (.inl rfl)

/-- Every step keeps what holds of the descriptors. -/
theorem Sound.step (h : s.Sound) {e : Event τ β} (hs : s.step e = some s') : s'.Sound := by
  unfold Machine.step at hs
  split at hs
  · cases hs
  cases e with
  | call t buf block write =>
    dsimp only at hs
    split at hs
    · next hpc =>
      cases hs
      exact h.congr rfl rfl rfl (update_same Pc.index (by rw [hpc]; rfl))
        (update_same Pc.sent (by rw [hpc]; rfl)) h.fault
    · cases hs
  | go t => exact h.go hs
  | interrupt =>
    dsimp only at hs
    split at hs
    · cases hs
      exact h.congr rfl rfl rfl (fun _ ↦ rfl) (fun _ ↦ rfl) h.fault
    · cases hs
  | handle =>
    change s.handle = some s' at hs
    unfold Machine.handle at hs
    split at hs
    · split at hs
      · cases hs
        exact h.process
      · split at hs
        · cases hs
          exact h.congr rfl rfl rfl (fun _ ↦ rfl) (fun _ ↦ rfl) h.fault
        · cases hs
          exact h.congr rfl rfl rfl (fun _ ↦ rfl) (fun _ ↦ rfl) h.fault
    · cases hs
  | take =>
    change s.take = some s' at hs
    unfold Machine.take at hs
    split at hs
    · cases hs
      exact h.congr rfl rfl rfl (fun _ ↦ rfl) (fun _ ↦ rfl) h.fault
    · cases hs
  | report k =>
    change s.report k = some s' at hs
    obtain ⟨head, -, rfl⟩ := Option.map_eq_some_iff.mp hs
    exact h.congr rfl rfl rfl (fun _ ↦ rfl) (fun _ ↦ rfl) h.fault

/-- The driver after `initializeVirtio`. -/
structure Initial (s : Machine τ β) : Prop where
  free : ∀ i, s.disk.free i = true
  avail : s.disk.avail.index = 0
  used : s.disk.used.index = 0
  usedIndex : s.disk.usedIndex = 0
  lock : s.lock = none
  pc : ∀ t, s.pc t = .outside
  body : s.body = false
  deviceIndex : s.deviceIndex = 0
  heads : s.heads = []
  fault : s.fault = none
  history : s.history = ⟨[], 0, [], [], 0⟩

omit [DecidableEq τ] [DecidableEq β] in
theorem Initial.sound (h : s.Initial) : s.Sound := by
  have hnone : ∀ t, (s.pc t).index = none := fun t ↦ by rw [h.pc]; rfl
  refine ⟨⟨?_, ?_, ?_, ?_, ?_⟩, ?_, ?_⟩
  · intro t x ht
    rw [hnone] at ht
    cases ht
  · intro t x ht
    rw [hnone] at ht
    cases ht
  · intro t t' x x' ht
    rw [hnone] at ht
    cases ht
  · intro i hi
    rw [h.free] at hi
    cases hi
  · have hall : (Finset.univ.filter fun i ↦ s.disk.free i = true) = Finset.univ := by
      ext i
      simp [h.free i]
    rw [Disk.room, hall]
    rfl
  · intro t buf op x ht
    rw [h.pc] at ht
    cases ht
  · intro f hf
    rw [h.fault] at hf
    cases hf

/-- The driver after `initializeVirtio`, with the memory that it shares with the device cleared. -/
def boot : Machine τ β where
  disk :=
    { descriptor := fun _ ↦ ⟨.null, 0, 0, 0⟩
      avail := ⟨0, fun _ ↦ 0⟩
      used := ⟨0, fun _ ↦ 0⟩
      free := fun _ ↦ true
      usedIndex := 0
      info := fun _ ↦ ⟨none, 0⟩
      ops := fun _ ↦ ⟨0, 0, 0⟩ }
  flag := fun _ ↦ false
  lock := none
  pc := fun _ ↦ .outside
  body := false
  deviceIndex := 0
  heads := []
  fault := none
  history := ⟨[], 0, [], [], 0⟩

omit [DecidableEq τ] [DecidableEq β] in
theorem boot_initial : (boot : Machine τ β).Initial :=
  ⟨fun _ ↦ rfl, rfl, rfl, rfl, rfl, fun _ ↦ rfl, rfl, rfl, rfl, rfl, rfl⟩

/-- In every run: a descriptor is free or in the chain of exactly one process; every chain is
three linked descriptors; the allocation loop finds a first descriptor; nothing stops the
kernel in `diskrw`; and `freeChain` frees the three descriptors of its request. -/
theorem descriptors_partitioned {s₀ s : Machine τ β} (h₀ : s₀.Initial)
    (hr : Run Machine.step (fun _ _ ↦ True) s₀ s) :
    (∀ i, s.disk.free i = false ↔ ∃ t x, (s.pc t).index = some x ∧ i ∈ x.toList) ∧
      (∀ t t' x x' i, (s.pc t).index = some x → (s.pc t').index = some x' →
        i ∈ x.toList → i ∈ x'.toList → t = t') ∧
      (∀ t x, (s.pc t).index = some x → x.toList.Nodup) ∧
      (∀ t buf op x, (s.pc t).sent = some (buf, op, x) → s.disk.Linked buf op x) ∧
      (∀ t buf op, s.pc t = .allocating buf op → s.disk.allocateDescriptor.1 ≠ none) ∧
      (∀ f, s.fault = some f → f.ofHandler) ∧
      ∀ t buf op x r, s.pc t = .testing buf op x r →
        ∃ d, s.disk.finish x = .ok d ∧
          ∀ i, d.free i = if i ∈ x.toList then true else s.disk.free i := by
  have hsound : s.Sound := hr.invariant h₀.sound fun _ _ _ h _ hs ↦ h.step hs
  refine ⟨fun i ↦ ⟨hsound.owned.cover i, ?_⟩, ?_, hsound.owned.nodup, hsound.linked, ?_,
    hsound.fault, ?_⟩
  · rintro ⟨t, x, ht, hi⟩
    exact hsound.owned.held t x ht i hi
  · intro t t' x x' i ht ht' hi hi'
    exact hsound.owned.apart t t' x x' ht ht' i hi hi'
  · intro t buf op _ hnone
    rcases Disk.allocateDescriptor_cases s.disk with ⟨i, -, hd⟩ | ⟨hall, -⟩
    · rw [hd] at hnone
      cases hnone
    · have htwo := hsound.owned.two_le
      rw [Disk.room_eq_zero hall] at htwo
      cases htwo
  · intro t buf op x r hpc
    obtain ⟨d, hd, hfree, -⟩ := hsound.finish hpc
    exact ⟨d, hd, fun i ↦ by rw [hfree]; rfl⟩

/-- Two processes submit a request and sleep, and a third one finds only two descriptors. -/
def crowded : List (Event (Fin 3) (Fin 3)) :=
  [.call 0 0 5 false, .go 0, .go 0, .go 0, .go 0, .go 0, .go 0,
    .call 1 1 6 true, .go 1, .go 1, .go 1, .go 1, .go 1, .go 1,
    .call 2 2 7 false, .go 2, .go 2]

theorem descriptors_partitioned_crowded :
    (final Machine.step boot crowded).disk.free 6 = true ∧
    (final Machine.step boot crowded).lock = none ∧
    (∀ i, (final Machine.step boot crowded).disk.free i = false ↔
      ∃ t x, ((final Machine.step boot crowded).pc t).index = some x ∧ i ∈ x.toList) :=
  ⟨by decide +kernel, by decide +kernel,
    (descriptors_partitioned boot_initial
      (run_final (by decide +kernel) (by simp [crowded, Plays]))).1⟩

end Machine

end Orfos.Fs.Virtio
