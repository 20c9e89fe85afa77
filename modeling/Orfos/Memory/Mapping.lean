import Orfos.Memory.Tables

/-!
# Page tables as partial maps

What a table maps a page to is read off the entry of the page. `map` adds the pages of its range
and changes no other page of any table; `walk` without allocation and `walkAddress` read the
map.
-/

namespace Orfos.Memory

open Orfos.Base Orfos.Base.Radix PageTableEntry VirtualAddress

section

variable {s t : State} {roots free free' : List UInt64} {kept : UInt64 → Prop}
  {fixed : UInt64 → List (Fin 512) → Fin 512 → Prop} {r r' table q : UInt64} {n m c : Nat}

/-- A valid entry of the lowest level. -/
theorem Tables.set (h : Tables s roots kept free) (hr : r ∈ roots) {p : List (Fin 512)}
    {i : Fin 512} {w : PageTableEntry} (hp : p.length = 2)
    (hn : node child s.entries r p = some table) (hv : v w = true)
    (ht : ∀ m j, t.entries m j = if m = table ∧ j = i then w else s.entries m j)
    (hl : t.freeList = s.freeList) (hm : ∀ m, m ≠ table → t.memory m = s.memory m) :
    Grows roots kept (fun r' p' i' ↦ ¬ (r' = r ∧ p' = p ∧ i' = i)) free s t free ∧
      node child t.entries r p = some table ∧ entry child t.entries 0 r p i = w := by
  have htable : s.IsTable roots table := ⟨r, p, hr, hp.le, hn⟩
  have hsame : ∀ m j, Reach child s.entries (· ∈ roots) 2 m → (m ≠ table ∨ j ≠ i) →
      t.entries m j = s.entries m j := by
    intro m j _ hne
    rw [ht, if_neg (fun h ↦ hne.elim (fun h' ↦ h' h.1) fun h' ↦ h' h.2)]
  have hnode : ∀ {r' p'}, r' ∈ roots → p'.length ≤ 2 →
      node child t.entries r' p' = node child s.entries r' p' := fun hr' hp' ↦
    node_store h.forest hr hp hn hsame hr' hp'
  have hreach : ∀ m, t.IsTable roots m ↔ s.IsTable roots m := by
    intro m
    constructor
    · rintro ⟨r', p', hr', hp', hm'⟩
      exact ⟨r', p', hr', hp', by rw [← hnode hr' hp', hm']⟩
    · rintro ⟨r', p', hr', hp', hm'⟩
      exact ⟨r', p', hr', hp', by rw [hnode hr' hp', hm']⟩
  have hset : entry child t.entries 0 r p i = w :=
    entry_store h.forest hr hp hn hsame (by rw [ht, if_pos ⟨rfl, rfl⟩])
  have hother : ∀ r' ∈ roots, ∀ p' j, p'.length = 2 → ¬ (r' = r ∧ p' = p ∧ j = i) →
      entry child t.entries 0 r' p' j = entry child s.entries 0 r' p' j := by
    intro r' hr' p' j hp' hne
    refine entry_store_other h.forest hr hp hn hsame hr' hp' ?_
    simpa only [ne_eq, not_and_or] using hne
  refine ⟨⟨⟨?_, ?_, ?_, ?_, ?_, ?_⟩, List.suffix_refl _, hother, ?_⟩, ?_, hset⟩
  · refine h.pages.congr hl fun m hmem ↦ hm m ?_
    rintro rfl
    exact h.notFree m htable hmem
  · intro r₁ r₂ p₁ p₂ m h₁ h₂ hp₁ hp₂ hm₁ hm₂
    rw [hnode h₁ hp₁] at hm₁
    rw [hnode h₂ hp₂] at hm₂
    exact h.forest r₁ r₂ p₁ p₂ m h₁ h₂ hp₁ hp₂ hm₁ hm₂
  · exact fun m hmt ↦ h.aligned m ((hreach m).mp hmt)
  · exact fun m hmt ↦ h.notFree m ((hreach m).mp hmt)
  · intro r' hr' p' j hp' hvj
    by_cases hpos : r' = r ∧ p' = p ∧ j = i
    · obtain ⟨rfl, rfl, rfl⟩ := hpos
      rw [hset, hv] at hvj
      cases hvj
    · rw [hother r' hr' p' j hp' hpos] at hvj ⊢
      exact h.blank r' hr' p' j hp' hvj
  · exact fun m hk ↦ ⟨(h.apart m hk).1, fun hmt ↦ (h.apart m hk).2 ((hreach m).mp hmt)⟩
  · intro m hk
    refine hm m ?_
    rintro rfl
    exact (h.apart m hk).2 htable
  · rw [hnode hr hp.le, hn]

/-- The page is not one of the `c + 1` pages from `n` on in the table `r`. -/
def Outside (r : UInt64) (n c : Nat) (r' : UInt64) (p : List (Fin 512)) (i : Fin 512) : Prop :=
  ∀ j ≤ c, ¬ (r' = r ∧ p = path (n + j) 0 ∧ i = index (n + j) 0)

theorem outside_page (hn : n + c < 512 ^ 3) (hm : m < 512 ^ 3)
    (h : r' ≠ r ∨ m < n ∨ n + c < m) : Outside r n c r' (path m 0) (index m 0) := by
  rintro j hj ⟨rfl, hp, hi⟩
  simp only [path, List.cons.injEq, and_true] at hp
  have hmn : m = n + j := index_inj hm (by omega) hi hp.2 hp.1
  simp only [ne_eq, not_true_eq_false, false_or] at h
  omega

/-- What stays fixed when tables grow. -/
theorem Grows.raw (h : Grows roots kept fixed free s t free') (hr : r ∈ roots)
    (hf : fixed r (path n 0) (index n 0)) : t.raw r n = s.raw r n :=
  h.entry r hr (path n 0) (index n 0) (path_length n 0) hf

theorem Tables.raw_blank (h : Tables s roots kept free) (hr : r ∈ roots)
    (hv : v (s.raw r n) = false) : s.raw r n = 0 :=
  h.blank r hr (path n 0) (index n 0) (path_length n 0) hv

theorem State.raw_of_node (hn : node child s.entries r (path n 0) = some table) :
    s.raw r n = s.entries table (index n 0) := by
  rw [State.raw, Radix.entry, hn]
  rfl

/-- A round of the loop of `PageTable::map` on a page that is not mapped. -/
theorem PageTable.map_round {va : UInt64} (pa : UInt64) {f : UInt16} (h : Tables s roots kept free)
    (hr : r ∈ roots) (hf : f.toNat < 1024)
    (hn : node child s.entries r (path (page va) 0) = some table)
    (hv : v (s.raw r (page va)) = false) :
    let pte := PageTable.getEntry table 0 va
    let s₁ := s.store pte (s.load pte ||| f.toUInt64)
    let s₂ := s₁.store pte (s₁.load pte ||| PTE_V)
    let t := s₂.store pte (s₂.load pte ||| pa >>> 12 <<< 10)
    v (s.load pte) = false ∧ Grows roots kept (Outside r (page va) 0) free s t free ∧
      t.raw r (page va) = leaf f pa := by
  intro pte s₁ s₂ t
  have haligned := h.aligned table ⟨r, _, hr, (path_length _ _).le, hn⟩
  have hload : s.load pte = s.raw r (page va) := by
    rw [State.load_entry haligned, State.raw_of_node hn]
  have hzero : s.load pte = 0 := by rw [hload, h.raw_blank hr hv]
  have hw : s₂.load pte ||| pa >>> 12 <<< 10 = leaf f pa := by
    simp only [s₂, s₁, pte, State.load_entry haligned, State.entries_store haligned, and_self,
      if_true]
    rw [← State.load_entry haligned, hzero, leaf, UInt64.zero_or]
  have ht : ∀ m j, t.entries m j =
      if m = table ∧ j = index (page va) 0 then leaf f pa else s.entries m j := by
    intro m j
    rw [← hw]
    simp only [t]
    rw [State.entries_store haligned]
    split
    · rfl
    · next hne =>
      simp only [s₂, s₁]
      rw [State.entries_store haligned, if_neg hne, State.entries_store haligned, if_neg hne]
  obtain ⟨hgrows, -, hset⟩ := h.set hr (path_length _ _) hn (v_leaf hf) ht rfl fun m hm ↦ by
    simp only [t, s₂, s₁, pte, State.store_memory_other haligned 0 va _ hm]
  refine ⟨by rw [hload, hv], hgrows.mono fun r' p i ho hne ↦ ?_, hset⟩
  exact ho 0 (Nat.le_refl _) hne

theorem ofNat_pages_succ (j : Nat) :
    UInt64.ofNat (4096 * (j + 1)) = PAGE_SIZE + UInt64.ofNat (4096 * j) := by
  have h : UInt64.ofNat 4096 = PAGE_SIZE := rfl
  rw [Nat.mul_succ, Nat.add_comm, UInt64.ofNat_add, h]

/-- The first round of the loop of `PageTable::map`, and the rest of it. -/
theorem PageTable.mapFrom_succ {va pa last : UInt64} {f : UInt16} {fuel : Nat}
    {Q : Bool × State → Prop} (h : Tables s roots kept free) (hr : r ∈ roots)
    (hf : f.toNat < 1024) (hva : va < MAX_VIRTUAL_ADDRESS) (hv : v (s.raw r (page va)) = false)
    (hk : ∀ t free', Grows roots kept (Outside r (page va) 0) free s t free' →
      t.raw r (page va) = leaf f pa → Ends (· = Page.outOfMemory) Q
        (if va = last then .ok (true, t)
          else PageTable.mapFrom r last f fuel (va + PAGE_SIZE) (pa + PAGE_SIZE) t)) :
    Ends (· = Page.outOfMemory) Q (PageTable.mapFrom r last f (fuel + 1) va pa s) := by
  rw [PageTable.mapFrom, PageTable.walk, if_pos hva]
  refine ends_bind (PageTable.walkFrom_allocate va h hr (Nat.le_refl 2) rfl) ?_
  rintro ⟨pte, s₁⟩ ⟨m, free', hpte, hm, hgrows⟩
  cases hpte
  have hraw : s₁.raw r (page va) = s.raw r (page va) := hgrows.raw hr trivial
  obtain ⟨hfalse, hset, hleaf⟩ := PageTable.map_round pa hgrows.tables hr hf hm
    (by rw [hraw, hv])
  dsimp only
  rw [if_neg (by rw [hfalse]; decide)]
  exact hk _ free' ((hgrows.mono fun _ _ _ _ ↦ trivial).trans hset) hleaf

/-- `PageTable::map` on pages that are not mapped. -/
theorem PageTable.mapFrom_maps {va pa last : UInt64} {f : UInt16} {fuel : Nat}
    (h : Tables s roots kept free) (hr : r ∈ roots) (hf : f.toNat < 1024) (hfuel : c < fuel)
    (hva : va.toNat % 4096 = 0) (hlast : last.toNat = va.toNat + 4096 * c)
    (hmax : last.toNat < 2 ^ 38) (hv : ∀ j ≤ c, v (s.raw r (page va + j)) = false) :
    Ends (· = Page.outOfMemory)
      (fun w ↦ w.1 = true ∧ ∃ free', Grows roots kept (Outside r (page va) c) free s w.2 free' ∧
        ∀ j ≤ c, w.2.raw r (page va + j) = leaf f (pa + UInt64.ofNat (4096 * j)))
      (PageTable.mapFrom r last f fuel va pa s) := by
  induction c generalizing s va pa fuel free with
  | zero =>
    obtain ⟨fuel, rfl⟩ : ∃ k, fuel = k + 1 := ⟨fuel - 1, by omega⟩
    have heq : va = last := UInt64.toNat_inj.mp hlast.symm
    refine PageTable.mapFrom_succ h hr hf (UInt64.lt_iff_toNat_lt.mpr (heq ▸ hmax))
      (hv 0 (Nat.le_refl _)) fun t free' hgrows hleaf ↦ ?_
    rw [if_pos heq]
    refine ⟨rfl, free', hgrows, fun j hj ↦ ?_⟩
    obtain rfl := Nat.le_zero.mp hj
    rw [Nat.add_zero, hleaf, Nat.mul_zero]
    exact congrArg _ (UInt64.add_zero pa).symm
  | succ c ih =>
    obtain ⟨fuel, rfl⟩ : ∃ k, fuel = k + 1 := ⟨fuel - 1, by omega⟩
    have hne : va ≠ last := by
      rintro rfl
      omega
    have hnext : (va + PAGE_SIZE).toNat = va.toNat + 4096 := by
      rw [UInt64.toNat_add]
      exact Nat.mod_eq_of_lt (by change va.toNat + 4096 < _; omega)
    have hdef : page va = va.toNat / 4096 := rfl
    have hpage : page (va + PAGE_SIZE) = page va + 1 := by
      change (va + PAGE_SIZE).toNat / 4096 = va.toNat / 4096 + 1
      rw [hnext]
      omega
    have hlt : va < MAX_VIRTUAL_ADDRESS := UInt64.lt_iff_toNat_lt.mpr (by
      change va.toNat < 2 ^ 38
      omega)
    refine PageTable.mapFrom_succ h hr hf hlt (hv 0 (Nat.zero_le _)) fun t free' hgrows hleaf ↦ ?_
    have hraw : ∀ k, k < page va ∨ page va < k → k < 512 ^ 3 → t.raw r k = s.raw r k := by
      intro k hk hlt'
      exact hgrows.raw hr (outside_page (by omega) hlt' (by omega))
    rw [if_neg hne]
    refine (ih hgrows.tables (by omega) (by omega) (by omega) fun j hj ↦ ?_).imp ?_
    · rw [hpage, hraw _ (by omega) (by omega), Nat.add_assoc]
      exact hv (1 + j) (by omega)
    · rintro ⟨b, w⟩ ⟨hb, free'', hrest, hrange⟩
      rw [hpage] at hrest hrange
      refine ⟨hb, free'', (hgrows.mono ?_).trans (hrest.mono ?_), fun j hj ↦ ?_⟩
      · exact fun r' p i ho j hj ↦ ho j (by omega)
      · intro r' p i ho j hj
        rw [Nat.add_assoc]
        exact ho (1 + j) (by omega)
      · cases j with
        | zero =>
          have hkeep : w.raw r (page va) = t.raw r (page va) :=
            hrest.raw hr (outside_page (by omega) (by omega) (by omega))
          rw [Nat.add_zero, hkeep, hleaf, Nat.mul_zero]
          exact congrArg _ (UInt64.add_zero pa).symm
        | succ j =>
          have hj' := hrange j (by omega)
          rw [show page va + (j + 1) = page va + 1 + j by omega, hj', UInt64.add_assoc,
            ofNat_pages_succ]

/-- `PageTable::map` for a range below `MAX_VIRTUAL_ADDRESS` with no page mapped. -/
theorem PageTable.map_maps {va : UInt64} (size pa : UInt64) {f : UInt16}
    (h : Tables s roots kept free) (hr : r ∈ roots) (hf : f.toNat < 1024) (hva : va.toNat % 4096 = 0) (hsize : 0 < size.toNat)
    (hmax : va.toNat + size.toNat ≤ 2 ^ 38)
    (hv : ∀ j ≤ (size.toNat - 1) / 4096, v (s.raw r (page va + j)) = false) :
    Ends (· = Page.outOfMemory)
      (fun w ↦ w.1 = true ∧ ∃ free',
        Grows roots kept (Outside r (page va) ((size.toNat - 1) / 4096)) free s w.2 free' ∧
          ∀ j ≤ (size.toNat - 1) / 4096,
            w.2.raw r (page va + j) = leaf f (pa + UInt64.ofNat (4096 * j)))
      (PageTable.map r va size pa f s) := by
  have hend : (va + size - 1).toNat = va.toNat + size.toNat - 1 := by
    have hadd : (va + size).toNat = va.toNat + size.toNat := by
      rw [UInt64.toNat_add]
      exact Nat.mod_eq_of_lt (by omega)
    rw [UInt64.toNat_sub_of_le _ _ (UInt64.le_iff_toNat_le.mpr (by rw [hadd]; change 1 ≤ _; omega)),
      hadd]
    rfl
  have hlast : (roundDown (va + size - 1)).toNat =
      va.toNat + 4096 * ((size.toNat - 1) / 4096) := by
    rw [roundDown_toNat, hend]
    omega
  have hzero : size ≠ 0 := by
    rintro rfl
    exact absurd hsize (by decide)
  rw [PageTable.map, if_neg hzero, roundDown_of_aligned hva]
  refine PageTable.mapFrom_maps h hr hf ?_ hva hlast (by omega) hv
  change (size.toNat - 1) / 4096 < 2 ^ 26 + 1
  omega

/-- The pages that an image of `n` pages takes: its frames, and the tables of the two lower
levels. -/
def pagesFor (n : Nat) : Nat := n + (n + 511) / 512 + (n + 262143) / 262144

/-- The way to a page that is mapped is there. -/
theorem State.node_of_valid (hv : v (s.raw r n) = true) :
    node child s.entries r (path n 0) ≠ none := by
  intro hnone
  rw [State.raw, Radix.entry, hnone, Option.elim_none, v_zero] at hv
  cases hv

theorem State.missing_zero (h : node child s.entries r (path n 0) ≠ none) :
    s.missing r n 2 = 0 := by
  have h' : node child s.entries r (path n 1) ≠ none := fun hnone ↦
    h (path_none (by decide) hnone)
  rw [State.missing, State.missing, State.missing, if_neg h, if_neg h']

/-- The way to a page is the way to the page before it, except at the start of a table. -/
theorem State.missing_next (h : n = 0 ∨ v (s.raw r (n - 1)) = true) :
    s.missing r n 2 + 1 + pagesFor n ≤ pagesFor (n + 1) := by
  have hle : s.missing r n 2 ≤ 2 := s.missing_le r n 2
  rw [pagesFor, pagesFor]
  by_cases htop : n % 262144 = 0
  · omega
  · have hv := h.resolve_left fun h0 ↦ htop (by rw [h0])
    have hnode : node child s.entries r (path (n - 1) 0) ≠ none := by
      intro hnone
      rw [State.raw, Radix.entry, hnone, Option.elim_none, v_zero] at hv
      cases hv
    have hnode' : node child s.entries r (path (n - 1) 1) ≠ none := fun hnone ↦
      hnode (path_none (by decide) hnone)
    have hindex : index (n - 1) 2 = index n 2 := by
      apply Fin.ext
      change (n - 1) / 512 / 512 % 512 = n / 512 / 512 % 512
      omega
    by_cases hlow : n % 512 = 0
    · have hpath : path (n - 1) 1 = path n 1 := congrArg (fun i ↦ [i]) hindex
      rw [hpath] at hnode'
      rw [State.missing, State.missing, State.missing, if_neg hnode'] at hle ⊢
      split <;> omega
    · have hpath : path (n - 1) 0 = path n 0 := by
        rw [path, path, hindex]
        refine congrArg (fun i ↦ [_, i]) (Fin.ext ?_)
        change (n - 1) / 512 % 512 = n / 512 % 512
        omega
      rw [hpath] at hnode
      rw [State.missing_zero hnode]
      omega

/-- `PageTable::map` for one page: the assertion fails if the page is mapped, and otherwise the
page is mapped or there is no memory for the tables. -/
theorem PageTable.map_page_takes {va : UInt64} (pa : UInt64) {f : UInt16}
    (h : Tables s roots kept free) (hr : r ∈ roots) (hf : f.toNat < 1024)
    (hva : va.toNat % 4096 = 0) (hmax : va.toNat < 2 ^ 38) :
    Ends (fun e ↦ (e = PageTable.mapped ∧ v (s.raw r (page va)) = true) ∨
        (e = Page.outOfMemory ∧ free.length < s.missing r (page va) 2))
      (fun w ↦ w.1 = true ∧ v (s.raw r (page va)) = false ∧
        ∃ free', Grows roots kept (Outside r (page va) 0) free s w.2 free' ∧
          w.2.raw r (page va) = leaf f pa ∧
            free.length ≤ free'.length + s.missing r (page va) 2)
      (PageTable.map r va PAGE_SIZE pa f s) := by
  have hlast : roundDown (va + PAGE_SIZE - 1) = va := by
    have hadd : (va + PAGE_SIZE - 1).toNat = va.toNat + 4095 := by
      have hone : va + PAGE_SIZE - 1 = va + 4095 := by
        rw [UInt64.sub_eq_add_neg, UInt64.add_assoc]
        rfl
      rw [hone, UInt64.toNat_add]
      exact Nat.mod_eq_of_lt (by change va.toNat + 4095 < _; omega)
    apply UInt64.toNat_inj.mp
    rw [roundDown_toNat, hadd]
    omega
  rw [PageTable.map, if_neg (by decide), roundDown_of_aligned hva, hlast]
  change Ends _ _ (PageTable.mapFrom r va f (2 ^ 26 + 1) va pa s)
  rw [PageTable.mapFrom, PageTable.walk, if_pos (UInt64.lt_iff_toNat_lt.mpr hmax)]
  have hwalk := PageTable.walkFrom_takes va h hr (Nat.le_refl 2) rfl
  refine ends_bind (hwalk.mono fun e he ↦ .inr he) ?_
  rintro ⟨pte, s₁⟩ ⟨m, free', hpte, hm, hgrows, hcount⟩
  cases hpte
  have haligned := hgrows.tables.aligned m ⟨r, _, hr, (path_length (page va) 0).le, hm⟩
  have hraw : s₁.raw r (page va) = s.raw r (page va) := hgrows.raw hr trivial
  have hload : s₁.load (PageTable.getEntry m 0 va) = s.raw r (page va) := by
    rw [State.load_entry haligned, ← State.raw_of_node hm, hraw]
  dsimp only
  cases hv : v (s.raw r (page va)) with
  | true =>
    rw [if_pos (by rw [hload, hv])]
    exact .inl ⟨rfl, rfl⟩
  | false =>
    obtain ⟨-, hset, hleaf⟩ := PageTable.map_round pa hgrows.tables hr hf hm (by rw [hraw, hv])
    rw [if_neg (by rw [hload, hv]; decide), if_pos rfl]
    exact ⟨rfl, rfl, free', (hgrows.mono fun _ _ _ _ ↦ trivial).trans hset, hleaf, hcount⟩

theorem PageTable.map_page {va : UInt64} (pa : UInt64) {f : UInt16} (h : Tables s roots kept free)
    (hr : r ∈ roots) (hf : f.toNat < 1024) (hva : va.toNat % 4096 = 0) (hmax : va.toNat < 2 ^ 38) :
    Ends (fun e ↦ (e = PageTable.mapped ∧ v (s.raw r (page va)) = true) ∨ e = Page.outOfMemory)
      (fun w ↦ w.1 = true ∧ v (s.raw r (page va)) = false ∧
        ∃ free', Grows roots kept (Outside r (page va) 0) free s w.2 free' ∧
          w.2.raw r (page va) = leaf f pa)
      (PageTable.map r va PAGE_SIZE pa f s) := by
  refine ((PageTable.map_page_takes pa h hr hf hva hmax).mono fun e he ↦
    he.imp_right fun he ↦ he.1).imp ?_
  rintro w ⟨hw, hv, free', hgrows, hleaf, -⟩
  exact ⟨hw, hv, free', hgrows, hleaf⟩

/-- `PageTable::walk` without allocation finds the entry of a page. -/
theorem PageTable.walk_find {va : UInt64} (hr : r.toNat % 4096 = 0)
    (hva : va < MAX_VIRTUAL_ADDRESS) :
    ∃ pte, PageTable.walk r va false s = .ok (pte, s) ∧
      pte.elim 0 s.load = s.raw r (page va) := by
  refine ⟨_, by rw [PageTable.walk, if_pos hva,
    PageTable.walkFrom_find hr (Nat.le_refl 2) rfl], ?_⟩
  rw [State.raw, Radix.entry]
  cases hn : node child s.entries r (path (page va) 0) with
  | none => rw [Option.map_none, Option.elim_none, Option.elim_none]
  | some m =>
    rw [Option.map_some, Option.elim_some, Option.elim_some, State.load_entry (node_aligned hr hn)]

theorem PageTable.walkAddress_eq {va : UInt64} (hr : r.toNat % 4096 = 0) :
    PageTable.walkAddress r va s = .ok
      (if va < MAX_VIRTUAL_ADDRESS ∧ v (s.raw r (page va)) ∧ u (s.raw r (page va)) then
        toPhysicalAddress (s.raw r (page va))
      else 0) := by
  by_cases hva : va < MAX_VIRTUAL_ADDRESS
  · obtain ⟨pte, hwalk, hraw⟩ := PageTable.walk_find hr hva
    rw [PageTable.walkAddress, if_neg (UInt64.not_le.mpr hva), hwalk, ← hraw]
    cases pte with
    | none => simp [Except.bind]
    | some e =>
      simp only [Except.bind, Option.elim_some, hva, true_and]
      cases v (s.load e) <;> cases u (s.load e) <;> rfl
  · rw [PageTable.walkAddress, if_pos (UInt64.not_lt.mp hva), if_neg fun h ↦ hva h.1]

end

/-! ### The rest of the kernel -/

section

variable {s t : State} {roots free : List UInt64} {kept kept' : UInt64 → Prop} {r q : UInt64}

/-- Writes to other pages leave the tables alone, and so does taking pages off the free list. -/
theorem Tables.frame (h : Tables s roots kept free) (ht : t.Blank free') (hsub : free' ⊆ free)
    (hm : ∀ n, s.IsTable roots n → t.memory n = s.memory n) :
    Tables t roots kept free' ∧ (∀ r ∈ roots, ∀ n, t.raw r n = s.raw r n) ∧
      ∀ n, t.IsTable roots n ↔ s.IsTable roots n := by
  have hsame : ∀ n i, s.IsTable roots n → t.entries n i = s.entries n i := fun n i hn ↦ by
    rw [State.entries, State.entries, hm n hn]
  have hnode : ∀ {r p}, r ∈ roots → p.length ≤ 2 →
      node child t.entries r p = node child s.entries r p := fun hr hp ↦
    node_congr (fun r p n i hr hp hn ↦ hsame n i ⟨r, p, hr, hp.le, hn⟩) hr hp
  have hreach : ∀ n, t.IsTable roots n ↔ s.IsTable roots n := by
    intro n
    constructor
    · rintro ⟨r, p, hr, hp, hn⟩
      exact ⟨r, p, hr, hp, by rw [← hnode hr hp, hn]⟩
    · rintro ⟨r, p, hr, hp, hn⟩
      exact ⟨r, p, hr, hp, by rw [hnode hr hp, hn]⟩
  have hentry : ∀ r ∈ roots, ∀ p i, p.length = 2 →
      entry child t.entries 0 r p i = entry child s.entries 0 r p i := by
    intro r hr p i hp
    rw [entry, entry, hnode hr hp.le]
    cases hn : node child s.entries r p with
    | none => rw [Option.elim_none, Option.elim_none]
    | some n => rw [Option.elim_some, Option.elim_some, hsame n i ⟨r, p, hr, hp.le, hn⟩]
  refine ⟨⟨ht, ?_, ?_, ?_, ?_, ?_⟩, fun r hr n ↦ hentry r hr _ _ (path_length n 0), hreach⟩
  · intro r₁ r₂ p₁ p₂ n h₁ h₂ hp₁ hp₂ hn₁ hn₂
    rw [hnode h₁ hp₁] at hn₁
    rw [hnode h₂ hp₂] at hn₂
    exact h.forest r₁ r₂ p₁ p₂ n h₁ h₂ hp₁ hp₂ hn₁ hn₂
  · exact fun n hn ↦ h.aligned n ((hreach n).mp hn)
  · exact fun n hn hmem ↦ h.notFree n ((hreach n).mp hn) (hsub hmem)
  · intro r hr p i hp hv
    rw [hentry r hr p i hp] at hv ⊢
    exact h.blank r hr p i hp hv
  · intro n hk
    exact ⟨fun hmem ↦ (h.apart n hk).1 (hsub hmem),
      fun hn ↦ (h.apart n hk).2 ((hreach n).mp hn)⟩

/-- A page taken off the free list, whatever is then written to it. -/
theorem Tables.take (h : Tables s roots kept (q :: free)) (ht : t.Blank free)
    (hm : ∀ n, n ≠ q → t.memory n = s.memory n) :
    Tables t roots (fun n ↦ n = q ∨ kept n) free ∧ ∀ r ∈ roots, ∀ n, t.raw r n = s.raw r n := by
  have hfresh : ¬ s.IsTable roots q := fun hq ↦ h.notFree q hq (by simp)
  have hnot : q ∉ free := (List.nodup_cons.mp h.pages.nodup).1
  obtain ⟨htables, hraw, hreach⟩ := h.frame ht (List.subset_cons_self q free) fun n hn ↦
    hm n fun he ↦ hfresh (he ▸ hn)
  refine ⟨{ htables with apart := ?_ }, hraw⟩
  rintro n (rfl | hk)
  · exact ⟨hnot, fun hn ↦ hfresh ((hreach n).mp hn)⟩
  · exact htables.apart n hk

/-- A new table in a page taken off the free list. -/
theorem Tables.plant (h : Tables s roots kept (q :: free)) (ht : t.Blank free)
    (hm : ∀ n, n ≠ q → t.memory n = s.memory n) (hblank : ∀ i, t.entries q i = 0) :
    Tables t (q :: roots) kept free ∧ (∀ r ∈ roots, ∀ n, t.raw r n = s.raw r n) ∧
      ∀ n, t.raw q n = 0 := by
  have hfresh : ¬ s.IsTable roots q := fun hq ↦ h.notFree q hq (by simp)
  have hnot : q ∉ free := (List.nodup_cons.mp h.pages.nodup).1
  obtain ⟨htables, hraw, hreach⟩ := h.frame ht (List.subset_cons_self q free) fun n hn ↦
    hm n fun he ↦ hfresh (he ▸ hn)
  have hnone : ∀ p, p ≠ [] → node child t.entries q p = none := fun p hp ↦
    node_blank hblank child_zero hp
  have htable : ∀ n, t.IsTable (q :: roots) n → n = q ∨ t.IsTable roots n := by
    rintro n ⟨r, p, hr, hp, hn⟩
    rcases List.mem_cons.mp hr with rfl | hr
    · cases p with
      | nil =>
        cases hn
        exact .inl rfl
      | cons i p =>
        rw [hnone _ (List.cons_ne_nil i p)] at hn
        cases hn
    · exact .inr ⟨r, p, hr, hp, hn⟩
  have hentry : ∀ p i, p.length = 2 → entry child t.entries 0 q p i = 0 := by
    intro p i hp
    rw [entry, hnone p fun he ↦ by simp [he] at hp, Option.elim_none]
  refine ⟨⟨ht, ?_, ?_, ?_, ?_, ?_⟩, hraw, fun n ↦ hentry _ _ (path_length n 0)⟩
  · intro r₁ r₂ p₁ p₂ n h₁ h₂
    exact forest_plant htables.forest (fun hq ↦ hfresh ((hreach q).mp hq)) hblank child_zero
      (fun _ _ _ ↦ rfl) r₁ r₂ p₁ p₂ n (List.mem_cons.mp h₁) (List.mem_cons.mp h₂)
  · intro n hn
    rcases htable n hn with rfl | hn
    · exact h.pages.aligned n (by simp)
    · exact htables.aligned n hn
  · intro n hn
    rcases htable n hn with rfl | hn
    · exact hnot
    · exact htables.notFree n hn
  · intro r hr p i hp hv
    rcases List.mem_cons.mp hr with rfl | hr
    · exact hentry p i hp
    · exact htables.blank r hr p i hp hv
  · intro n hk
    refine ⟨(htables.apart n hk).1, fun hn ↦ ?_⟩
    rcases htable n hn with rfl | hn
    · exact (h.apart n hk).1 (by simp)
    · exact (htables.apart n hk).2 hn

/-- `PageTable::PageTable` in a cleared page. -/
theorem PageTable.construct_blank (hq : q.toNat % 4096 = 0) (hs : s.memory q = zeros) :
    (∀ i, (PageTable.construct q s).entries q i = 0) ∧
      ∀ n, n ≠ q → (PageTable.construct q s).memory n = s.memory n := by
  refine ⟨fun i ↦ ?_, fun n hn ↦ ?_⟩
  · rw [PageTable.construct_eq, State.entries_store hq]
    split
    · rfl
    · rw [State.entries, hs, State.zeros_entry]
  · rw [PageTable.construct_eq, State.store_memory_other hq 0 0 _ hn]

end

end Orfos.Memory
