import Orfos.Base.Radix
import Orfos.Memory.PageTable

/-!
# The page tables of the kernel

The page tables in physical memory are radix trees of three levels: no table page is shared,
none is on the free list, and an entry of the lowest level that is not valid is 0. `raw` is the
entry of a page; `walk` never changes it, and `map` sets it for the pages of its range.
-/

namespace Orfos.Memory

open Orfos.Base Orfos.Base.Radix PageTableEntry VirtualAddress

/-- The page that an entry points to. -/
def child (raw : PageTableEntry) : Option UInt64 :=
  if v raw then some (toPhysicalAddress raw) else none

namespace State

/-- The bytes of a page read as the entries of a table. -/
def entries (s : State) (page : UInt64) (i : Fin 512) : PageTableEntry :=
  getU64 (s.memory page) (8 * i.val)

/-- The table pages of the tables `roots`. -/
def IsTable (s : State) (roots : List UInt64) (page : UInt64) : Prop :=
  Reach child s.entries (· ∈ roots) 2 page

end State

/-- The indices on the way to the table at a level. -/
def path (page : Nat) : Nat → List (Fin 512)
  | 0 => [index page 2, index page 1]
  | 1 => [index page 2]
  | _ => []

/-- The entry of a page in the lowest level of a table; 0 if there is no table for it. -/
def State.raw (s : State) (table : UInt64) (page : Nat) : PageTableEntry :=
  entry child s.entries 0 table (path page 0) (index page 0)

/-- The number of tables that are missing on the way to a page from a level on. -/
def State.missing (s : State) (table : UInt64) (page : Nat) : Nat → Nat
  | 0 => 0
  | level + 1 =>
    (if node child s.entries table (path page level) = none then 1 else 0) +
      s.missing table page level

/-- The page tables `roots`, the pages `kept` by the rest of the kernel and the free list share
no page. -/
structure Tables (s : State) (roots : List UInt64) (kept : UInt64 → Prop)
    (free : List UInt64) : Prop where
  pages : s.Blank free
  forest : Forest child s.entries (· ∈ roots) 2
  aligned : ∀ n, s.IsTable roots n → n.toNat % 4096 = 0
  notFree : ∀ n, s.IsTable roots n → n ∉ free
  blank : ∀ r ∈ roots, ∀ p i, p.length = 2 → v (entry child s.entries 0 r p i) = false →
    entry child s.entries 0 r p i = 0
  apart : ∀ n, kept n → n ∉ free ∧ ¬ s.IsTable roots n

/-- From `s` to `t` the tables may have grown by pages of the free list. The entries of the
lowest level for which `fixed` holds and the kept pages are as before. -/
structure Grows (roots : List UInt64) (kept : UInt64 → Prop)
    (fixed : UInt64 → List (Fin 512) → Fin 512 → Prop) (free : List UInt64) (s t : State)
    (free' : List UInt64) : Prop where
  tables : Tables t roots kept free'
  suffix : free' <:+ free
  entry : ∀ r ∈ roots, ∀ p i, p.length = 2 → fixed r p i →
    entry child t.entries 0 r p i = entry child s.entries 0 r p i
  memory : ∀ n, kept n → t.memory n = s.memory n

section

variable {s t u : State} {roots free free' free'' : List UInt64} {kept : UInt64 → Prop}
  {fixed fixed' : UInt64 → List (Fin 512) → Fin 512 → Prop} {r table q : UInt64} {n : Nat}

@[simp] theorem child_zero : child 0 = none := rfl

theorem child_leaf (hp : q.toNat % 4096 = 0) : child (leaf 0 q) = some q := by
  rw [child, v_leaf (by decide), if_pos rfl, toPhysicalAddress_leaf (by decide) hp]

theorem Tables.mono (h : Tables s roots kept free) {kept' : UInt64 → Prop}
    (hk : ∀ n, kept' n → kept n) : Tables s roots kept' free :=
  ⟨h.pages, h.forest, h.aligned, h.notFree, h.blank, fun n hn ↦ h.apart n (hk n hn)⟩

theorem Grows.refl (h : Tables s roots kept free) : Grows roots kept fixed free s s free :=
  ⟨h, List.suffix_refl _, fun _ _ _ _ _ _ ↦ rfl, fun _ _ ↦ rfl⟩

theorem Grows.trans (h : Grows roots kept fixed free s t free')
    (h' : Grows roots kept fixed free' t u free'') : Grows roots kept fixed free s u free'' :=
  ⟨h'.tables, h'.suffix.trans h.suffix,
    fun r hr p i hp hf ↦ (h'.entry r hr p i hp hf).trans (h.entry r hr p i hp hf),
    fun n hn ↦ (h'.memory n hn).trans (h.memory n hn)⟩

theorem Grows.mono (h : Grows roots kept fixed free s t free')
    (hf : ∀ r p i, fixed' r p i → fixed r p i) : Grows roots kept fixed' free s t free' :=
  ⟨h.tables, h.suffix, fun r hr p i hp hfix ↦ h.entry r hr p i hp (hf r p i hfix), h.memory⟩

/-- The entries of a table page after a store to one of them. -/
theorem State.entries_store (h : table.toNat % 4096 = 0) (level : Nat) (va w : UInt64)
    (m : UInt64) (i : Fin 512) :
    (s.store (PageTable.getEntry table level va) w).entries m i =
      if m = table ∧ i = index (page va) level then w else s.entries m i := by
  rw [PageTable.store_getEntry h, entries, entries, setPage_memory]
  have hi := i.isLt
  have hj := (index (VirtualAddress.page va) level).isLt
  by_cases hm : m = table
  · subst hm
    rw [Function.update_self]
    by_cases he : i = index (VirtualAddress.page va) level
    · rw [if_pos ⟨rfl, he⟩, he]
      exact getU64_putU64_same _ _ (by omega)
    · have hne : i.val ≠ (index (VirtualAddress.page va) level).val := fun h ↦ he (Fin.ext h)
      rw [if_neg fun h ↦ he h.2, getU64, getU64, putU64, getLe_putLe_disjoint _ _ (by omega)]
  · rw [Function.update_of_ne hm, if_neg fun h ↦ hm h.1]

/-- A store to an entry is a load of it. -/
theorem State.load_entry (h : table.toNat % 4096 = 0) (level : Nat) (va : UInt64) :
    s.load (PageTable.getEntry table level va) = s.entries table (index (page va) level) :=
  PageTable.load_getEntry h s level va

theorem State.store_memory_other (h : table.toNat % 4096 = 0) (level : Nat) (va w : UInt64)
    {m : UInt64} (hm : m ≠ table) :
    (s.store (PageTable.getEntry table level va) w).memory m = s.memory m := by
  rw [PageTable.store_getEntry h, setPage_memory, Function.update_of_ne hm]

theorem State.zeros_entry (o : Nat) : getU64 zeros o = 0 := by
  have h : getLe zeros o 8 = 0 % 256 ^ 8 := by
    apply getLe_of_digits
    intro k hk
    simp [byteAt, zeros]
  rw [getU64, h]
  rfl

/-- A new table page below an entry of a table. -/
theorem Tables.link (h : Tables s roots kept (q :: free)) (hr : r ∈ roots)
    {p : List (Fin 512)} {i : Fin 512} (hp : p.length < 2)
    (hn : node child s.entries r p = some table) (hv : v (s.entries table i) = false)
    (hfree : t.Blank free) (hw : t.entries table i = leaf 0 q)
    (hblank : ∀ j, t.entries q j = 0)
    (hm : ∀ m, m ≠ q → m ≠ table → t.memory m = s.memory m)
    (ht : ∀ j, j ≠ i → t.entries table j = s.entries table j) :
    Grows roots kept (fun _ _ _ ↦ True) (q :: free) s t free ∧
      node child t.entries r (p ++ [i]) = some q := by
  have hpage : q.toNat % 4096 = 0 := h.pages.aligned q (by simp)
  have htable : s.IsTable roots table := ⟨r, p, hr, hp.le, hn⟩
  have hfresh : ¬ s.IsTable roots q := fun hmem ↦ h.notFree q hmem (by simp)
  have hc : child (s.entries table i) = none := by rw [child, hv, if_neg (by decide)]
  have hwc : child (t.entries table i) = some q := by rw [hw, child_leaf hpage]
  have hsame : ∀ m j, s.IsTable roots m → (m ≠ table ∨ j ≠ i) →
      t.entries m j = s.entries m j := by
    intro m j hmt hne
    by_cases he : m = table
    · subst he
      exact ht j (by simpa using hne)
    · rw [State.entries, State.entries, hm m ?_ he]
      rintro rfl
      exact hfresh hmt
  have hreach : ∀ m, t.IsTable roots m ↔ m = q ∨ s.IsTable roots m := fun m ↦
    reach_link h.forest hr hp hn hc hfresh hwc hblank child_zero hsame
  have hentry : ∀ r' ∈ roots, ∀ p' j, p'.length = 2 →
      entry child t.entries 0 r' p' j = entry child s.entries 0 r' p' j := fun r' hr' p' j hp' ↦
    entry_link h.forest hr hp hn hc hwc hblank child_zero hsame hr' hp'
  have hnot : q ∉ free := (List.nodup_cons.mp h.pages.nodup).1
  refine ⟨⟨⟨hfree, forest_link h.forest hr hp hn hc hfresh hwc hblank child_zero hsame,
    ?_, ?_, ?_, ?_⟩, List.suffix_cons q free, fun r' hr' p' j hp' _ ↦ hentry r' hr' p' j hp',
    ?_⟩, ?_⟩
  · intro m hmt
    rcases (hreach m).mp hmt with rfl | hmt
    · exact hpage
    · exact h.aligned m hmt
  · intro m hmt
    rcases (hreach m).mp hmt with rfl | hmt
    · exact hnot
    · exact fun hmem ↦ h.notFree m hmt (List.mem_cons_of_mem _ hmem)
  · intro r' hr' p' j hp' hvj
    rw [hentry r' hr' p' j hp'] at hvj ⊢
    exact h.blank r' hr' p' j hp' hvj
  · intro m hk
    obtain ⟨hmf, hmt⟩ := h.apart m hk
    refine ⟨fun hmem ↦ hmf (List.mem_cons_of_mem _ hmem), fun hmt' ↦ ?_⟩
    rcases (hreach m).mp hmt' with rfl | hmt'
    · exact hmf (by simp)
    · exact hmt hmt'
  · intro m hk
    obtain ⟨hmf, hmt⟩ := h.apart m hk
    refine hm m ?_ ?_
    · rintro rfl
      exact hmf (by simp)
    · rintro rfl
      exact hmt htable
  · have hlen : (p ++ [i]).length ≤ 2 := by
      rw [List.length_append, List.length_singleton]
      omega
    rw [node_link h.forest hr hp hn hc hwc hblank child_zero hsame hr hlen, if_pos ⟨rfl, rfl⟩]

theorem PageTable.construct_eq (s : State) (q : UInt64) :
    PageTable.construct q s = s.store (PageTable.getEntry q 0 0) 0 := by
  have he : PageTable.getEntry q 0 0 = q := by
    rw [PageTable.getEntry]
    exact UInt64.add_zero q
  rw [he, PageTable.construct]

/-- What a new table page and the entry that points to it hold. -/
theorem PageTable.hang (htable : table.toNat % 4096 = 0) (hq : q.toNat % 4096 = 0)
    (hne : q ≠ table) (level : Nat) (va : UInt64) (hs : s.memory q = zeros) :
    let pte := PageTable.getEntry table level va
    let s₁ := (PageTable.construct q s).store pte (fromPhysicalAddress q)
    let t := s₁.store pte (s₁.load pte ||| PTE_V)
    t.entries table (index (page va) level) = leaf 0 q ∧ (∀ j, t.entries q j = 0) ∧
      (∀ m, m ≠ q → m ≠ table → t.memory m = s.memory m) ∧
        ∀ j, j ≠ index (page va) level → t.entries table j = s.entries table j := by
  intro pte s₁ t
  have ht : ∀ m j, t.entries m j =
      if m = table ∧ j = index (page va) level then leaf 0 q
      else (PageTable.construct q s).entries m j := by
    intro m j
    rw [State.entries_store htable level va _ m j, State.load_entry htable]
    split
    · rw [State.entries_store htable, if_pos ⟨rfl, rfl⟩, fromPhysicalAddress_or]
    · next h => rw [State.entries_store htable, if_neg h]
  have hc : ∀ m j, (PageTable.construct q s).entries m j =
      if m = q ∧ j = index (page 0) 0 then 0 else s.entries m j := fun m j ↦ by
    rw [PageTable.construct_eq, State.entries_store hq]
  refine ⟨by rw [ht, if_pos ⟨rfl, rfl⟩], fun j ↦ ?_, fun m hmq hmt ↦ ?_, fun j hj ↦ ?_⟩
  · rw [ht, if_neg fun h ↦ hne h.1, hc]
    split
    · rfl
    · rw [State.entries, hs, State.zeros_entry]
  · rw [State.store_memory_other htable level va _ hmt,
      State.store_memory_other htable level va _ hmt, PageTable.construct_eq,
      State.store_memory_other hq 0 0 _ hmq]
  · rw [ht, if_neg fun h ↦ hj h.2, hc, if_neg fun h ↦ hne h.1.symm]

theorem path_succ {level : Nat} (h : level < 2) :
    path n level = path n (level + 1) ++ [index n (level + 1)] := by
  match level, h with
  | 0, _ => rfl
  | 1, _ => rfl

theorem path_length (n level : Nat) : (path n level).length = 2 - level := by
  match level with
  | 0 => rfl
  | 1 => rfl
  | _ + 2 =>
    simp only [path, List.length_nil]
    omega

/-- Where the way ends early, it does not reach the lowest level. -/
theorem path_none {level : Nat} (hl : level ≤ 2)
    (h : node child s.entries r (path n level) = none) :
    node child s.entries r (path n 0) = none := by
  match level, hl with
  | 0, _ => exact h
  | 1, _ => rw [path_succ (by decide), node_snoc, h, Option.bind_none]
  | 2, _ => cases h

/-- One level down the way of a page. -/
theorem path_next {level : Nat} (hl : level < 2)
    (hn : node child s.entries r (path n (level + 1)) = some table) :
    node child s.entries r (path n level) = child (s.entries table (index n (level + 1))) := by
  rw [path_succ hl, node_snoc, hn, Option.bind_some]

theorem State.missing_le (s : State) (r : UInt64) (n level : Nat) :
    s.missing r n level ≤ level := by
  induction level with
  | zero => exact Nat.le_refl 0
  | succ level ih =>
    rw [State.missing]
    split <;> omega

/-- Where the way ends, everything below is missing. -/
theorem State.missing_none {level : Nat} (hl : level ≤ 1)
    (h : node child s.entries r (path n level) = none) : s.missing r n (level + 1) = level + 1 := by
  match level, hl with
  | 0, _ => rw [State.missing, if_pos h, State.missing]
  | 1, _ =>
    have h₀ : node child s.entries r (path n 0) = none := path_none (by decide) h
    rw [State.missing, if_pos h, State.missing, if_pos h₀, State.missing]

/-- The address that an entry points to is the address of a page. -/
theorem Page.fromAddress_physical (e : UInt64) :
    Page.fromAddress (toPhysicalAddress e) = .ok (toPhysicalAddress e) := by
  refine if_pos (UInt64.toNat_inj.mp ?_)
  rw [UInt64.toNat_mod]
  exact toPhysicalAddress_aligned e

/-- `PageTable::walk` with allocation makes the way to an entry, takes the pages that are missing
on it and changes no entry. -/
theorem PageTable.walkFrom_takes (va : UInt64) {level : Nat} (h : Tables s roots kept free)
    (hr : r ∈ roots) (hl : level ≤ 2)
    (hn : node child s.entries r (path (page va) level) = some table) :
    Ends (fun e ↦ e = Page.outOfMemory ∧ free.length < s.missing r (page va) level)
      (fun w ↦ ∃ m free', w.1 = some (PageTable.getEntry m 0 va) ∧
        node child w.2.entries r (path (page va) 0) = some m ∧
          Grows roots kept (fun _ _ _ ↦ True) free s w.2 free' ∧
            free.length ≤ free'.length + s.missing r (page va) level)
      (PageTable.walkFrom va true level table s) := by
  induction level generalizing s table free with
  | zero => exact ⟨table, free, rfl, hn, Grows.refl h, Nat.le_add_right _ _⟩
  | succ level ih =>
    have hlen : (path (page va) (level + 1)).length < 2 := by
      rw [path_length]
      omega
    have htable : s.IsTable roots table := ⟨r, _, hr, hlen.le, hn⟩
    have haligned := h.aligned table htable
    have hnext := path_next (by omega) hn
    rw [PageTable.walkFrom, State.load_entry haligned]
    cases hv : v (s.entries table (index (page va) (level + 1))) with
    | true =>
      rw [child, hv, if_pos rfl] at hnext
      rw [if_pos rfl, Page.fromAddress_physical, State.missing, hnext,
        if_neg (Option.some_ne_none _), Nat.zero_add]
      exact ih h (by omega) hnext
    | false =>
      rw [child, hv, if_neg (by decide)] at hnext
      rw [if_neg (by decide), if_neg (by decide), State.missing_none (by omega) hnext]
      cases free with
      | nil =>
        rw [Page.allocate_nil h.pages.toFree]
        exact ⟨rfl, Nat.succ_pos level⟩
      | cons q free =>
        obtain ⟨s₀, hs₀, hfree, hnot, hmem⟩ := Page.allocate_blank h.pages
        rw [hs₀]
        have hq := h.pages.aligned q (by simp)
        have hne : q ≠ table := by
          rintro rfl
          exact h.notFree q htable (by simp)
        have hzero : s₀.memory q = zeros := by rw [hmem, Function.update_self]
        have hold : ∀ m, m ≠ q → s₀.memory m = s.memory m := fun m hm ↦ by
          rw [hmem, Function.update_of_ne hm]
        obtain ⟨hw, hblank, hm, ht⟩ := PageTable.hang haligned hq hne (level + 1) va hzero
        have hlink := h.link hr hlen hn hv ?_ hw hblank
          (fun m hmq hmt ↦ (hm m hmq hmt).trans (hold m hmq)) fun j hj ↦ ?_
        · obtain ⟨hgrows, hnode⟩ := hlink
          rw [← path_succ (by omega)] at hnode
          rw [List.length_cons]
          refine ((ih hgrows.tables (by omega) hnode).mono ?_).imp ?_
          · rintro e ⟨he, hshort⟩
            exact ⟨he, Nat.succ_lt_succ (hshort.trans_le (State.missing_le _ _ _ _))⟩
          · rintro ⟨e, u⟩ ⟨m, free', he, hm, hu, hcount⟩
            exact ⟨m, free', he, hm, hgrows.trans hu,
              Nat.succ_le_succ (hcount.trans (Nat.add_le_add_left (State.missing_le _ _ _ _) _))⟩
        · refine hfree.congr rfl fun m hmem' ↦ hm m ?_ ?_
          · rintro rfl
            exact hnot hmem'
          · rintro rfl
            exact h.notFree m htable (List.mem_cons_of_mem _ hmem')
        · rw [ht j hj, State.entries, State.entries, hold table hne.symm]

/-- `PageTable::walk` with allocation makes the way to an entry and changes no entry. -/
theorem PageTable.walkFrom_allocate (va : UInt64) {level : Nat} (h : Tables s roots kept free)
    (hr : r ∈ roots) (hl : level ≤ 2)
    (hn : node child s.entries r (path (page va) level) = some table) :
    Ends (· = Page.outOfMemory)
      (fun w ↦ ∃ m free', w.1 = some (PageTable.getEntry m 0 va) ∧
        node child w.2.entries r (path (page va) 0) = some m ∧
          Grows roots kept (fun _ _ _ ↦ True) free s w.2 free')
      (PageTable.walkFrom va true level table s) := by
  refine ((PageTable.walkFrom_takes va h hr hl hn).mono fun e he ↦ he.1).imp ?_
  rintro w ⟨m, free', hm, hnode, hgrows, -⟩
  exact ⟨m, free', hm, hnode, hgrows⟩

theorem Tables.aligned_root (h : Tables s roots kept free) (hr : r ∈ roots) :
    r.toNat % 4096 = 0 := h.aligned r (Reach.root hr)

/-- The table pages below an aligned one are aligned. -/
theorem node_aligned (hr : r.toNat % 4096 = 0) {p : List (Fin 512)}
    (hn : node child s.entries r p = some table) : table.toNat % 4096 = 0 := by
  induction p generalizing r with
  | nil =>
    cases hn
    exact hr
  | cons i p ih =>
    obtain ⟨m, hm, hn⟩ := Option.bind_eq_some_iff.mp hn
    refine ih ?_ hn
    rw [child] at hm
    split at hm
    · cases hm
      exact toPhysicalAddress_aligned _
    · cases hm

/-- `PageTable::walk` without allocation changes nothing. -/
theorem PageTable.walkFrom_find {va : UInt64} {level : Nat} (hr : r.toNat % 4096 = 0)
    (hl : level ≤ 2) (hn : node child s.entries r (path (page va) level) = some table) :
    PageTable.walkFrom va false level table s =
      .ok ((node child s.entries r (path (page va) 0)).map (PageTable.getEntry · 0 va), s) := by
  induction level generalizing table with
  | zero =>
    rw [hn]
    rfl
  | succ level ih =>
    have haligned := node_aligned hr hn
    have hnext := path_next (by omega) hn
    rw [PageTable.walkFrom, State.load_entry haligned]
    cases hv : v (s.entries table (index (page va) (level + 1))) with
    | true =>
      rw [if_pos rfl, Page.fromAddress_physical]
      refine ih (by omega) ?_
      rw [hnext, child, hv, if_pos rfl]
    | false =>
      rw [if_neg (by decide), if_pos (by decide)]
      have hnone : node child s.entries r (path (page va) 0) = none := by
        rw [child, hv, if_neg (by decide)] at hnext
        exact path_none (by omega) hnext
      rw [hnone]
      rfl

end

end Orfos.Memory
