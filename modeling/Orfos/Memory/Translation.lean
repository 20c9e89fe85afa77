import Orfos.Base.Guarded
import Orfos.Memory.Mapping
import Orfos.Memory.New

/-!
# Page tables refine partial maps

Any number of page tables grow by `map`, while the rest of the kernel takes pages and writes to
them. The abstract state maps every page of every table to its frame and its flags.
-/

namespace Orfos.Memory

open Orfos.Base PageTableEntry VirtualAddress

/-- The frame and the flags that a valid entry stands for. -/
def translation (raw : PageTableEntry) : Option (UInt64 × UInt16) :=
  if v raw then some (toPhysicalAddress raw, flags raw) else none

/-- What `walk` without allocation finds: the translation of the entry it returns. -/
def PageTable.find (table virtualAddress : UInt64) (s : State) : Option (UInt64 × UInt16) :=
  match PageTable.walk table virtualAddress false s with
  | .ok (some pte, t) => translation (t.load pte)
  | _ => none

/-- The frame and the flags of the pages of every table. -/
abbrev Maps := UInt64 → Nat → Option (UInt64 × UInt16)

/-- The pages of a range and what they are mapped to. -/
def Maps.add (m : Maps) (table : UInt64) (first count : Nat) (pa : UInt64) (f : UInt16) : Maps :=
  fun r n ↦
    if r = table ∧ first ≤ n ∧ n < first + count then
      some (pa + UInt64.ofNat (4096 * (n - first)), f ||| 1)
    else m r n

namespace Translation

/-- Physical memory, the page tables, and the pages that the rest of the kernel has taken. -/
structure Kernel where
  pages : State
  tables : List UInt64
  taken : List UInt64

/-- A new table, a call of `map`, or a page taken or written by the rest of the kernel. -/
inductive Event where
  | create
  | map (table virtualAddress size physicalAddress : UInt64) (flags : UInt16)
  | take
  | write (page : UInt64) (c : Contents)

/-- One step. The kernel stops at a failed assertion and when it is out of memory. -/
def Kernel.step (k : Kernel) : Event → Option Kernel
  | .create =>
    match Page.allocate k.pages with
    | .ok (table, s) =>
      some { k with pages := PageTable.construct table s, tables := table :: k.tables }
    | .error _ => none
  | .map table va size pa f =>
    match PageTable.map table va size pa f k.pages with
    | .ok (_, s) => some { k with pages := s }
    | .error _ => none
  | .take =>
    match Page.allocate k.pages with
    | .ok (page, s) => some { k with pages := s, taken := page :: k.taken }
    | .error _ => none
  | .write page c => some { k with pages := k.pages.setPage page c }

/-- The abstract step. -/
def Maps.step (m : Maps) : Event → Maps
  | .map table va size pa f => m.add table (page va) (pageCount size) pa f
  | _ => m

/-- What the callers of `map` promise, and that the rest of the kernel writes to its own pages. -/
def Promised (k : Kernel) (m : Maps) : Event → Prop
  | .map table va size pa f =>
    table ∈ k.tables ∧ va.toNat % 4096 = 0 ∧ pa.toNat % 4096 = 0 ∧ pa.toNat < 2 ^ 56 ∧
      f.toNat < 2 ^ 10 ∧ size > 0 ∧ va.toNat + size.toNat ≤ MAX_VIRTUAL_ADDRESS.toNat ∧
        ∀ n, page va ≤ n → n < page va + pageCount size → m table n = none
  | .write page _ => page ∈ k.taken
  | _ => True

/-- The kernel and the abstract state side by side. -/
def step (x : Kernel × Maps) (e : Event) : Option (Kernel × Maps) :=
  (x.1.step e).map fun k ↦ (k, Maps.step x.2 e)

/-- Before the first table: the pages taken are not free. -/
structure Kernel.Initial (k : Kernel) : Prop where
  tables : k.tables = []
  free : ∃ free, k.pages.Blank free ∧ ∀ p ∈ k.taken, p ∉ free

/-- The tables of the kernel map what the abstract state says. -/
def Refines (k : Kernel) (m : Maps) : Prop :=
  ∀ table ∈ k.tables, ∀ va,
    (va < MAX_VIRTUAL_ADDRESS →
      (∃ pte, PageTable.walk table va false k.pages = .ok (pte, k.pages)) ∧
        PageTable.find table va k.pages = m table (page va)) ∧
      PageTable.walkAddress table va k.pages = .ok
        (match m table (page va) with
        | some (pa, f) => if va < MAX_VIRTUAL_ADDRESS ∧ f &&& PTE_U.toUInt16 ≠ 0 then pa else 0
        | none => 0)

/-- The page tables, the pages taken and the free pages are apart, and the entries of the
tables are what the abstract state says. -/
structure Inv (k : Kernel) (m : Maps) : Prop where
  tables : ∃ free, Tables k.pages k.tables (· ∈ k.taken) free
  maps : ∀ table ∈ k.tables, ∀ n < 512 ^ 3, translation (k.pages.raw table n) = m table n
  rest : ∀ table, table ∉ k.tables → ∀ n, m table n = none

variable {k k' : Kernel} {m : Maps} {e : Event}

theorem inv_initial (h : k.Initial) : Inv k fun _ _ ↦ none := by
  obtain ⟨htables, free, hfree, htaken⟩ := h
  have hnone : ∀ n, ¬ k.pages.IsTable k.tables n := by
    rintro n ⟨r, p, hr, -⟩
    rw [htables] at hr
    cases hr
  refine ⟨⟨free, hfree, ?_, ?_, ?_, ?_, ?_⟩, ?_, fun _ _ _ ↦ rfl⟩
  · intro r _ _ _ _ hr
    rw [htables] at hr
    cases hr
  · exact fun n hn ↦ absurd hn (hnone n)
  · exact fun n hn ↦ absurd hn (hnone n)
  · intro r hr
    rw [htables] at hr
    cases hr
  · exact fun n hn ↦ ⟨htaken n hn, hnone n⟩
  · intro r hr
    rw [htables] at hr
    cases hr

theorem page_lt {va : UInt64} (h : va < MAX_VIRTUAL_ADDRESS) : page va < 512 ^ 3 := by
  have h' : va.toNat < 2 ^ 38 := UInt64.lt_iff_toNat_lt.mp h
  have hdef : page va = va.toNat / 4096 := rfl
  omega

theorem translation_zero : translation 0 = none := by decide

/-- What `find` reads off a table. -/
theorem find_eq {roots free : List UInt64} {kept : UInt64 → Prop} {s : State} {r va : UInt64}
    (h : Tables s roots kept free) (hr : r ∈ roots) (hva : va < MAX_VIRTUAL_ADDRESS) :
    (∃ pte, PageTable.walk r va false s = .ok (pte, s)) ∧
      PageTable.find r va s = translation (s.raw r (page va)) := by
  obtain ⟨pte, hwalk, hraw⟩ := PageTable.walk_find (h.aligned_root hr) hva
  refine ⟨⟨pte, hwalk⟩, ?_⟩
  rw [PageTable.find, hwalk, ← hraw]
  cases pte with
  | none => exact translation_zero.symm
  | some e => rfl

theorem Inv.refines (h : Inv k m) : Refines k m := by
  obtain ⟨free, htables⟩ := h.tables
  intro table htable va
  refine ⟨fun hva ↦ ?_, ?_⟩
  · obtain ⟨hwalk, hfind⟩ := find_eq htables htable hva
    exact ⟨hwalk, hfind.trans (h.maps table htable _ (page_lt hva))⟩
  · rw [PageTable.walkAddress_eq (htables.aligned_root htable)]
    congr 1
    by_cases hva : va < MAX_VIRTUAL_ADDRESS
    · rw [← h.maps table htable _ (page_lt hva), translation]
      cases v (k.pages.raw table (page va)) with
      | false => simp
      | true =>
        simp only [if_true, hva, true_and, u_flags, bne_iff_ne]
        rfl
    · simp only [hva, false_and, if_false]
      split <;> rfl

theorem translation_leaf {f : UInt16} {pa : UInt64} (hf : f.toNat < 1024)
    (hpa : pa.toNat % 4096 = 0) : translation (leaf f pa) = some (pa, f ||| 1) := by
  rw [translation, v_leaf hf, if_pos rfl, toPhysicalAddress_leaf hf hpa, flags_leaf hf]

theorem frame_aligned {pa : UInt64} (hpa : pa.toNat % 4096 = 0) (j : Nat) :
    (pa + UInt64.ofNat (4096 * j)).toNat % 4096 = 0 := by
  rw [UInt64.toNat_add, UInt64.toNat_ofNat']
  omega

/-- A promised call of `map`. -/
theorem Inv.map {table va size pa : UInt64} {f : UInt16} (h : Inv k m)
    (hp : Promised k m (.map table va size pa f)) :
    Ends (· = Page.outOfMemory)
      (fun w ↦ w.1 = true ∧
        Inv { k with pages := w.2 } (m.add table (page va) (pageCount size) pa f))
      (PageTable.map table va size pa f k.pages) := by
  obtain ⟨htable, hva, hpa, -, hf, hsize, hmax, hunmapped⟩ := hp
  obtain ⟨free, htables⟩ := h.tables
  have hsize' : 0 < size.toNat := UInt64.lt_iff_toNat_lt.mp hsize
  have hmax' : va.toNat + size.toNat ≤ 2 ^ 38 := hmax
  have hdef : page va = va.toNat / 4096 := rfl
  have hcount : pageCount size = (size.toNat - 1) / 4096 + 1 := by
    rw [pageCount]
    omega
  refine (PageTable.map_maps size pa htables htable hf hva hsize' hmax' fun j hj ↦ ?_).imp ?_
  · have hnone := hunmapped (page va + j) (by omega) (by omega)
    rw [← h.maps table htable _ (by omega), translation] at hnone
    cases hv : v (k.pages.raw table (page va + j)) with
    | false => rfl
    | true =>
      rw [hv, if_pos rfl] at hnone
      cases hnone
  · rintro ⟨b, s⟩ ⟨hb, free', hgrows, hleaf⟩
    refine ⟨hb, ⟨free', hgrows.tables⟩, fun r hr n hn ↦ ?_, fun r hr n ↦ ?_⟩
    · rw [Maps.add]
      split
      · next hin =>
        obtain ⟨rfl, hlo, hhi⟩ := hin
        have hat := hleaf (n - page va) (by omega)
        rw [show page va + (n - page va) = n by omega] at hat
        change translation (s.raw r n) = _
        rw [hat, translation_leaf hf (frame_aligned hpa _)]
      · next hout =>
        rw [← h.maps r hr n hn]
        refine congrArg translation (hgrows.raw hr (outside_page (by omega) hn ?_))
        by_cases he : r = table
        · have : ¬ (page va ≤ n ∧ n < page va + pageCount size) := fun hin ↦ hout ⟨he, hin⟩
          omega
        · exact .inl he
    · have hne : r ≠ table := fun he ↦ hr (he ▸ htable)
      rw [Maps.add, if_neg fun hin ↦ hne hin.1]
      exact h.rest r hr n

theorem Inv.step (h : Inv k m) (hp : Promised k m e) (hs : k.step e = some k') :
    Inv k' (Maps.step m e) := by
  obtain ⟨free, htables⟩ := h.tables
  cases e with
  | create =>
    cases free with
    | nil =>
      rw [Kernel.step, Page.allocate_nil htables.pages.toFree] at hs
      cases hs
    | cons q free =>
      obtain ⟨s, hs', hfree, hnot, hmem⟩ := Page.allocate_blank htables.pages
      rw [Kernel.step, hs'] at hs
      cases hs
      have hq := htables.pages.aligned q (by simp)
      obtain ⟨hblank, hother⟩ := PageTable.construct_blank hq
        (show s.memory q = zeros by rw [hmem, Function.update_self])
      have hold : ∀ n, n ≠ q → (PageTable.construct q s).memory n = k.pages.memory n :=
        fun n hn ↦ (hother n hn).trans (by rw [hmem, Function.update_of_ne hn])
      have hfree' : (PageTable.construct q s).Blank free := hfree.congr rfl fun n hn ↦
        hother n fun he ↦ hnot (he ▸ hn)
      obtain ⟨hplant, hraw, hzero⟩ := htables.plant hfree' hold hblank
      have hnew : q ∉ k.tables := fun hq' ↦
        htables.notFree q (Radix.Reach.root hq') (by simp)
      refine ⟨⟨free, hplant⟩, fun r hr n hn ↦ ?_, fun r hr n ↦ ?_⟩
      · rcases List.mem_cons.mp hr with rfl | hr
        · exact (congrArg translation (hzero n)).trans (h.rest r hnew n).symm
        · exact (congrArg translation (hraw r hr n)).trans (h.maps r hr n hn)
      · exact h.rest r (fun hr' ↦ hr (List.mem_cons_of_mem _ hr')) n
  | map table va size pa f =>
    simp only [Kernel.step] at hs
    split at hs
    · next hok =>
      cases hs
      exact ((h.map hp).of_ok hok).2
    · cases hs
  | take =>
    cases free with
    | nil =>
      rw [Kernel.step, Page.allocate_nil htables.pages.toFree] at hs
      cases hs
    | cons q free =>
      obtain ⟨s, hs', hfree, hnot, hmem⟩ := Page.allocate_blank htables.pages
      rw [Kernel.step, hs'] at hs
      cases hs
      obtain ⟨htake, hraw⟩ := htables.take hfree fun n hn ↦ by
        rw [hmem, Function.update_of_ne hn]
      refine ⟨⟨free, { htake with apart := fun n hn ↦ htake.apart n (List.mem_cons.mp hn) }⟩,
        fun r hr n hn ↦ ?_, h.rest⟩
      exact (congrArg translation (hraw r hr n)).trans (h.maps r hr n hn)
  | write q c =>
    cases hs
    obtain ⟨hnot, hkeep⟩ := htables.apart q hp
    have hother : ∀ n, n ≠ q → (k.pages.setPage q c).memory n = k.pages.memory n :=
      fun n hn ↦ Function.update_of_ne hn _ _
    have hfree : (k.pages.setPage q c).Blank free := htables.pages.congr rfl fun n hn ↦
      hother n fun he ↦ hnot (he ▸ hn)
    obtain ⟨hframe, hraw, -⟩ := htables.frame hfree (List.Subset.refl _) fun n hn ↦
      hother n fun he ↦ hkeep (he ▸ hn)
    exact ⟨⟨free, hframe⟩, fun r hr n hn ↦ (congrArg translation (hraw r hr n)).trans
      (h.maps r hr n hn), h.rest⟩

/-- The invariant holds along promised runs. -/
theorem inv_run {k₀ : Kernel} (h₀ : k₀.Initial)
    (hr : Run step (fun x e ↦ Promised x.1 x.2 e) (k₀, fun _ _ ↦ none) (k, m)) : Inv k m := by
  refine hr.invariant (I := fun x ↦ Inv x.1 x.2) (inv_initial h₀) ?_
  rintro ⟨k, m⟩ e x hi hp hs
  obtain ⟨k', hk', rfl⟩ := Option.map_eq_some_iff.mp hs
  exact hi.step hp hk'

/-- Page tables refine the map from pages to frames and flags that the calls of `map` describe,
and a call of `map` changes no other page. -/
theorem map_refines {k₀ : Kernel} (h₀ : k₀.Initial)
    (hr : Run step (fun x e ↦ Promised x.1 x.2 e) (k₀, fun _ _ ↦ none) (k, m)) :
    Refines k m ∧ ∀ table va size pa f, Promised k m (.map table va size pa f) →
      Ends (· = Page.outOfMemory)
        (fun w ↦ w.1 = true ∧ ∀ table' ∈ k.tables, ∀ a, a < MAX_VIRTUAL_ADDRESS →
          (table' ≠ table ∨ page a < page va ∨ page va + pageCount size ≤ page a) →
            PageTable.find table' a w.2 = PageTable.find table' a k.pages)
        (PageTable.map table va size pa f k.pages) := by
  have hi := inv_run h₀ hr
  refine ⟨hi.refines, fun table va size pa f hp ↦ (hi.map hp).imp ?_⟩
  rintro ⟨b, s⟩ ⟨hb, hi'⟩
  refine ⟨hb, fun table' htable' a ha hout ↦ ?_⟩
  have hnew := ((hi'.refines table' htable' a).1 ha).2
  have hold := ((hi.refines table' htable' a).1 ha).2
  change PageTable.find table' a s = _ at hnew
  rw [hnew, hold, Maps.add, if_neg]
  rintro ⟨rfl, hlo, hhi⟩
  simp only [ne_eq, not_true_eq_false, false_or] at hout
  omega

/-- A machine with four free pages. -/
def fourPages : Kernel := ⟨Page.initializePages Memory.fourPages, [], []⟩

/-- Two user pages of a new table. -/
theorem map_refines_two :
    let x := final step (fourPages, fun _ _ ↦ none)
      [.create, .map 0x87fff000 0x3000 0x2000 0x80001000 0x12]
    Refines x.1 x.2 := by
  have hinit : fourPages.Initial := by
    have hplaced : Memory.fourPages.Placed := ⟨rfl, by decide⟩
    obtain ⟨free, hfree⟩ := Page.initializePages_blank hplaced rfl fun _ ↦ rfl
    exact ⟨rfl, free, hfree, fun p hp ↦ by cases hp⟩
  have hplay : (play step (fourPages, fun _ _ ↦ none)
    [.create, .map 0x87fff000 0x3000 0x2000 0x80001000 0x12]).isSome := rfl
  refine (map_refines hinit (run_final hplay ⟨trivial, fun t ht ↦ ?_⟩)).1
  cases ht
  exact ⟨⟨by decide, by decide, by decide, by decide, by decide, by decide, by decide,
    fun _ _ _ ↦ rfl⟩, fun _ _ ↦ trivial⟩

end Translation

end Orfos.Memory
