import Orfos.Memory.UserMemory

/-!
# The address spaces of the kernel

The frames of the user pages of all page tables are distinct, and none of them is free, a table
page, or a page of the kernel. Taking a page and mapping it keeps this, and changes no other
page of any table and no byte of a frame.
-/

namespace Orfos.Memory

open Orfos.Base PageTableEntry VirtualAddress

/-- The number of the pages below `TRAPFRAME`. -/
abbrev userPages : Nat := 2 ^ 26 - 2

theorem userPages_eq : userPages = 67108862 := rfl

/-- The frame of a user page. -/
def State.Backs (s : State) (tables : List UInt64) (p : UInt64) : Prop :=
  ∃ t ∈ tables, ∃ n < userPages, v (s.raw t n) = true ∧ toPhysicalAddress (s.raw t n) = p

/-- A page of the kernel or the frame of a user page. -/
def State.Used (s : State) (tables taken : List UInt64) (p : UInt64) : Prop :=
  p ∈ taken ∨ s.Backs tables p

/-- The page table of the kernel, the page tables of processes, and the pages that the rest of
the kernel has taken. -/
structure Space (s : State) (kernel : UInt64) (tables taken free : List UInt64) : Prop where
  wf : Tables s (kernel :: tables) (s.Used tables taken) free
  notKernel : kernel ∉ tables
  distinct : ∀ t ∈ tables, ∀ t' ∈ tables, ∀ n < userPages, ∀ n' < userPages,
    v (s.raw t n) = true → v (s.raw t' n') = true →
      toPhysicalAddress (s.raw t n) = toPhysicalAddress (s.raw t' n') → t = t' ∧ n = n'
  own : ∀ p ∈ taken, ¬ s.Backs tables p
  supervisor : ∀ t ∈ tables, ∀ n, userPages ≤ n → n < 2 ^ 26 →
    v (s.raw t n) = true ∧ u (s.raw t n) = false

/-- From `s` to `t` the pages of `table` from `lo` to `hi` were mapped. -/
structure Extends (kernel : UInt64) (tables taken : List UInt64) (table : UInt64) (lo hi : Nat)
    (s t : State) (free free' : List UInt64) : Prop where
  space : Space t kernel tables taken free'
  suffix : free' <:+ free
  raw : ∀ r ∈ tables, ∀ n < 2 ^ 26, (r ≠ table ∨ n < lo ∨ hi ≤ n) → t.raw r n = s.raw r n
  memory : ∀ p, s.Used tables taken p → t.memory p = s.memory p
  fresh : ∀ n, lo ≤ n → n < hi → v (t.raw table n) = true ∧ v (s.raw table n) = false ∧
    toPhysicalAddress (t.raw table n) ∈ free

section

variable {s t w : State} {kernel table q va : UInt64} {tables taken free free' free'' : List UInt64}
  {f : UInt16} {lo mid hi n : Nat}

theorem Extends.refl (h : Space s kernel tables taken free) (hle : hi ≤ lo) :
    Extends kernel tables taken table lo hi s s free free :=
  ⟨h, List.suffix_refl _, fun _ _ _ _ _ ↦ rfl, fun _ _ ↦ rfl, fun _ h₁ h₂ ↦ by omega⟩

/-- Where nothing changes, frames stay frames. -/
theorem Extends.backs (h : Extends kernel tables taken table lo hi s t free free')
    (htable : table ∈ tables) (hi' : hi ≤ userPages) {p : UInt64} :
    t.Backs tables p ↔ s.Backs tables p ∨
      ∃ n, lo ≤ n ∧ n < hi ∧ toPhysicalAddress (t.raw table n) = p := by
  have hU := userPages_eq
  constructor
  · rintro ⟨r, hr, n, hn, hv, rfl⟩
    by_cases hin : r = table ∧ lo ≤ n ∧ n < hi
    · obtain ⟨rfl, h₁, h₂⟩ := hin
      exact .inr ⟨n, h₁, h₂, rfl⟩
    · have hsame := h.raw r hr n (by omega) (by
        by_cases he : r = table
        · have : ¬ (lo ≤ n ∧ n < hi) := fun h' ↦ hin ⟨he, h'⟩
          omega
        · exact .inl he)
      rw [hsame] at hv ⊢
      exact .inl ⟨r, hr, n, hn, hv, rfl⟩
  · rintro (⟨r, hr, n, hn, hv, rfl⟩ | ⟨n, h₁, h₂, rfl⟩)
    · have hsame := h.raw r hr n (by omega) (by
        by_cases he : r = table
        · by_cases hlo : lo ≤ n ∧ n < hi
          · have hfalse := (h.fresh n hlo.1 hlo.2).2.1
            rw [← he, hv] at hfalse
            cases hfalse
          · omega
        · exact .inl he)
      exact ⟨r, hr, n, hn, by rw [hsame, hv], by rw [hsame]⟩
    · exact ⟨table, htable, n, by omega, (h.fresh n h₁ h₂).1, rfl⟩

theorem Extends.used (h : Extends kernel tables taken table lo hi s t free free')
    (htable : table ∈ tables) (hi' : hi ≤ userPages) {p : UInt64} (hp : s.Used tables taken p) :
    t.Used tables taken p :=
  hp.imp_right fun hb ↦ (h.backs htable hi').mpr (.inl hb)

theorem Extends.trans (h : Extends kernel tables taken table lo mid s t free free')
    (h' : Extends kernel tables taken table mid hi t w free' free'') (htable : table ∈ tables)
    (hmid : mid ≤ userPages) (hlo : lo ≤ mid) (hhi : mid ≤ hi) (hmax : hi ≤ 2 ^ 26) :
    Extends kernel tables taken table lo hi s w free free'' := by
  have hU := userPages_eq
  refine ⟨h'.space, h'.suffix.trans h.suffix, fun r hr n hn hout ↦ ?_, fun p hp ↦ ?_,
    fun n h₁ h₂ ↦ ?_⟩
  · rw [h'.raw r hr n hn (hout.imp_right fun h ↦ by omega),
      h.raw r hr n hn (hout.imp_right fun h ↦ by omega)]
  · rw [h'.memory p (h.used htable hmid hp), h.memory p hp]
  · by_cases hn : n < mid
    · obtain ⟨hv, hv', hmem⟩ := h.fresh n h₁ hn
      rw [h'.raw table htable n (by omega) (by omega)]
      exact ⟨hv, hv', hmem⟩
    · obtain ⟨hv, hv', hmem⟩ := h'.fresh n (by omega) h₂
      rw [h.raw table htable n (by omega) (by omega)] at hv'
      exact ⟨hv, hv', h.suffix.subset hmem⟩

/-- The page tables of processes start at a page. -/
theorem Space.aligned (h : Space s kernel tables taken free) (htable : table ∈ tables) :
    table.toNat % 4096 = 0 := h.wf.aligned_root (List.mem_cons_of_mem _ htable)

/-- A free page is not in use. -/
theorem Space.not_used (h : Space s kernel tables taken (q :: free)) :
    ¬ s.Used tables taken q := fun hq ↦ (h.wf.apart q hq).1 (by simp)

/-- The page is the first of a table, or the one before it is mapped. -/
def State.Next (s : State) (table : UInt64) (n : Nat) : Prop :=
  n = 0 ∨ v (s.raw table (n - 1)) = true

/-- Mapping a page taken off the free list, whatever was written to it. -/
theorem Space.give_takes (h : Space s kernel tables taken (q :: free)) (htable : table ∈ tables)
    (hf : f.toNat < 1024) (hva : va.toNat % 4096 = 0) (hn : page va < userPages)
    (ht : t.Blank free) (hm : ∀ p, p ≠ q → t.memory p = s.memory p) :
    Ends (fun e ↦ (e = PageTable.mapped ∧ v (s.raw table (page va)) = true) ∨
        (e = Page.outOfMemory ∧ (s.Next table (page va) →
          (q :: free).length + pagesFor (page va) < pagesFor (page va + 1))))
      (fun w ↦ w.1 = true ∧ ∃ free', w.2.memory q = t.memory q ∧
        w.2.raw table (page va) = leaf f q ∧
          Extends kernel tables taken table (page va) (page va + 1) s w.2 (q :: free) free' ∧
            (s.Next table (page va) →
              (q :: free).length + pagesFor (page va) ≤ free'.length + pagesFor (page va + 1)))
      (PageTable.map table va PAGE_SIZE q f t) := by
  have hU := userPages_eq
  have hdef : page va = va.toNat / 4096 := rfl
  have hq : q.toNat % 4096 = 0 := h.wf.pages.aligned q (by simp)
  have hroot : table ∈ kernel :: tables := List.mem_cons_of_mem _ htable
  obtain ⟨htake, hraw⟩ := h.wf.take ht hm
  have hmissing : s.Next table (page va) →
      t.missing table (page va) 2 + 1 + pagesFor (page va) ≤ pagesFor (page va + 1) := by
    refine fun hnext ↦ State.missing_next (hnext.imp_right fun hv ↦ ?_)
    rw [hraw table hroot, hv]
  refine ((PageTable.map_page_takes q htake hroot hf hva (by omega)).mono ?_).imp ?_
  · rintro e (⟨rfl, hv⟩ | ⟨rfl, hshort⟩)
    · rw [hraw table hroot] at hv
      exact .inl ⟨rfl, hv⟩
    · refine .inr ⟨rfl, fun hnext ↦ ?_⟩
      have := hmissing hnext
      rw [List.length_cons]
      omega
  · rintro ⟨b, w⟩ ⟨hb, hv, free', hgrows, hleaf, hcount⟩
    rw [hraw table hroot] at hv
    have hother : ∀ r ∈ tables, ∀ n < 2 ^ 26, (r ≠ table ∨ n < page va ∨ page va + 1 ≤ n) →
        w.raw r n = s.raw r n := by
      intro r hr n hn' hout
      have hout' : Outside table (page va) 0 r (path n 0) (index n 0) :=
        outside_page (by omega) (by omega) (hout.imp_right fun h ↦ by omega)
      rw [hgrows.raw (List.mem_cons_of_mem _ hr) hout', hraw r (List.mem_cons_of_mem _ hr)]
    have hold : ∀ r ∈ tables, ∀ n < userPages, ¬ (r = table ∧ n = page va) →
        w.raw r n = s.raw r n := by
      intro r hr n hn' hne
      refine hother r hr n (by omega) ?_
      by_cases he : r = table
      · have : n ≠ page va := fun h' ↦ hne ⟨he, h'⟩
        omega
      · exact .inl he
    have hvnew : v (w.raw table (page va)) = true := by rw [hleaf, v_leaf hf]
    have hpnew : toPhysicalAddress (w.raw table (page va)) = q := by
      rw [hleaf, toPhysicalAddress_leaf hf hq]
    have hback : ∀ p, w.Backs tables p → s.Backs tables p ∨ p = q := by
      rintro p ⟨r, hr, n, hn', hv', rfl⟩
      by_cases hin : r = table ∧ n = page va
      · obtain ⟨rfl, rfl⟩ := hin
        exact .inr hpnew
      · rw [hold r hr n hn' hin] at hv' ⊢
        exact .inl ⟨r, hr, n, hn', hv', rfl⟩
    have hfresh := h.not_used
    refine ⟨hb, free', hgrows.memory q (.inl rfl), hleaf, ⟨⟨{ hgrows.tables with apart := ?_ },
      h.notKernel, ?_, ?_, ?_⟩, hgrows.suffix.trans (List.suffix_cons q free), hother, ?_, ?_⟩,
      fun hnext ↦ ?_⟩
    · rintro p (hp | hp)
      · exact hgrows.tables.apart p (.inr (.inl hp))
      · rcases hback p hp with hp | rfl
        · exact hgrows.tables.apart p (.inr (.inr hp))
        · exact hgrows.tables.apart p (.inl rfl)
    · -- The new frame is nobody else's, the others are as before.
      intro r hr r' hr' n hn₁ n' hn₂ hv₁ hv₂ heq
      by_cases hin : r = table ∧ n = page va
      · by_cases hin' : r' = table ∧ n' = page va
        · exact ⟨hin.1.trans hin'.1.symm, hin.2.trans hin'.2.symm⟩
        · rw [hin.1, hin.2, hpnew, hold r' hr' n' hn₂ hin'] at heq
          rw [hold r' hr' n' hn₂ hin'] at hv₂
          exact absurd ⟨r', hr', n', hn₂, hv₂, heq.symm⟩ fun hb' ↦ hfresh (.inr hb')
      · rw [hold r hr n hn₁ hin] at hv₁ heq
        by_cases hin' : r' = table ∧ n' = page va
        · rw [hin'.1, hin'.2, hpnew] at heq
          exact absurd ⟨r, hr, n, hn₁, hv₁, heq⟩ fun hb' ↦ hfresh (.inr hb')
        · rw [hold r' hr' n' hn₂ hin'] at hv₂ heq
          exact h.distinct r hr r' hr' n hn₁ n' hn₂ hv₁ hv₂ heq
    · intro p hp hb'
      rcases hback p hb' with hb' | rfl
      · exact h.own p hp hb'
      · exact hfresh (.inl hp)
    · intro r hr n hlo hhi
      rw [hother r hr n hhi (by omega)]
      exact h.supervisor r hr n hlo hhi
    · intro p hp
      rw [hgrows.memory p (.inr hp), hm p fun he ↦ hfresh (he ▸ hp)]
    · intro n h₁ h₂
      obtain rfl : n = page va := by omega
      exact ⟨hvnew, hv, by rw [hpnew]; simp⟩
    · have := hmissing hnext
      rw [List.length_cons]
      change free.length ≤ free'.length + _ at hcount
      omega

theorem Space.give (h : Space s kernel tables taken (q :: free)) (htable : table ∈ tables)
    (hf : f.toNat < 1024) (hva : va.toNat % 4096 = 0) (hn : page va < userPages)
    (ht : t.Blank free) (hm : ∀ p, p ≠ q → t.memory p = s.memory p) :
    Ends (fun e ↦ (e = PageTable.mapped ∧ v (s.raw table (page va)) = true) ∨
        e = Page.outOfMemory)
      (fun w ↦ w.1 = true ∧ ∃ free', w.2.memory q = t.memory q ∧
        w.2.raw table (page va) = leaf f q ∧
          Extends kernel tables taken table (page va) (page va + 1) s w.2 (q :: free) free')
      (PageTable.map table va PAGE_SIZE q f t) := by
  refine ((h.give_takes htable hf hva hn ht hm).mono fun e he ↦
    he.imp_right fun he ↦ he.1).imp ?_
  rintro w ⟨hw, free', hmem, hleaf, hext, -⟩
  exact ⟨hw, free', hmem, hleaf, hext⟩

/-- Above the user pages there is nothing to map. -/
theorem Space.map_high (h : Space s kernel tables taken (q :: free)) (htable : table ∈ tables)
    (hf : f.toNat < 1024) (hva : va.toNat % 4096 = 0) (hn : userPages ≤ page va)
    (ht : t.Blank free) (hm : ∀ p, p ≠ q → t.memory p = s.memory p) :
    Ends (fun _ ↦ True) (fun _ ↦ False) (PageTable.map table va PAGE_SIZE q f t) := by
  have hdef : page va = va.toNat / 4096 := rfl
  by_cases hmax : va.toNat < 2 ^ 38
  · have hroot : table ∈ kernel :: tables := List.mem_cons_of_mem _ htable
    obtain ⟨htake, hraw⟩ := h.wf.take ht hm
    refine ((PageTable.map_page q htake hroot hf hva hmax).mono fun _ _ ↦ trivial).imp ?_
    rintro ⟨b, w⟩ ⟨-, hv, -⟩
    rw [hraw table hroot, (h.supervisor table htable _ hn (by omega)).1] at hv
    cases hv
  · have hge : ¬ va < MAX_VIRTUAL_ADDRESS := fun hlt ↦ hmax (UInt64.lt_iff_toNat_lt.mp hlt)
    rw [PageTable.map, if_neg (by decide), roundDown_of_aligned hva]
    change Ends _ _ (PageTable.mapFrom table _ f (2 ^ 26 + 1) va q t)
    rw [PageTable.mapFrom, PageTable.walk, if_neg hge]
    trivial

/-- No page of the range is mapped, and all of them are user pages. -/
def State.Clear (s : State) (table : UInt64) (lo hi : Nat) : Prop :=
  hi ≤ userPages ∧ ∀ n, lo ≤ n → n < hi → v (s.raw table n) = false

/-- The pages from `lo` to `hi` have the given flags, and nothing but zero bytes in their
frames. -/
def State.Zeroed (s : State) (table : UInt64) (f : UInt16) (lo hi : Nat) : Prop :=
  ∀ n, lo ≤ n → n < hi → flags (s.raw table n) = f ||| 1 ∧
    s.memory (toPhysicalAddress (s.raw table n)) = zeros

/-- One more page of zero bytes. -/
theorem State.Zeroed.cons (hraw : t.raw table lo = leaf f q) (hf : f.toNat < 1024)
    (hq : q.toNat % 4096 = 0) (hzero : t.memory q = zeros) (htable : table ∈ tables)
    (hlo : lo < userPages) (he : Extends kernel tables taken table (lo + 1) hi t w free free')
    (h : w.Zeroed table f (lo + 1) hi) : w.Zeroed table f lo hi := by
  intro n h₁ h₂
  by_cases hn : n = lo
  · have hU := userPages_eq
    have hused : t.Used tables taken q := .inr ⟨table, htable, lo, hlo, by rw [hraw, v_leaf hf],
      by rw [hraw, toPhysicalAddress_leaf hf hq]⟩
    rw [hn, he.raw table htable lo (by omega) (by omega), hraw, flags_leaf hf,
      toPhysicalAddress_leaf hf hq, he.memory q hused, hzero]
    exact ⟨rfl, rfl⟩
  · exact h n (by omega) h₂

/-- The loop of `allocateUserVirtualMemory`. It only halts for lack of memory, unless it comes to
a page that is mapped. With the pages before it mapped, it takes what the image takes. -/
theorem allocateUserFrom_takes {oldSize newSize xperm addr : UInt64} {fuel : Nat}
    (h : Space s kernel tables taken free) (htable : table ∈ tables)
    (hperm : (PTE_R ||| PTE_U ||| xperm).toUInt16.toNat < 1024) (haddr : addr.toNat % 4096 = 0)
    (hsmall : addr.toNat ≤ 2 ^ 38) (hfuel : pageCount newSize ≤ page addr + fuel) :
    Ends (fun e ↦ (e = Page.outOfMemory ∧
          (s.Next table (page addr) → page addr ≤ pageCount newSize →
            free.length + pagesFor (page addr) < pagesFor (pageCount newSize))) ∨
        ¬ s.Clear table (page addr) (pageCount newSize))
      (fun w ↦ w.1 = newSize ∧ (page addr < pageCount newSize → pageCount newSize ≤ userPages) ∧
        ∃ free', Extends kernel tables taken table (page addr) (pageCount newSize) s w.2 free
            free' ∧
          (s.Next table (page addr) → page addr ≤ pageCount newSize →
            free.length + pagesFor (page addr) ≤ free'.length + pagesFor (pageCount newSize)) ∧
          w.2.Zeroed table (PTE_R ||| PTE_U ||| xperm).toUInt16 (page addr) (pageCount newSize))
      (allocateUserFrom table oldSize newSize xperm fuel addr s) := by
  have hU := userPages_eq
  have hdef : page addr = addr.toNat / 4096 := rfl
  have hcount : pageCount newSize = (newSize.toNat + 4095) / 4096 := rfl
  induction fuel generalizing addr s free with
  | zero =>
    refine ⟨rfl, fun hlt ↦ by omega, free, Extends.refl h (by omega), fun _ hle ↦ ?_,
      fun n h₁ h₂ ↦ by omega⟩
    rw [show page addr = pageCount newSize by omega]
  | succ fuel ih =>
    unfold allocateUserFrom
    by_cases hlt : addr < newSize
    · have hlt' : addr.toNat < newSize.toNat := UInt64.lt_iff_toNat_lt.mp hlt
      have hmore : pagesFor (page addr) < pagesFor (pageCount newSize) := by
        rw [pagesFor, pagesFor]
        omega
      rw [if_pos hlt]
      cases free with
      | nil =>
        rw [Page.allocate_nil h.wf.pages.toFree]
        exact .inl ⟨rfl, fun _ _ ↦ by rwa [List.length_nil, Nat.zero_add]⟩
      | cons q free =>
        obtain ⟨t, hs, hfree, -, hmem⟩ := Page.allocate_blank h.wf.pages
        have hq : q ≠ 0 := h.wf.pages.linked.ne_zero (by simp)
        have hother : ∀ p, p ≠ q → t.memory p = s.memory p := fun p hp ↦ by
          rw [hmem, Function.update_of_ne hp]
        rw [hs]
        change Ends _ _ (if q = 0 then _ else _)
        rw [if_neg hq]
        by_cases hpage : page addr < userPages
        · have hnext : (addr + PAGE_SIZE).toNat = addr.toNat + 4096 := by
            rw [UInt64.toNat_add]
            exact Nat.mod_eq_of_lt (by change addr.toNat + 4096 < _; omega)
          have hnextPage : page (addr + PAGE_SIZE) = page addr + 1 := by
            change (addr + PAGE_SIZE).toNat / 4096 = addr.toNat / 4096 + 1
            rw [hnext]
            omega
          have hgrow : pagesFor (page addr + 1) ≤ pagesFor (pageCount newSize) := by
            rw [pagesFor, pagesFor]
            omega
          have hgive := h.give_takes htable hperm haddr hpage hfree hother
          refine ends_bind (hgive.mono ?_) ?_
          · rintro e (⟨-, hv⟩ | ⟨rfl, hshort⟩)
            · refine .inr fun hclear ↦ ?_
              rw [hclear.2 (page addr) (Nat.le_refl _) (by omega)] at hv
              cases hv
            · exact .inl ⟨rfl, fun hn _ ↦ (hshort hn).trans_le hgrow⟩
          · rintro ⟨b, w⟩ ⟨hb, free', hbytes, hleaf, hext, htook⟩
            cases hb
            have hzero : w.memory q = zeros := hbytes.trans (by rw [hmem, Function.update_self])
            change Ends _ _ (if ¬ true = true then _ else _)
            rw [if_neg (by simp)]
            have hmapped : w.Next table (page addr + 1) :=
              .inr (hext.fresh _ (Nat.le_refl _) (Nat.lt_succ_self _)).1
            refine ((ih hext.space (by omega) (by omega) (by rw [hnextPage]; omega)
              rfl).mono ?_).imp ?_
            · rw [hnextPage]
              rintro e (⟨rfl, hshort⟩ | hclear)
              · refine .inl ⟨rfl, fun hn _ ↦ ?_⟩
                have hrest := hshort hmapped (by omega)
                have hfirst := htook hn
                omega
              · refine .inr fun hclear' ↦ hclear ⟨hclear'.1, fun n h₁ h₂ ↦ ?_⟩
                have hle := hclear'.1
                rw [hext.raw table htable n (by omega) (by omega)]
                exact hclear'.2 n (by omega) h₂
            · rintro ⟨r, w'⟩ ⟨hr, hhigh, free'', hext', htook', hzeroed⟩
              rw [hnextPage] at hhigh hext' htook' hzeroed
              refine ⟨hr, fun _ ↦ ?_, free'', hext.trans hext' htable (by omega) (by omega)
                (by omega) ?_, fun hn _ ↦ ?_, hzeroed.cons hleaf hperm
                  (h.wf.pages.aligned q (by simp)) hzero htable hpage hext'⟩
              · by_cases hlast : page addr + 1 < pageCount newSize
                · exact hhigh hlast
                · omega
              · by_cases hlast : page addr + 1 < pageCount newSize
                · have := hhigh hlast
                  omega
                · omega
              · have hrest := htook' hmapped (by omega)
                have hfirst := htook hn
                omega
        · have hhigh := h.map_high htable hperm haddr (by omega) hfree hother
          refine ends_bind (hhigh.mono fun e _ ↦ .inr fun hclear ↦ ?_) fun w hw ↦ hw.elim
          have := hclear.1
          omega
    · rw [if_neg hlt]
      have hle : newSize.toNat ≤ addr.toNat := by
        have := mt UInt64.lt_iff_toNat_lt.mpr hlt
        omega
      refine ⟨rfl, fun hlt' ↦ by omega, free, Extends.refl h (by omega), fun _ hle ↦ ?_,
        fun n h₁ h₂ ↦ by omega⟩
      rw [show page addr = pageCount newSize by omega]

theorem roundUp_toNat {a : UInt64} (h : a.toNat ≤ 2 ^ 38) :
    (roundUp a).toNat = 4096 * pageCount a := by
  have hadd : (a + PAGE_SIZE - 1).toNat = a.toNat + 4095 := by
    have h₁ : (a + PAGE_SIZE).toNat = a.toNat + 4096 := by
      rw [UInt64.toNat_add]
      exact Nat.mod_eq_of_lt (by change a.toNat + 4096 < _; omega)
    have hle : (1 : UInt64) ≤ a + PAGE_SIZE := UInt64.le_iff_toNat_le.mpr (by
      rw [h₁]
      change 1 ≤ _
      omega)
    rw [UInt64.toNat_sub_of_le _ _ hle, h₁]
    rfl
  have hround := roundDown_toNat (a + PAGE_SIZE - 1)
  rw [roundDown, hadd] at hround
  rw [roundUp, hround, pageCount]
  omega

/-- `allocateUserVirtualMemory` maps the pages between the two sizes. -/
theorem allocateUserVirtualMemory_takes {oldSize newSize xperm : UInt64}
    (h : Space s kernel tables taken free) (htable : table ∈ tables)
    (hperm : (PTE_R ||| PTE_U ||| xperm).toUInt16.toNat < 1024) (hold : oldSize.toNat ≤ 2 ^ 38)
    (hle : oldSize ≤ newSize) :
    Ends (fun e ↦ (e = Page.outOfMemory ∧ (s.Next table (pageCount oldSize) →
          free.length + pagesFor (pageCount oldSize) < pagesFor (pageCount newSize))) ∨
        ¬ s.Clear table (pageCount oldSize) (pageCount newSize))
      (fun w ↦ w.1 = newSize ∧
        (pageCount oldSize < pageCount newSize → pageCount newSize ≤ userPages) ∧
          ∃ free', Extends kernel tables taken table (pageCount oldSize) (pageCount newSize) s w.2
            free free' ∧
          (s.Next table (pageCount oldSize) →
            free.length + pagesFor (pageCount oldSize) ≤
              free'.length + pagesFor (pageCount newSize)) ∧
          w.2.Zeroed table (PTE_R ||| PTE_U ||| xperm).toUInt16 (pageCount oldSize)
            (pageCount newSize))
      (allocateUserVirtualMemory table oldSize newSize xperm s) := by
  have hup := roundUp_toNat hold
  have hpage : page (roundUp oldSize) = pageCount oldSize := by
    change (roundUp oldSize).toNat / 4096 = _
    rw [hup]
    omega
  have hcount : pageCount oldSize = (oldSize.toNat + 4095) / 4096 := rfl
  have hcount' : pageCount newSize = (newSize.toNat + 4095) / 4096 := rfl
  have hle' := UInt64.le_iff_toNat_le.mp hle
  rw [allocateUserVirtualMemory, if_neg (UInt64.not_lt.mpr hle), ← hpage]
  refine ((allocateUserFrom_takes h htable hperm (by omega) (by omega) (by omega)).mono ?_).imp ?_
  · rintro e (⟨he, hshort⟩ | hclear)
    · exact .inl ⟨he, fun hn ↦ hshort hn (by omega)⟩
    · exact .inr hclear
  · rintro w ⟨hw, hmax, free', hext, htook, hzeroed⟩
    exact ⟨hw, hmax, free', hext, fun hn ↦ htook hn (by omega), hzeroed⟩

theorem allocateUserVirtualMemory_extends {oldSize newSize xperm : UInt64}
    (h : Space s kernel tables taken free) (htable : table ∈ tables)
    (hperm : (PTE_R ||| PTE_U ||| xperm).toUInt16.toNat < 1024) (hold : oldSize.toNat ≤ 2 ^ 38)
    (hle : oldSize ≤ newSize) :
    Ends (fun e ↦ e = Page.outOfMemory ∨
        ¬ s.Clear table (pageCount oldSize) (pageCount newSize))
      (fun w ↦ w.1 = newSize ∧
        (pageCount oldSize < pageCount newSize → pageCount newSize ≤ userPages) ∧
          ∃ free', Extends kernel tables taken table (pageCount oldSize) (pageCount newSize) s w.2
            free free')
      (allocateUserVirtualMemory table oldSize newSize xperm s) := by
  refine ((allocateUserVirtualMemory_takes h htable hperm hold hle).mono fun e he ↦
    he.imp_left fun he ↦ he.1).imp ?_
  rintro w ⟨hw, hmax, free', hext, -⟩
  exact ⟨hw, hmax, free', hext⟩

end

end Orfos.Memory
