import Orfos.Memory.Process

/-!
# Frames

What the functions of `kernel/memory` and `kernel/process` do to the pages in use. All of them
add pages and tables and leave the pages in use as they are, except where they write to a frame
of the table that they were called for.
-/

namespace Orfos.Memory

open Orfos.Base PageTableEntry VirtualAddress

/-- From `s` to `t` tables and pages may have been added. The tables and pages that were in use
have not changed. -/
structure Since (kernel : UInt64) (tables taken : List UInt64) (s : State)
    (tables' taken' : List UInt64) (t : State) : Prop where
  space : ∃ free, Space t kernel tables' taken' free
  keepTables : tables ⊆ tables'
  keepTaken : taken ⊆ taken'
  raw : ∀ r ∈ tables, ∀ n < 2 ^ 26, t.raw r n = s.raw r n
  memory : ∀ p, s.Used tables taken p → t.memory p = s.memory p

/-- All pages of an image of some size are mapped. -/
def State.Whole (s : State) (table size : UInt64) : Prop :=
  pageCount size ≤ userPages ∧ ∀ n < pageCount size, v (s.raw table n) = true

/-- The user pages mapped are those of an image of some size. -/
def State.Exact (s : State) (table size : UInt64) : Prop :=
  pageCount size ≤ userPages ∧
    ∀ n < userPages, v (s.raw table n) = true ↔ n < pageCount size

section

variable {s t w : State} {kernel table q : UInt64} {n lo hi : Nat}
  {tables tables' tables'' taken taken' taken'' free free' : List UInt64}

theorem Since.refl (h : Space s kernel tables taken free) :
    Since kernel tables taken s tables taken s :=
  ⟨⟨free, h⟩, fun _ h ↦ h, fun _ h ↦ h, fun _ _ _ _ ↦ rfl, fun _ _ ↦ rfl⟩

theorem Since.backs (h : Since kernel tables taken s tables' taken' t) {p : UInt64}
    (hp : s.Backs tables p) : t.Backs tables' p := by
  have hU := userPages_eq
  obtain ⟨r, hr, n, hn, hv, rfl⟩ := hp
  have hsame := h.raw r hr n (by omega)
  exact ⟨r, h.keepTables hr, n, hn, by rw [hsame, hv], by rw [hsame]⟩

theorem Since.used (h : Since kernel tables taken s tables' taken' t) {p : UInt64}
    (hp : s.Used tables taken p) : t.Used tables' taken' p :=
  hp.imp (fun hp ↦ h.keepTaken hp) h.backs

theorem Since.trans (h : Since kernel tables taken s tables' taken' t)
    (h' : Since kernel tables' taken' t tables'' taken'' w) :
    Since kernel tables taken s tables'' taken'' w := by
  refine ⟨h'.space, fun r hr ↦ h'.keepTables (h.keepTables hr),
    fun p hp ↦ h'.keepTaken (h.keepTaken hp), ?_, ?_⟩
  · intro r hr n hn
    rw [h'.raw r (h.keepTables hr) n hn, h.raw r hr n hn]
  · intro p hp
    rw [h'.memory p (h.used hp), h.memory p hp]

/-- Pages mapped in a table that is new. -/
theorem Since.extends (h : Since kernel tables taken s tables' taken' t)
    (he : Extends kernel tables' taken' table lo hi t w free free') (hnew : table ∉ tables) :
    Since kernel tables taken s tables' taken' w := by
  refine ⟨⟨free', he.space⟩, h.keepTables, h.keepTaken, ?_, ?_⟩
  · intro r hr n hn
    have hne : r ≠ table := fun heq ↦ hnew (heq ▸ hr)
    rw [he.raw r (h.keepTables hr) n hn (.inl hne), h.raw r hr n hn]
  · intro p hp
    rw [he.memory p (h.used hp), h.memory p hp]

theorem pageCount_mono {a b : UInt64} (h : a ≤ b) : pageCount a ≤ pageCount b := by
  have := UInt64.le_iff_toNat_le.mp h
  rw [pageCount, pageCount]
  omega

/-- The image of a table after the pages between two sizes were mapped. -/
theorem Extends.whole {size newSize : UInt64}
    (h : Extends kernel tables taken table (pageCount size) (pageCount newSize) s t free free')
    (htable : table ∈ tables) (hw : s.Whole table size) (hle : size ≤ newSize)
    (hmax : pageCount size < pageCount newSize → pageCount newSize ≤ userPages) :
    t.Whole table newSize := by
  have hU := userPages_eq
  have hmono := pageCount_mono hle
  have hcount := hw.1
  refine ⟨?_, fun n hn ↦ ?_⟩
  · by_cases hlt : pageCount size < pageCount newSize
    · exact hmax hlt
    · omega
  · by_cases hold : n < pageCount size
    · rw [h.raw table htable n (by omega) (by omega)]
      exact hw.2 n hold
    · exact (h.fresh n (by omega) hn).1

theorem State.Exact.whole {size : UInt64} (h : s.Exact table size) : s.Whole table size :=
  ⟨h.1, fun n hn ↦ (h.2 n (hn.trans_le h.1)).mpr hn⟩

theorem State.Exact.congr {size : UInt64} (h : s.Exact table size)
    (hraw : ∀ n < 2 ^ 26, t.raw table n = s.raw table n) : t.Exact table size := by
  have hU := userPages_eq
  refine ⟨h.1, fun n hn ↦ ?_⟩
  rw [hraw n (by omega)]
  exact h.2 n hn

/-- If no other pages were mapped before, none are after. -/
theorem Extends.exact {size newSize : UInt64}
    (h : Extends kernel tables taken table (pageCount size) (pageCount newSize) s t free free')
    (htable : table ∈ tables) (he : s.Exact table size) (hle : pageCount size ≤ pageCount newSize)
    (hmax : pageCount size < pageCount newSize → pageCount newSize ≤ userPages) :
    t.Exact table newSize := by
  have hU := userPages_eq
  have hcount := he.1
  refine ⟨?_, fun n hn ↦ ?_⟩
  · by_cases hlt : pageCount size < pageCount newSize
    · exact hmax hlt
    · omega
  · by_cases hin : pageCount size ≤ n ∧ n < pageCount newSize
    · exact ⟨fun _ ↦ hin.2, fun _ ↦ (h.fresh n hin.1 hin.2).1⟩
    · rw [h.raw table htable n (by omega) (by omega), he.2 n hn]
      omega

/-- Pages stay mapped. -/
theorem Extends.valid (h : Extends kernel tables taken table lo hi s t free free') {r : UInt64}
    (hr : r ∈ tables) (hn : n < 2 ^ 26) (hv : v (s.raw r n) = true) : v (t.raw r n) = true := by
  by_cases hin : r = table ∧ lo ≤ n ∧ n < hi
  · obtain ⟨rfl, h₁, h₂⟩ := hin
    exact (h.fresh n h₁ h₂).1
  · rw [h.raw r hr n hn ?_]
    · exact hv
    · by_cases he : r = table
      · have : ¬ (lo ≤ n ∧ n < hi) := fun h' ↦ hin ⟨he, h'⟩
        omega
      · exact .inl he

/-- An address space depends on the frames of its pages, and on which of them are user pages. -/
theorem Space.congr (h : Space s kernel tables taken free)
    (hwf : Tables t (kernel :: tables) (s.Used tables taken) free')
    (hraw : ∀ r ∈ tables, ∀ n < 2 ^ 26, v (t.raw r n) = v (s.raw r n) ∧
      toPhysicalAddress (t.raw r n) = toPhysicalAddress (s.raw r n) ∧
        (userPages ≤ n → u (t.raw r n) = u (s.raw r n))) :
    Space t kernel tables taken free' := by
  have hU := userPages_eq
  have hback : ∀ p, t.Backs tables p → s.Backs tables p := by
    rintro p ⟨r, hr, n, hn, hv, rfl⟩
    obtain ⟨hv', hp, -⟩ := hraw r hr n (by omega)
    exact ⟨r, hr, n, hn, by rw [← hv', hv], hp.symm⟩
  refine ⟨hwf.mono fun p hp ↦ hp.imp_right (hback p), h.notKernel, ?_, ?_, ?_⟩
  · intro r hr r' hr' n hn n' hn' hv hv' heq
    obtain ⟨hvs, hps, -⟩ := hraw r hr n (by omega)
    obtain ⟨hvs', hps', -⟩ := hraw r' hr' n' (by omega)
    rw [hvs] at hv
    rw [hvs'] at hv'
    rw [hps, hps'] at heq
    exact h.distinct r hr r' hr' n hn n' hn' hv hv' heq
  · exact fun p hp hb ↦ h.own p hp (hback p hb)
  · intro r hr n h₁ h₂
    obtain ⟨hvs, -, hus⟩ := hraw r hr n h₂
    rw [hvs, hus h₁]
    exact h.supervisor r hr n h₁ h₂

theorem Space.of_raw (h : Space s kernel tables taken free)
    (hwf : Tables t (kernel :: tables) (s.Used tables taken) free')
    (hraw : ∀ r ∈ tables, ∀ n < 2 ^ 26, t.raw r n = s.raw r n) :
    Space t kernel tables taken free' := by
  refine h.congr hwf fun r hr n hn ↦ ?_
  rw [hraw r hr n hn]
  exact ⟨rfl, rfl, fun _ ↦ rfl⟩

/-! ### Writes to pages in use -/

/-- From `s` to `t` frames of `table` were written. -/
structure Wrote (kernel : UInt64) (tables taken : List UInt64) (table : UInt64) (s t : State) :
    Prop where
  space : ∃ free, Space t kernel tables taken free
  raw : ∀ r ∈ tables, ∀ n < 2 ^ 26, t.raw r n = s.raw r n
  memory : ∀ p, ¬ s.Backs [table] p → t.memory p = s.memory p

theorem Wrote.refl (h : Space s kernel tables taken free) :
    Wrote kernel tables taken table s s :=
  ⟨⟨free, h⟩, fun _ _ _ _ ↦ rfl, fun _ _ ↦ rfl⟩

theorem Wrote.trans (h : Wrote kernel tables taken table s t)
    (h' : Wrote kernel tables taken table t w) (htable : table ∈ tables) :
    Wrote kernel tables taken table s w := by
  have hU := userPages_eq
  refine ⟨h'.space, fun r hr n hn ↦ ?_, fun p hp ↦ ?_⟩
  · rw [h'.raw r hr n hn, h.raw r hr n hn]
  · rw [h'.memory p ?_, h.memory p hp]
    rintro ⟨r, hr, n, hn, hv, he⟩
    rw [List.mem_singleton.mp hr, h.raw table htable n (by omega)] at hv he
    exact hp ⟨table, List.mem_singleton_self table, n, hn, hv, he⟩

/-- A page in use may be written. -/
theorem Space.write (h : Space s kernel tables taken free) {p : UInt64}
    (hp : s.Used tables taken p) (hl : t.freeList = s.freeList)
    (hm : ∀ m, m ≠ p → t.memory m = s.memory m) :
    Space t kernel tables taken free ∧ ∀ r ∈ tables, ∀ n < 2 ^ 26, t.raw r n = s.raw r n := by
  obtain ⟨hfree, htable⟩ := h.wf.apart p hp
  have hpages : t.Blank free := h.wf.pages.congr hl fun m hmem ↦ by
    refine hm m ?_
    rintro rfl
    exact hfree hmem
  obtain ⟨hwf, hraw, -⟩ := h.wf.frame hpages (List.Subset.refl free) fun m hmt ↦ by
    refine hm m ?_
    rintro rfl
    exact htable hmt
  have hraw' : ∀ r ∈ tables, ∀ n < 2 ^ 26, t.raw r n = s.raw r n := fun r hr n _ ↦
    hraw r (List.mem_cons_of_mem _ hr) n
  exact ⟨h.of_raw hwf hraw', hraw'⟩

theorem State.fill_memory_ne (s : State) {p : UInt64} (offset : Nat) (bytes : List UInt8)
    {m : UInt64} (hm : m ≠ p) : (s.fill p offset bytes).memory m = s.memory m := by
  rw [State.fill, State.setPage_memory, Function.update_of_ne hm]

/-- A write to the frame of a user page. -/
theorem Space.wrote (h : Space s kernel tables taken free) (htable : table ∈ tables)
    (hn : n < userPages) (hv : v (s.raw table n) = true) (c : Contents) :
    Wrote kernel tables taken table s (s.setPage (toPhysicalAddress (s.raw table n)) c) := by
  have hused : s.Used tables taken (toPhysicalAddress (s.raw table n)) :=
    .inr ⟨table, htable, n, hn, hv, rfl⟩
  obtain ⟨hspace, hraw⟩ := h.write (t := s.setPage _ c) hused rfl fun m hm ↦ by
    rw [State.setPage_memory, Function.update_of_ne hm]
  refine ⟨⟨free, hspace⟩, hraw, fun p hp ↦ ?_⟩
  rw [State.setPage_memory, Function.update_of_ne]
  rintro rfl
  exact hp ⟨table, List.mem_singleton_self table, n, hn, hv, rfl⟩

theorem Space.filled (h : Space s kernel tables taken free) (htable : table ∈ tables)
    (hn : n < userPages) (hv : v (s.raw table n) = true) (offset : Nat) (bytes : List UInt8) :
    Wrote kernel tables taken table s (s.fill (toPhysicalAddress (s.raw table n)) offset bytes) :=
  h.wrote htable hn hv _

/-- Writes to the frames of a table leave the pages of the others alone. -/
theorem Space.not_backs (h : Space s kernel tables taken free) (htable : table ∈ tables)
    {r : UInt64} (hr : r ∈ tables) (hne : r ≠ table) (hn : n < userPages)
    (hv : v (s.raw r n) = true) : ¬ s.Backs [table] (toPhysicalAddress (s.raw r n)) := by
  rintro ⟨r', hr', n', hn', hv', heq⟩
  rw [List.mem_singleton.mp hr'] at hv' heq
  exact hne (h.distinct table htable r hr n' hn' n hn hv' hv heq).1.symm

/-- Writes to the frames of a new table. -/
theorem Since.wrote (h : Since kernel tables taken s tables' taken' t)
    (hw : Wrote kernel tables' taken' table t w) (htable : table ∈ tables')
    (hnew : table ∉ tables) : Since kernel tables taken s tables' taken' w := by
  have hU := userPages_eq
  obtain ⟨free, hs⟩ := h.space
  refine ⟨hw.space, h.keepTables, h.keepTaken, fun r hr n hn ↦ ?_, fun p hp ↦ ?_⟩
  · rw [hw.raw r (h.keepTables hr) n hn, h.raw r hr n hn]
  · rw [hw.memory p ?_, h.memory p hp]
    -- The frames of the new table are not those that were in use.
    rcases hp with hp | ⟨r, hr, n, hn, hv, rfl⟩
    · rintro ⟨r, hr, n, hn, hv, rfl⟩
      rw [List.mem_singleton.mp hr] at hv hp
      exact hs.own _ (h.keepTaken hp) ⟨table, htable, n, hn, hv, rfl⟩
    · have hraw := h.raw r hr n (by omega)
      have hne : r ≠ table := fun he ↦ hnew (he ▸ hr)
      rw [← hraw] at hv ⊢
      exact hs.not_backs htable (h.keepTables hr) hne hn hv

/-! ### Pages taken off the free list -/

theorem Space.forget (h : Space s kernel tables taken free) (hsub : taken' ⊆ taken) :
    Space s kernel tables taken' free :=
  ⟨h.wf.mono fun _ hn ↦ hn.imp_left fun hn ↦ hsub hn, h.notKernel, h.distinct,
    fun p hp ↦ h.own p (hsub hp), h.supervisor⟩

/-- A page that the rest of the kernel takes. -/
theorem Space.take (h : Space s kernel tables taken (q :: free)) (ht : t.Blank free)
    (hm : ∀ p, p ≠ q → t.memory p = s.memory p) :
    Space t kernel tables (q :: taken) free ∧
      ∀ r ∈ tables, ∀ n < 2 ^ 26, t.raw r n = s.raw r n := by
  have hU := userPages_eq
  obtain ⟨hwf, hraw⟩ := h.wf.take ht hm
  have hraw' : ∀ r ∈ tables, ∀ n < 2 ^ 26, t.raw r n = s.raw r n := fun r hr n _ ↦
    hraw r (List.mem_cons_of_mem _ hr) n
  have hspace := h.of_raw (hwf.mono fun p hp ↦ .inr hp) hraw'
  have hback : ∀ p, t.Backs tables p → s.Backs tables p := by
    rintro p ⟨r, hr, n, hn, hv, rfl⟩
    rw [hraw' r hr n (by omega)] at hv ⊢
    exact ⟨r, hr, n, hn, hv, rfl⟩
  refine ⟨⟨hwf.mono ?_, h.notKernel, hspace.distinct, ?_, hspace.supervisor⟩, hraw'⟩
  · rintro p (hp | hp)
    · exact (List.mem_cons.mp hp).imp_right .inl
    · exact .inr (.inr (hback p hp))
  · intro p hp hb
    rcases List.mem_cons.mp hp with rfl | hp
    · exact h.not_used (.inr (hback p hb))
    · exact hspace.own p hp hb

/-- `Page::allocate`, for the rest of the kernel. -/
theorem Page.allocate_since (h : Space s kernel tables taken free) :
    Ends (· = Page.outOfMemory)
      (fun w ↦ w.2.memory w.1 = zeros ∧ w.1 ∈ free ∧
        Since kernel tables taken s tables (w.1 :: taken) w.2)
      (Page.allocate s) := by
  cases free with
  | nil =>
    rw [Page.allocate_nil h.wf.pages.toFree]
    rfl
  | cons q free =>
    obtain ⟨t, hs, hfree, -, hmem⟩ := Page.allocate_blank h.wf.pages
    have hother : ∀ p, p ≠ q → t.memory p = s.memory p := fun p hp ↦ by
      rw [hmem, Function.update_of_ne hp]
    obtain ⟨hspace, hraw⟩ := h.take hfree hother
    rw [hs]
    refine ⟨by rw [hmem, Function.update_self], by simp, ⟨free, hspace⟩, fun _ h ↦ h,
      List.subset_cons_self q taken, hraw, fun p hp ↦ hother p ?_⟩
    rintro rfl
    exact h.not_used hp

theorem Since.forget (h : Since kernel tables taken s tables' taken' t) (hsub : taken'' ⊆ taken')
    (hkeep : taken ⊆ taken'') : Since kernel tables taken s tables' taken'' t := by
  obtain ⟨free, hs⟩ := h.space
  exact ⟨⟨free, hs.forget hsub⟩, h.keepTables, hkeep, h.raw, h.memory⟩

theorem New.allocateFrom_since {limit offset : UInt64} {fuel : Nat}
    (h : Space s kernel tables taken free) :
    Ends (· = Page.outOfMemory) (Since kernel tables taken s tables taken)
      (New.allocateFrom limit fuel offset s) := by
  induction fuel generalizing s offset free with
  | zero => exact Since.refl h
  | succ fuel ih =>
    rw [New.allocateFrom]
    split
    · refine ends_bind (Page.allocate_since h) fun w hw ↦ ?_
      have hdrop := hw.2.2.forget (List.subset_cons_self _ _) (List.Subset.refl taken)
      obtain ⟨free', hs⟩ := hdrop.space
      exact (ih hs).imp fun t ht ↦ hdrop.trans ht
    · exact Since.refl h

/-- `operator new`: the first page of the object is the one that it returns. -/
theorem New.allocate_since {size : UInt64} (hsize : 0 < size)
    (h : Space s kernel tables taken free) :
    Ends (· = Page.outOfMemory)
      (fun w ↦ Since kernel tables taken s tables (w.1 :: taken) w.2)
      (New.allocate size s) := by
  rw [New.allocate, if_neg (not_not.mpr hsize)]
  split
  · exact (Page.allocate_since h).imp fun w hw ↦ hw.2.2
  · refine ends_bind (Page.allocate_since h) fun w hw ↦ ?_
    obtain ⟨free', hs⟩ := hw.2.2.space
    exact ends_map ((New.allocateFrom_since hs).imp fun t ht ↦ hw.2.2.trans ht)

/-! ### Page tables of processes -/

theorem Tables.reorder {roots roots' : List UInt64} {kept : UInt64 → Prop}
    (h : Tables s roots kept free) (hiff : ∀ r, r ∈ roots' ↔ r ∈ roots) :
    Tables s roots' kept free := by
  have htable : ∀ n, s.IsTable roots' n ↔ s.IsTable roots n := by
    intro n
    constructor
    · rintro ⟨r, p, hr, hp, hn⟩
      exact ⟨r, p, (hiff r).mp hr, hp, hn⟩
    · rintro ⟨r, p, hr, hp, hn⟩
      exact ⟨r, p, (hiff r).mpr hr, hp, hn⟩
  refine ⟨h.pages, ?_, ?_, ?_, ?_, ?_⟩
  · intro r₁ r₂ p₁ p₂ n h₁ h₂
    exact h.forest r₁ r₂ p₁ p₂ n ((hiff r₁).mp h₁) ((hiff r₂).mp h₂)
  · exact fun n hn ↦ h.aligned n ((htable n).mp hn)
  · exact fun n hn ↦ h.notFree n ((htable n).mp hn)
  · exact fun r hr ↦ h.blank r ((hiff r).mp hr)
  · exact fun n hn ↦ ⟨(h.apart n hn).1, fun ht ↦ (h.apart n hn).2 ((htable n).mp ht)⟩

theorem Tables.root {roots : List UInt64} {kept : UInt64 → Prop} {r : UInt64}
    (h : Tables s roots kept free) (hr : r ∈ roots) : r ∉ free :=
  h.notFree r ⟨r, [], hr, Nat.zero_le _, rfl⟩

/-- The mapping of a page of the kernel in a new table. -/
theorem PageTable.map_new {roots : List UInt64} {kept : UInt64 → Prop} {va pa : UInt64}
    {f : UInt16} (h : Tables s roots kept free) (hr : q ∈ roots) (hf : f.toNat < 1024)
    (hva : va.toNat % 4096 = 0) (hmax : va.toNat < 2 ^ 38)
    (hv : v (s.raw q (page va)) = false) :
    Ends (fun e ↦ e = Page.outOfMemory ∧ free.length < s.missing q (page va) 2)
      (fun w ↦ ∃ free', Tables w.2 roots kept free' ∧ w.2.raw q (page va) = leaf f pa ∧
        (∀ r ∈ roots, ∀ n < 2 ^ 26, r ≠ q ∨ n ≠ page va → w.2.raw r n = s.raw r n) ∧
          (∀ p, kept p → w.2.memory p = s.memory p) ∧
            free.length ≤ free'.length + s.missing q (page va) 2 ∧
              Radix.node child w.2.entries q (path (page va) 0) ≠ none)
      (PageTable.map q va PAGE_SIZE pa f s) := by
  have hdef : page va = va.toNat / 4096 := rfl
  refine ((PageTable.map_page_takes pa h hr hf hva hmax).mono ?_).imp ?_
  · rintro e (⟨-, hv'⟩ | he)
    · rw [hv] at hv'
      cases hv'
    · exact he
  · rintro w ⟨-, -, free', hgrows, hleaf, hcount⟩
    refine ⟨free', hgrows.tables, hleaf, fun r hr' n hn hne ↦ ?_, hgrows.memory, hcount,
      State.node_of_valid (by rw [hleaf, v_leaf hf])⟩
    exact hgrows.raw hr' (outside_page (by omega) (by omega) (hne.imp_right fun hne ↦ by omega))

/-- `Process::makePageTable`: a new table without user pages, in three pages. -/
theorem makePageTable_takes {trampoline trapFrame : UInt64}
    (h : Space s kernel tables taken free) :
    Ends (fun e ↦ e = Page.outOfMemory ∧ free.length < 3)
      (fun w ↦ w.1 ∉ tables ∧ Since kernel tables taken s (w.1 :: tables) taken w.2 ∧
        (∀ n < userPages, v (w.2.raw w.1 n) = false) ∧
          ∃ free', w.2.Free free' ∧ free.length ≤ free'.length + 3)
      (makePageTable trampoline trapFrame s) := by
  have hU := userPages_eq
  rw [makePageTable]
  cases free with
  | nil =>
    rw [New.allocate, if_neg (by decide), if_pos (by decide), Page.allocate_nil h.wf.pages.toFree]
    exact ⟨rfl, by decide⟩
  | cons q free =>
    obtain ⟨t, hs, hfree, hnot, hmem⟩ := Page.allocate_blank h.wf.pages
    rw [New.allocate, if_neg (by decide), if_pos (by decide), hs]
    change Ends _ _ ((PageTable.map q TRAMPOLINE PAGE_SIZE trampoline (PTE_R ||| PTE_X).toUInt16
      (PageTable.construct q t)).bind _)
    have hq : q.toNat % 4096 = 0 := h.wf.pages.aligned q (by simp)
    obtain ⟨hblank, hsame⟩ := PageTable.construct_blank hq (s := t)
      (by rw [hmem, Function.update_self])
    have hother : ∀ p, p ≠ q → (PageTable.construct q t).memory p = s.memory p := fun p hp ↦ by
      rw [hsame p hp, hmem, Function.update_of_ne hp]
    have hpages : (PageTable.construct q t).Blank free := hfree.congr rfl fun p hp ↦ hsame p (by
      rintro rfl
      exact hnot hp)
    obtain ⟨hwf, hraw, hzero⟩ := h.wf.plant hpages hother hblank
    have hfirst : page TRAMPOLINE = 2 ^ 26 - 1 := by decide
    have hsecond : page TRAPFRAME = userPages := by decide
    have hfresh : q ∉ kernel :: tables := fun hmem ↦ h.wf.root hmem (by simp)
    rw [List.length_cons]
    refine ends_bind ((PageTable.map_new hwf (by simp) (by decide) (by decide) (by decide)
      (by rw [hzero, v_zero])).mono fun e he ↦ ⟨he.1, ?_⟩) ?_
    · have := he.2.trans_le (State.missing_le _ _ _ 2)
      omega
    rintro ⟨b, t₁⟩ ⟨free₁, hwf₁, hleaf₁, hraw₁, hmem₁, hcount₁, hnode₁⟩
    have hcount := hcount₁.trans (Nat.add_le_add_left (State.missing_le _ _ _ 2) _)
    -- The two pages of the kernel are in one table.
    have hpath : path (page TRAMPOLINE) 0 = path (page TRAPFRAME) 0 := by decide
    rw [hpath] at hnode₁
    rw [hfirst] at hleaf₁ hraw₁
    refine ends_bind ((PageTable.map_new hwf₁ (by simp) (by decide) (by decide) (by decide)
      ?_).mono fun e he ↦ ?_) ?_
    · rw [hsecond, hraw₁ q (by simp) _ (by omega) (.inr (by omega)), hzero, v_zero]
    · rw [State.missing_zero hnode₁] at he
      exact absurd he.2 (Nat.not_lt_zero _)
    rintro ⟨b', t₂⟩ ⟨free₂, hwf₂, hleaf₂, hraw₂, hmem₂, hcount₂, -⟩
    rw [State.missing_zero hnode₁] at hcount₂
    rw [hsecond] at hleaf₂ hraw₂
    -- The new table maps the two pages of the kernel, and the others are as before.
    have hnone : ∀ n < userPages, t₂.raw q n = 0 := fun n hn ↦ by
      rw [hraw₂ q (by simp) n (by omega) (.inr (by omega)),
        hraw₁ q (by simp) n (by omega) (.inr (by omega)), hzero]
    have hold : ∀ r ∈ tables, ∀ n < 2 ^ 26, t₂.raw r n = s.raw r n := fun r hr n hn ↦ by
      have hne : r ≠ q := fun he ↦ hfresh (List.mem_cons_of_mem _ (he ▸ hr))
      have hroot : r ∈ q :: kernel :: tables :=
        List.mem_cons_of_mem _ (List.mem_cons_of_mem _ hr)
      rw [hraw₂ r hroot n hn (.inl hne), hraw₁ r hroot n hn (.inl hne),
        hraw r (List.mem_cons_of_mem _ hr)]
    have hvalid : ∀ r ∈ q :: tables, ∀ n < userPages, v (t₂.raw r n) = true →
        r ∈ tables ∧ t₂.raw r n = s.raw r n := fun r hr n hn hv ↦ by
      rcases List.mem_cons.mp hr with rfl | hr
      · rw [hnone n hn, v_zero] at hv
        cases hv
      · exact ⟨hr, hold r hr n (by omega)⟩
    have hback : ∀ p, t₂.Backs (q :: tables) p → s.Backs tables p := by
      rintro p ⟨r, hr, n, hn, hv, rfl⟩
      obtain ⟨hr, hsame⟩ := hvalid r hr n hn hv
      rw [hsame] at hv ⊢
      exact ⟨r, hr, n, hn, hv, rfl⟩
    refine ⟨fun hmem ↦ hfresh (List.mem_cons_of_mem _ hmem), ⟨⟨free₂, ?_, ?_, ?_, ?_, ?_⟩,
      List.subset_cons_self q tables, List.Subset.refl taken, hold, ?_⟩, fun n hn ↦ by
        rw [hnone n hn, v_zero], free₂, hwf₂.pages.toFree, by omega⟩
    · refine (hwf₂.mono fun p hp ↦ hp.imp_right (hback p)).reorder fun r ↦ ?_
      simp only [List.mem_cons]
      exact or_left_comm
    · rw [List.mem_cons]
      rintro (he | hmem)
      · exact hfresh (he ▸ List.mem_cons_self)
      · exact h.notKernel hmem
    · intro r hr r' hr' n hn n' hn' hv hv' heq
      obtain ⟨hr, hsame⟩ := hvalid r hr n hn hv
      obtain ⟨hr', hsame'⟩ := hvalid r' hr' n' hn' hv'
      rw [hsame] at hv heq
      rw [hsame'] at hv' heq
      exact h.distinct r hr r' hr' n hn n' hn' hv hv' heq
    · exact fun p hp hb ↦ h.own p hp (hback p hb)
    · intro r hr n h₁ h₂
      rcases List.mem_cons.mp hr with rfl | hr
      · by_cases hn : n = userPages
        · rw [hn, hleaf₂, v_leaf (by decide), u_flags, flags_leaf (by decide)]
          decide
        · obtain rfl : n = 2 ^ 26 - 1 := by omega
          rw [hraw₂ r (by simp) _ (by omega) (.inr hn), hleaf₁, v_leaf (by decide), u_flags,
            flags_leaf (by decide)]
          decide
      · rw [hold r hr n h₂]
        exact h.supervisor r hr n h₁ h₂
    · intro p hp
      rw [hmem₂ p hp, hmem₁ p hp, hother p fun he ↦ h.not_used (he ▸ hp)]

theorem makePageTable_since {trampoline trapFrame : UInt64}
    (h : Space s kernel tables taken free) :
    Ends (· = Page.outOfMemory)
      (fun w ↦ w.1 ∉ tables ∧ Since kernel tables taken s (w.1 :: tables) taken w.2 ∧
        ∀ n < userPages, v (w.2.raw w.1 n) = false)
      (makePageTable trampoline trapFrame s) := by
  refine ((makePageTable_takes h).mono fun e he ↦ he.1).imp ?_
  rintro w ⟨hnew, hsince, hnone, -⟩
  exact ⟨hnew, hsince, hnone⟩

/-- A page in the table of the kernel. -/
theorem Space.map_kernel (h : Space s kernel tables taken free) {va pa : UInt64} {f : UInt16}
    (hf : f.toNat < 1024) (hva : va.toNat % 4096 = 0) :
    Ends (fun _ ↦ True) (fun w ↦ Since kernel tables taken s tables taken w.2)
      (PageTable.map kernel va PAGE_SIZE pa f s) := by
  have hdef : page va = va.toNat / 4096 := rfl
  by_cases hmax : va.toNat < 2 ^ 38
  · refine ((PageTable.map_page pa h.wf (by simp) hf hva hmax).mono fun _ _ ↦ trivial).imp ?_
    rintro w ⟨-, -, free', hgrows, -⟩
    have hraw : ∀ r ∈ tables, ∀ n < 2 ^ 26, w.2.raw r n = s.raw r n := by
      intro r hr n hn
      have hne : r ≠ kernel := fun he ↦ h.notKernel (he ▸ hr)
      exact hgrows.raw (List.mem_cons_of_mem _ hr)
        (outside_page (by omega) (by omega) (.inl hne))
    exact ⟨⟨free', h.of_raw hgrows.tables hraw⟩, List.Subset.refl _, List.Subset.refl _, hraw,
      hgrows.memory⟩
  · have hge : ¬ va < MAX_VIRTUAL_ADDRESS := fun hlt ↦ hmax (UInt64.lt_iff_toNat_lt.mp hlt)
    rw [PageTable.map, if_neg (by decide), roundDown_of_aligned hva]
    change Ends _ _ (PageTable.mapFrom kernel _ f (2 ^ 26 + 1) va pa s)
    rw [PageTable.mapFrom, PageTable.walk, if_neg hge]
    trivial

theorem kernelStack_aligned (pid : UInt64) :
    (TRAMPOLINE - pid * 2 * PAGE_SIZE).toNat % 4096 = 0 := by
  have hpage : (PAGE_SIZE).toNat = 4096 := rfl
  have htop : (TRAMPOLINE).toNat = 2 ^ 38 - 4096 := by decide
  rw [UInt64.toNat_sub, UInt64.toNat_mul, hpage, htop]
  omega

/-- `Process::Process`: a new process without user pages. -/
theorem Process.construct_since {φ : Type} {k : Kernel φ}
    (h : Space k.pages k.kernelPageTable k.tables k.taken free) :
    Ends (fun _ ↦ True)
      (fun w ↦ w.1.pageTable ∉ k.tables ∧ w.1.pageTable ∈ w.2.tables ∧
        w.2.kernelPageTable = k.kernelPageTable ∧ w.2.processes = k.processes ∧
          Since k.kernelPageTable k.tables k.taken k.pages w.2.tables w.2.taken w.2.pages ∧
            ∀ n < userPages, v (w.2.pages.raw w.1.pageTable n) = false)
      (Process.construct k) := by
  have hU := userPages_eq
  refine ends_bind ((New.allocate_since (by decide) h).mono fun _ _ ↦ trivial) ?_
  rintro ⟨trapFrame, s₁⟩ h₁
  obtain ⟨free₁, hs₁⟩ := h₁.space
  refine ends_bind ((New.allocate_since (by decide) hs₁).mono fun _ _ ↦ trivial) ?_
  rintro ⟨kernelStackPage, s₂⟩ h₂
  obtain ⟨free₂, hs₂⟩ := h₂.space
  refine ends_bind ((makePageTable_since hs₂).mono fun _ _ ↦ trivial) ?_
  rintro ⟨pageTable, s₃⟩ ⟨hnew, h₃, hnone⟩
  obtain ⟨free₃, hs₃⟩ := h₃.space
  refine ends_bind (hs₃.map_kernel (by decide) (kernelStack_aligned _)) ?_
  rintro ⟨b, s₄⟩ h₄
  refine ⟨hnew, List.mem_cons_self, rfl, rfl, ((h₁.trans h₂).trans h₃).trans h₄, fun n hn ↦ ?_⟩
  exact (congrArg v (h₄.raw pageTable List.mem_cons_self n (by omega))).trans (hnone n hn)

end

end Orfos.Memory
