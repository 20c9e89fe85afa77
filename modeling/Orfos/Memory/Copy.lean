import Orfos.Memory.Frames

/-!
# Copies of user memory

`copyUserVirtualMemory` gives every page of an image a frame of its own with the same flags and
the same bytes. `copyout` and `clearUserVirtualMemory` change frames and entries of the table
that they are called for, and no others.
-/

namespace Orfos.Memory

open Orfos.Base PageTableEntry VirtualAddress

/-- The pages from `lo` to `hi` have in `newTable` the flags and the bytes that they have in
`oldTable`. -/
def Copied (oldTable newTable : UInt64) (lo hi : Nat) (s t : State) : Prop :=
  ∀ n, lo ≤ n → n < hi → flags (t.raw newTable n) = flags (s.raw oldTable n) ∧
    t.memory (toPhysicalAddress (t.raw newTable n)) =
      s.memory (toPhysicalAddress (s.raw oldTable n))

section

variable {s t : State} {kernel table oldTable newTable q : UInt64} {n lo mid hi : Nat}
  {tables tables' taken taken' free free' free'' : List UInt64}

/-- The flags of a valid entry survive a copy. -/
theorem flags_copy {raw : PageTableEntry} (hv : v raw = true) :
    flags (leaf (flags raw) q) = flags raw := by
  have hlt : (flags raw).toNat < 1024 := by
    rw [flags_toNat]
    omega
  have hodd : (flags raw).toNat % 2 = 1 := by
    rw [v_eq, decide_eq_true_eq] at hv
    rw [flags_toNat]
    omega
  rw [flags_leaf hlt]
  apply UInt16.toNat_inj.mp
  rw [UInt16.toNat_or]
  apply Nat.eq_of_testBit_eq
  intro i
  rw [Nat.testBit_or]
  cases i with
  | zero => simp [hodd]
  | succ i => simp [Nat.testBit_succ]

theorem v_clear (raw : PageTableEntry) : v (raw &&& ~~~ PTE_U) = v raw := by
  have hmask : ~~~ PTE_U &&& PTE_V = PTE_V := by decide
  rw [v, v, UInt64.and_assoc, hmask]

theorem u_clear (raw : PageTableEntry) : u (raw &&& ~~~ PTE_U) = false := by
  have hmask : ~~~ PTE_U &&& PTE_U = 0 := by decide
  rw [u, UInt64.and_assoc, hmask, UInt64.and_zero]
  rfl

theorem toPhysicalAddress_clear (raw : PageTableEntry) :
    toPhysicalAddress (raw &&& ~~~ PTE_U) = toPhysicalAddress raw := by
  have hlt : raw.toNat < 2 ^ 64 := raw.toNat_lt
  have hmask : (~~~ PTE_U).toNat >>> 10 = 2 ^ 54 - 1 := by decide
  have hdiv : (raw &&& ~~~ PTE_U).toNat / 1024 = raw.toNat / 1024 := by
    have h := Nat.shiftRight_and_distrib (a := raw.toNat) (b := (~~~ PTE_U).toNat) (i := 10)
    rw [hmask, Nat.and_two_pow_sub_one_eq_mod, Nat.shiftRight_eq_div_pow,
      Nat.shiftRight_eq_div_pow] at h
    rw [UInt64.toNat_and]
    omega
  apply UInt64.toNat_inj.mp
  rw [toPhysicalAddress_toNat, toPhysicalAddress_toNat, hdiv]

/-- One page of the copy, in the page `q` that was taken for it. -/
theorem Space.copy {i : UInt64} (h : Space s kernel tables taken (q :: free))
    (hold : oldTable ∈ tables) (hnew : newTable ∈ tables) (hi : i.toNat % 4096 = 0)
    (hn : page i < userPages) (hv : v (s.raw oldTable (page i)) = true)
    (hv' : v (s.raw newTable (page i)) = false) (ht : t.Blank free) (hnot : q ∉ free)
    (hm : t.memory = Function.update s.memory q zeros) :
    let raw := s.raw oldTable (page i)
    Ends (· = Page.outOfMemory)
      (fun w ↦ ∃ free',
        Extends kernel tables taken newTable (page i) (page i + 1) s w.2 (q :: free) free' ∧
          Copied oldTable newTable (page i) (page i + 1) s w.2)
      (PageTable.map newTable i PAGE_SIZE q (flags raw)
        (t.setPage q (t.memory (toPhysicalAddress raw)))) := by
  intro raw
  have hframe : s.Used tables taken (toPhysicalAddress raw) :=
    .inr ⟨oldTable, hold, page i, hn, hv, rfl⟩
  have hne : toPhysicalAddress raw ≠ q := fun he ↦ h.not_used (he ▸ hframe)
  have hbytes : t.memory (toPhysicalAddress raw) = s.memory (toPhysicalAddress raw) := by
    rw [hm, Function.update_of_ne hne]
  have hflags : (flags raw).toNat < 1024 := by
    rw [flags_toNat]
    omega
  have hfree : (t.setPage q (t.memory (toPhysicalAddress raw))).Blank free := by
    refine ht.congr rfl fun p hp ↦ ?_
    have hpq : p ≠ q := fun he ↦ hnot (he ▸ hp)
    rw [State.setPage_memory, Function.update_of_ne hpq]
  refine ((h.give hnew hflags hi hn hfree fun p hp ↦ ?_).mono ?_).imp ?_
  · rw [State.setPage_memory, Function.update_of_ne hp, hm, Function.update_of_ne hp]
  · rintro e (⟨-, hv⟩ | he)
    · rw [hv'] at hv
      cases hv
    · exact he
  · rintro w ⟨-, free', hmem, hleaf, hext⟩
    refine ⟨free', hext, fun n h₁ h₂ ↦ ?_⟩
    obtain rfl : n = page i := by omega
    rw [State.setPage_memory, Function.update_self, hbytes] at hmem
    rw [hleaf, toPhysicalAddress_leaf hflags (h.wf.pages.aligned q (by simp)), hmem,
      flags_copy hv]
    exact ⟨rfl, rfl⟩

/-- Two copies of adjacent parts of an image. -/
theorem Copied.trans {w : State} (h : Copied oldTable newTable lo mid s t)
    (h' : Copied oldTable newTable mid hi t w) (hold : oldTable ∈ tables)
    (hnew : newTable ∈ tables) (hne : oldTable ≠ newTable) (hhi : hi ≤ userPages)
    (hv : ∀ n < hi, v (s.raw oldTable n) = true)
    (he : Extends kernel tables taken newTable lo mid s t free free')
    (he' : Extends kernel tables taken newTable mid hi t w free' free'') :
    Copied oldTable newTable lo hi s w := by
  have hU := userPages_eq
  intro n h₁ h₂
  by_cases hn : n < mid
  · have hkeep := he'.raw newTable hnew n (by omega) (by omega)
    have hused : t.Used tables taken (toPhysicalAddress (t.raw newTable n)) :=
      .inr ⟨newTable, hnew, n, by omega, (he.fresh n h₁ hn).1, rfl⟩
    rw [hkeep, he'.memory _ hused]
    exact h n h₁ hn
  · have hkeep := he.raw oldTable hold n (by omega) (.inl hne)
    have hused : s.Used tables taken (toPhysicalAddress (s.raw oldTable n)) :=
      .inr ⟨oldTable, hold, n, by omega, hv n h₂, rfl⟩
    have hrec := h' n (by omega) h₂
    rw [hkeep, he.memory _ hused] at hrec
    exact hrec

/-- The loop of `copyUserVirtualMemory`. It only halts for lack of memory. -/
theorem copyUserFrom_extends {size i : UInt64} {fuel : Nat}
    (h : Space s kernel tables taken free) (hold : oldTable ∈ tables) (hnew : newTable ∈ tables)
    (hne : oldTable ≠ newTable) (hwhole : s.Whole oldTable size)
    (hclear : s.Clear newTable (page i) (pageCount size)) (hi : i.toNat % 4096 = 0)
    (hfuel : pageCount size ≤ page i + fuel) :
    Ends (· = Page.outOfMemory)
      (fun w ↦ ∃ free',
        Extends kernel tables taken newTable (page i) (pageCount size) s w free free' ∧
          Copied oldTable newTable (page i) (pageCount size) s w)
      (copyUserFrom oldTable newTable size fuel i s) := by
  have hU := userPages_eq
  have hdef : page i = i.toNat / 4096 := rfl
  have hcount : pageCount size = (size.toNat + 4095) / 4096 := rfl
  have hsize := hwhole.1
  induction fuel generalizing i s free with
  | zero => exact ⟨free, Extends.refl h (by omega), fun n h₁ h₂ ↦ by omega⟩
  | succ fuel ih =>
    unfold copyUserFrom
    by_cases hlt : i < size
    · have hlt' : i.toNat < size.toNat := UInt64.lt_iff_toNat_lt.mp hlt
      have hmax : i < MAX_VIRTUAL_ADDRESS := UInt64.lt_iff_toNat_lt.mpr (by
        change i.toNat < 2 ^ 38
        omega)
      have hnext : (i + PAGE_SIZE).toNat = i.toNat + 4096 := by
        rw [UInt64.toNat_add]
        exact Nat.mod_eq_of_lt (by change i.toNat + 4096 < _; omega)
      have hnextPage : page (i + PAGE_SIZE) = page i + 1 := by
        change (i + PAGE_SIZE).toNat / 4096 = i.toNat / 4096 + 1
        rw [hnext]
        omega
      have hvalid := hwhole.2 (page i) (by omega)
      obtain ⟨pte, hwalk, hraw⟩ := PageTable.walk_find (h.aligned hold) hmax
      rw [if_pos hlt, hwalk]
      cases pte with
      | none =>
        rw [Option.elim_none] at hraw
        rw [← hraw, v_zero] at hvalid
        cases hvalid
      | some pte =>
        rw [Option.elim_some] at hraw
        change Ends _ _ (if ¬ v (s.load pte) = true then _ else _)
        rw [if_neg (by rw [hraw, hvalid]; simp)]
        dsimp only
        rw [hraw, New.allocate, if_neg (by decide), if_pos (by decide)]
        refine ends_bind (Page.allocate_ends h.wf.pages) ?_
        rintro ⟨q, t⟩ ⟨free₁, rfl, hfree, hnot, hmem⟩
        refine ends_bind (h.copy hold hnew hi (by omega) hvalid
          (hclear.2 _ (Nat.le_refl _) (by omega)) hfree hnot hmem) ?_
        rintro ⟨b, w⟩ ⟨free₂, hext, hcopy⟩
        have hwhole' : w.Whole oldTable size := ⟨hsize, fun n hn ↦ by
          rw [hext.raw oldTable hold n (by omega) (.inl hne)]
          exact hwhole.2 n hn⟩
        have hclear' : w.Clear newTable (page (i + PAGE_SIZE)) (pageCount size) :=
          ⟨hsize, fun n h₁ h₂ ↦ by
            rw [hnextPage] at h₁
            rw [hext.raw newTable hnew n (by omega) (by omega)]
            exact hclear.2 n (by omega) h₂⟩
        refine (ih hext.space hwhole' hclear' (by omega) (by rw [hnextPage]; omega) rfl).imp ?_
        rintro w' ⟨free₃, hext', hcopy'⟩
        rw [hnextPage] at hext' hcopy'
        exact ⟨free₃, hext.trans hext' hnew (by omega) (by omega) (by omega) (by omega),
          hcopy.trans hcopy' hold hnew hne hsize hwhole.2 hext hext'⟩
    · rw [if_neg hlt]
      have hle : size.toNat ≤ i.toNat := by
        have := mt UInt64.lt_iff_toNat_lt.mpr hlt
        omega
      exact ⟨free, Extends.refl h (by omega), fun n h₁ h₂ ↦ by omega⟩

/-- `copyUserVirtualMemory` copies a whole image to a table without user pages. -/
theorem copyUserVirtualMemory_extends {size : UInt64} (h : Space s kernel tables taken free)
    (hold : oldTable ∈ tables) (hnew : newTable ∈ tables) (hne : oldTable ≠ newTable)
    (hwhole : s.Whole oldTable size) (hclear : s.Clear newTable 0 (pageCount size)) :
    Ends (· = Page.outOfMemory)
      (fun w ↦ ∃ free',
        Extends kernel tables taken newTable 0 (pageCount size) s w free free' ∧
          Copied oldTable newTable 0 (pageCount size) s w)
      (copyUserVirtualMemory oldTable newTable size s) :=
  copyUserFrom_extends h hold hnew hne hwhole hclear rfl (Nat.le_add_left _ _)

/-! ### Writes of the kernel to user memory -/

/-- `PageTable::walkAddress` finds frames of user pages only. -/
theorem PageTable.walkAddress_frame {va pa : UInt64} (h : Space s kernel tables taken free)
    (htable : table ∈ tables) (hwalk : PageTable.walkAddress table va s = .ok pa) (hpa : pa ≠ 0) :
    page va < userPages ∧ v (s.raw table (page va)) = true ∧
      pa = toPhysicalAddress (s.raw table (page va)) := by
  have hU := userPages_eq
  have hdef : page va = va.toNat / 4096 := rfl
  rw [PageTable.walkAddress_eq (h.aligned htable)] at hwalk
  cases hwalk
  split at hpa
  · next hc =>
    rw [if_pos hc]
    refine ⟨?_, hc.2.1, rfl⟩
    by_contra hge
    have hlt : va.toNat < 2 ^ 38 := UInt64.lt_iff_toNat_lt.mp hc.1
    have husr := (h.supervisor table htable _ (Nat.le_of_not_lt hge) (by omega)).2
    rw [hc.2.2] at husr
    cases husr
  · exact absurd rfl hpa

/-- The loop of `PageTable::copyout`. -/
theorem PageTable.copyoutFrom_wrote {fuel : Nat} {dst : UInt64} {src : List UInt8}
    (h : Space s kernel tables taken free) (htable : table ∈ tables) :
    Ends (fun _ ↦ False) (fun w ↦ Wrote kernel tables taken table s w.2)
      (PageTable.copyoutFrom table fuel dst src s) := by
  induction fuel generalizing s free dst src with
  | zero => cases src <;> exact Wrote.refl h
  | succ fuel ih =>
    cases src with
    | nil => exact Wrote.refl h
    | cons b src =>
      obtain ⟨pa, hwalk⟩ : ∃ pa, PageTable.walkAddress table (roundDown dst) s = .ok pa :=
        ⟨_, PageTable.walkAddress_eq (h.aligned htable)⟩
      rw [PageTable.copyoutFrom, hwalk]
      change Ends _ _ (if pa = 0 then _ else _)
      split
      · exact Wrote.refl h
      · next hpa =>
        obtain ⟨hn, hv, rfl⟩ := PageTable.walkAddress_frame h htable hwalk hpa
        have hwrote := h.filled htable hn hv (dst - roundDown dst).toNat
          ((b :: src).take (min (4096 - (dst - roundDown dst).toNat) (b :: src).length))
        obtain ⟨free', hs⟩ := hwrote.space
        exact (ih hs).imp fun w hw ↦ hwrote.trans hw htable

/-- `PageTable::copyout` leaves the frames of the pages before its first one alone. -/
theorem PageTable.copyoutFrom_above {fuel : Nat} {dst : UInt64} {src : List UInt8}
    (h : Space s kernel tables taken free) (htable : table ∈ tables) :
    Ends (fun _ ↦ False)
      (fun w ↦ ∀ n < userPages, n < page dst → v (s.raw table n) = true →
        w.2.memory (toPhysicalAddress (s.raw table n)) =
          s.memory (toPhysicalAddress (s.raw table n)))
      (PageTable.copyoutFrom table fuel dst src s) := by
  have hU := userPages_eq
  induction fuel generalizing s free dst src with
  | zero => cases src <;> exact fun _ _ _ _ ↦ rfl
  | succ fuel ih =>
    cases src with
    | nil => exact fun _ _ _ _ ↦ rfl
    | cons b src =>
      obtain ⟨pa, hwalk⟩ : ∃ pa, PageTable.walkAddress table (roundDown dst) s = .ok pa :=
        ⟨_, PageTable.walkAddress_eq (h.aligned htable)⟩
      rw [PageTable.copyoutFrom, hwalk]
      change Ends _ _ (if pa = 0 then _ else _)
      split
      · exact fun _ _ _ _ ↦ rfl
      · next hpa =>
        obtain ⟨hn, hv, rfl⟩ := PageTable.walkAddress_frame h htable hwalk hpa
        have hwrote := h.filled htable hn hv (dst - roundDown dst).toNat
          ((b :: src).take (min (4096 - (dst - roundDown dst).toNat) (b :: src).length))
        obtain ⟨free', hs⟩ := hwrote.space
        have hdown := roundDown_toNat dst
        have hfirst : page (roundDown dst) = dst.toNat / 4096 := by
          change (roundDown dst).toNat / 4096 = _
          omega
        have hnext : page (roundDown dst + PAGE_SIZE) = dst.toNat / 4096 + 1 := by
          change (roundDown dst + PAGE_SIZE).toNat / 4096 = _
          rw [UInt64.toNat_add]
          change ((roundDown dst).toNat + 4096) % 2 ^ 64 / 4096 = _
          omega
        refine (ih hs).imp fun w hw n hn' hlt hv' ↦ ?_
        have hlt' : n < dst.toNat / 4096 := hlt
        have hraw := hwrote.raw table htable n (by omega)
        have hrest := hw n hn' (by omega) (by rw [hraw, hv'])
        rw [hraw] at hrest
        rw [hrest, State.fill, State.setPage_memory, Function.update_of_ne]
        intro he
        have hsame := (h.distinct table htable table htable n hn' _ hn hv' hv he).2
        omega

/-- `clearUserVirtualMemory` on a page that is mapped. -/
theorem clearUserVirtualMemory_grows {roots : List UInt64} {kept : UInt64 → Prop} {r va : UInt64}
    (h : Tables s roots kept free) (hr : r ∈ roots) (hva : va.toNat < 2 ^ 38)
    (hv : v (s.raw r (page va)) = true) :
    Ends (fun _ ↦ False)
      (fun t ↦ Grows roots kept (Outside r (page va) 0) free s t free ∧
        t.raw r (page va) = s.raw r (page va) &&& ~~~ PTE_U)
      (clearUserVirtualMemory r va s) := by
  rw [clearUserVirtualMemory, PageTable.walk, if_pos (UInt64.lt_iff_toNat_lt.mpr hva),
    PageTable.walkFrom_find (h.aligned_root hr) (Nat.le_refl 2) rfl]
  cases hnode : Radix.node child s.entries r (path (page va) 0) with
  | none =>
    rw [State.raw, Radix.entry, hnode, Option.elim_none, v_zero] at hv
    cases hv
  | some m =>
    have haligned := h.aligned m ⟨r, _, hr, (path_length _ 0).le, hnode⟩
    have hraw : s.load (PageTable.getEntry m 0 va) = s.raw r (page va) := by
      rw [State.load_entry haligned, State.raw_of_node hnode]
    obtain ⟨hgrows, -, hset⟩ := h.set hr (path_length _ 0) hnode
      ((v_clear _).trans hv) (fun m' j ↦ State.entries_store haligned 0 va _ m' j) rfl
      fun m' hm ↦ State.store_memory_other haligned 0 va _ hm
    rw [← hraw] at hgrows hset ⊢
    exact ⟨hgrows.mono fun r' p i ho ↦ ho 0 (Nat.le_refl 0), hset⟩

theorem clearUserVirtualMemory_ends {va : UInt64} (h : Space s kernel tables taken free)
    (htable : table ∈ tables) (hn : page va < userPages)
    (hv : v (s.raw table (page va)) = true) :
    Ends (fun _ ↦ False)
      (fun t ↦ (∃ free', Space t kernel tables taken free') ∧
        (∀ r ∈ tables, r ≠ table → ∀ n < 2 ^ 26, t.raw r n = s.raw r n) ∧
          (∀ n < 2 ^ 26, v (t.raw table n) = v (s.raw table n)) ∧
            (∀ p, s.Used tables taken p → t.memory p = s.memory p) ∧
              (∀ n < 2 ^ 26, n ≠ page va → t.raw table n = s.raw table n) ∧
                u (t.raw table (page va)) = false)
      (clearUserVirtualMemory table va s) := by
  have hU := userPages_eq
  have hdef : page va = va.toNat / 4096 := rfl
  refine (clearUserVirtualMemory_grows h.wf (List.mem_cons_of_mem _ htable) (by omega) hv).imp ?_
  rintro t ⟨hgrows, hset⟩
  have hother : ∀ r ∈ tables, ∀ n < 2 ^ 26, r ≠ table ∨ n ≠ page va →
      t.raw r n = s.raw r n := fun r hr n hn' hne ↦
    hgrows.raw (List.mem_cons_of_mem _ hr) (outside_page (by omega) (by omega)
      (hne.imp_right fun hne ↦ by omega))
  have hsame : ∀ r ∈ tables, ∀ n < 2 ^ 26, v (t.raw r n) = v (s.raw r n) ∧
      toPhysicalAddress (t.raw r n) = toPhysicalAddress (s.raw r n) ∧
        (userPages ≤ n → u (t.raw r n) = u (s.raw r n)) := by
    intro r hr n hn'
    by_cases hin : r = table ∧ n = page va
    · obtain ⟨rfl, rfl⟩ := hin
      rw [hset, v_clear, toPhysicalAddress_clear]
      exact ⟨rfl, rfl, fun hge ↦ by omega⟩
    · rw [hother r hr n hn' (not_and_or.mp hin)]
      exact ⟨rfl, rfl, fun _ ↦ rfl⟩
  exact ⟨⟨free, h.congr hgrows.tables hsame⟩, fun r hr hne n hn' ↦ hother r hr n hn' (.inl hne),
    fun n hn' ↦ (hsame table htable n hn').1, hgrows.memory,
    fun n hn' hne ↦ hother table htable n hn' (.inr hne), by rw [hset, u_clear]⟩

end

end Orfos.Memory
