import Orfos.Memory.Growth

/-!
# Store page faults

The branch of `userTrap` in `kernel/ie/user_trap.cpp` for a store page fault: the process grows up
to the address of the fault. Like a system call, the fault moves `epc` behind the instruction, so
that the store is not made. The address is taken as the new size, so that the page of an aligned
address stays unmapped and a fault below `memorySize` shrinks the process.
-/

namespace Orfos.Memory

open Orfos.Base PageTableEntry VirtualAddress

/-- `userTrap` for `scause == 0x0F`: `epc` of the trap frame, at which the process resumes, the
process and the memory. -/
def userTrapStore (p : Process) (sepc stval : UInt64) (s : State) :
    Except Halt (UInt64 × Process × State) :=
  (p.growMemory stval s).map fun (p, s) ↦ (sepc + 4, p, s)

/-- The process may store to the address. -/
def Process.Writable (p : Process) (va : UInt64) (s : State) : Prop :=
  ∃ raw, p.entry va s = some raw ∧ raw &&& PTE_W ≠ 0

/-- There are free pages for an image that ends behind the page of the address. -/
def State.Enough (s : State) (p : Process) (va : UInt64) : Prop :=
  ∃ free, s.Free free ∧ pagesFor (page va + 1) ≤ free.length + pagesFor (pageCount p.memorySize)

/-- A store page fault as it should be handled: the page becomes writable and the process makes its
store, and the image never becomes smaller. -/
structure Process.Progress (p : Process) (sepc stval : UInt64) (s : State) : Prop where
  grows : p.memorySize ≤ stval → stval < TRAPFRAME → s.Enough p stval →
    ∃ epc c t, userTrapStore p sepc stval s = .ok (epc, c, t) ∧ c.Writable stval t ∧ epc = sepc
  keeps : ∀ epc c t, userTrapStore p sepc stval s = .ok (epc, c, t) → p.memorySize ≤ c.memorySize

section

variable {p c : Process} {s t : State} {sepc epc stval kernel : UInt64}
  {tables taken free : List UInt64}

/-- The process resumes behind its store. -/
theorem userTrapStore_epc (h : userTrapStore p sepc stval s = .ok (epc, c, t)) :
    epc = sepc + 4 ∧ epc ≠ sepc := by
  obtain ⟨r, -, he⟩ := map_eq_ok h
  cases he
  refine ⟨rfl, fun hsame ↦ ?_⟩
  have hzero : (4 : UInt64) = 0 := UInt64.add_eq_left.mp hsame
  cases hzero

/-- The address of the fault is the new size. -/
theorem userTrapStore_memorySize (h : userTrapStore p sepc stval s = .ok (epc, c, t)) :
    c.memorySize = stval := by
  obtain ⟨⟨c', t'⟩, hg, he⟩ := map_eq_ok h
  cases he
  unfold Process.growMemory at hg
  split at hg
  · obtain ⟨_, -, he⟩ := map_eq_ok hg
    cases he
    rfl
  · split at hg <;> cases hg <;> rfl

/-- Below `memorySize` the handler returns. -/
theorem userTrapStore_below (h : stval < p.memorySize) :
    userTrapStore p sepc stval s = .ok (sepc + 4, { p with memorySize := stval }, s) := by
  have hnot : ¬ stval > p.memorySize := UInt64.not_lt.mpr (UInt64.le_of_lt h)
  rw [userTrapStore, Process.growMemory, if_neg hnot, if_pos h, deallocateUserVirtualMemory_state]
  rfl

/-- Where memory is left for it, a fault between `memorySize` and `TRAPFRAME` never makes
progress. -/
theorem Process.not_progress (hle : p.memorySize ≤ stval) (hlt : stval < TRAPFRAME)
    (henough : s.Enough p stval) : ¬ p.Progress sepc stval s := by
  intro hp
  obtain ⟨epc, c, t, hok, -, hsame⟩ := hp.grows hle hlt henough
  exact (userTrapStore_epc hok).2 hsame

/-- A store page fault makes progress exactly where nothing is asked of it but to leave
`memorySize` as large: outside of the user pages, or with too little memory. -/
theorem storeFault_progress_iff (p : Process) (sepc stval : UInt64) (s : State) :
    p.Progress sepc stval s ↔
      p.memorySize ≤ stval ∧ ¬ (stval < TRAPFRAME ∧ s.Enough p stval) := by
  constructor
  · intro hp
    have hle : p.memorySize ≤ stval := by
      by_contra hnot
      have hless := UInt64.not_le.mp hnot
      exact hnot (hp.keeps _ _ _ (userTrapStore_below hless))
    exact ⟨hle, fun ⟨hlt, henough⟩ ↦ p.not_progress hle hlt henough hp⟩
  · rintro ⟨hle, hnot⟩
    refine ⟨fun _ hlt henough ↦ absurd ⟨hlt, henough⟩ hnot, fun epc c t hok ↦ ?_⟩
    rw [userTrapStore_memorySize hok]
    exact hle

/-! ### What the handler maps -/

theorem Process.writable_iff (hs : Space s kernel tables taken free) (hmem : p.pageTable ∈ tables)
    (hmax : stval < TRAPFRAME) :
    p.Writable stval s ↔ v (s.raw p.pageTable (page stval)) = true ∧
      u (s.raw p.pageTable (page stval)) = true ∧ s.raw p.pageTable (page stval) &&& PTE_W ≠ 0 := by
  have hva : stval < MAX_VIRTUAL_ADDRESS := UInt64.lt_trans hmax (by decide)
  rw [Process.Writable, Process.entry_eq hs hmem]
  constructor
  · rintro ⟨raw, he, hw⟩
    split at he
    · next hc =>
      cases he
      exact ⟨hc.2.1, hc.2.2, hw⟩
    · cases he
  · rintro ⟨hv, hu, hw⟩
    exact ⟨_, if_pos ⟨hva, hv, hu⟩, hw⟩

/-- The pages from the old end of the image to the new one are writable, and the others are as they
were. -/
theorem Process.growMemory_takes (hs : Space s kernel tables taken free)
    (hmem : p.pageTable ∈ tables) (he : s.Exact p.pageTable p.memorySize)
    (hle : p.memorySize ≤ stval) (hmax : stval < TRAPFRAME)
    (henough : pagesFor (pageCount stval) ≤ free.length + pagesFor (pageCount p.memorySize)) :
    ∃ t free', p.growMemory stval s = .ok ({ p with memorySize := stval }, t) ∧
      Extends kernel tables taken p.pageTable (pageCount p.memorySize) (pageCount stval) s t free
        free' ∧
      t.Zeroed p.pageTable (PTE_R ||| PTE_U ||| PTE_W).toUInt16 (pageCount p.memorySize)
        (pageCount stval) := by
  have hU := userPages_eq
  have hcount : pageCount p.memorySize = (p.memorySize.toNat + 4095) / 4096 := rfl
  have hcount' : pageCount stval = (stval.toNat + 4095) / 4096 := rfl
  have hlt : stval.toNat < 2 ^ 38 - 8192 := UInt64.lt_iff_toNat_lt.mp hmax
  have hle' := UInt64.le_iff_toNat_le.mp hle
  by_cases hgt : stval > p.memorySize
  · have hclear : s.Clear p.pageTable (pageCount p.memorySize) (pageCount stval) := by
      refine ⟨by omega, fun n h₁ h₂ ↦ ?_⟩
      rw [← Bool.not_eq_true, he.2 n (by omega)]
      omega
    have hnext : s.Next p.pageTable (pageCount p.memorySize) := by
      by_cases hzero : pageCount p.memorySize = 0
      · exact .inl hzero
      · exact .inr ((he.2 _ (by omega)).mpr (by omega))
    have hends : Ends (fun _ ↦ False) _ _ := (allocateUserVirtualMemory_takes hs hmem
      (show (PTE_R ||| PTE_U ||| PTE_W).toUInt16.toNat < 1024 by decide) (by omega) hle).mono fun e herr ↦ by
        rcases herr with ⟨-, hshort⟩ | hnot
        · have := hshort hnext
          omega
        · exact hnot hclear
    obtain ⟨⟨size, t⟩, hok, -, -, free', hext, -, hzeroed⟩ := hends.returns
    refine ⟨t, free', ?_, hext, hzeroed⟩
    rw [Process.growMemory, if_pos hgt, hok]
    rfl
  · obtain rfl : stval = p.memorySize := UInt64.le_antisymm (UInt64.not_lt.mp hgt) hle
    refine ⟨s, free, ?_, Extends.refl hs (Nat.le_refl _), fun n h₁ h₂ ↦ by omega⟩
    rw [Process.growMemory, if_neg hgt, if_neg hgt]

/-- What the handler does for an address between `memorySize` and `TRAPFRAME` with memory left: the
process resumes behind its store, and it may store to the address if it could before, or if the
address is behind the last page and not the first of its own page. -/
theorem userTrapStore_writable_iff (hs : Space s kernel tables taken free)
    (hmem : p.pageTable ∈ tables) (he : s.Exact p.pageTable p.memorySize)
    (hle : p.memorySize ≤ stval) (hmax : stval < TRAPFRAME) (henough : s.Enough p stval) :
    ∃ c t, userTrapStore p sepc stval s = .ok (sepc + 4, c, t) ∧ c.memorySize = stval ∧
      (c.Writable stval t ↔ p.Writable stval s ∨
        pageCount p.memorySize ≤ page stval ∧ stval.toNat % 4096 ≠ 0) := by
  have hU := userPages_eq
  have hpage : page stval = stval.toNat / 4096 := rfl
  have hcount' : pageCount stval = (stval.toNat + 4095) / 4096 := rfl
  have hlt : stval.toNat < 2 ^ 38 - 8192 := UInt64.lt_iff_toNat_lt.mp hmax
  obtain ⟨free', hfree, hroom⟩ := henough
  obtain rfl := hfree.linked.unique hs.wf.pages.linked
  have hroom' : pagesFor (pageCount stval) ≤ free'.length + pagesFor (pageCount p.memorySize) := by
    refine Nat.le_trans ?_ hroom
    rw [pagesFor, pagesFor]
    omega
  obtain ⟨t, free, hok, hext, hzeroed⟩ := Process.growMemory_takes hs hmem he hle hmax hroom'
  refine ⟨{ p with memorySize := stval }, t, ?_, rfl, ?_⟩
  · rw [userTrapStore, hok]
    rfl
  rw [Process.writable_iff hs hmem hmax, Process.writable_iff hext.space (p :=
    { p with memorySize := stval }) hmem hmax]
  by_cases hnew : pageCount p.memorySize ≤ page stval ∧ stval.toNat % 4096 ≠ 0
  · have hflags := (hzeroed (page stval) hnew.1 (by omega)).1
    refine iff_of_true ⟨?_, ?_, ?_⟩ (.inr hnew)
    · rw [v_flags, hflags]
      decide
    · rw [u_flags, hflags]
      decide
    · rw [← bne_iff_ne, field_flags _ (show _ = (4 : UInt16).toNat from rfl) rfl, hflags]
      decide
  · rw [hext.raw p.pageTable hmem (page stval) (by omega) (by omega)]
    exact ⟨.inl, fun h ↦ h.resolve_right hnew⟩

end

/-- The first process has one page and stores to the next one. -/
theorem not_progress_next_page :
    ∃ p, oneProcess.processes[0]? = some p ∧ p.memorySize = 4096 ∧
      ¬ p.Progress 0 5000 oneProcess.pages := by
  have hfound : oneProcess.processes[0]?.map (·.memorySize) = some 4096 := by decide +kernel
  obtain ⟨p, hp, hsize⟩ := Option.map_eq_some_iff.mp hfound
  have hle : p.memorySize ≤ 5000 := by
    rw [hsize]
    decide
  refine ⟨p, hp, hsize, p.not_progress hle (by decide) ?_⟩
  obtain ⟨free, hs⟩ := (thirtyTwoPages_booted.whole (oneProcess_run noFiles)).space
  refine ⟨free, hs.wf.pages.toFree, ?_⟩
  rw [hsize]
  change 4 ≤ free.length + 3
  cases free with
  | nil =>
    have hnone : (Page.allocate oneProcess.pages).isOk = false := by
      rw [Page.allocate_nil hs.wf.pages.toFree]
      rfl
    have hone : (Page.allocate oneProcess.pages).isOk = true := by decide +kernel
    rw [hone] at hnone
    cases hnone
  | cons q free =>
    rw [List.length_cons]
    omega

end Orfos.Memory
