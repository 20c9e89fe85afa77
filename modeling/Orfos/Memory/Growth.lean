import Orfos.Memory.Fork

/-!
# Growing and shrinking

`Process::growMemory` gives a shrinking process back nothing: it calls
`deallocateUserVirtualMemory` with the sizes in the wrong order, so that it returns at once, and
`PageTable::unmap` is not implemented. The pages stay mapped, and the next call that grows the
process comes to one of them and trips the assertion of `PageTable::map`. As long as no call
takes a page away, exactly the pages of the image are mapped.
-/

namespace Orfos.Memory

open Orfos.Base PageTableEntry VirtualAddress

variable {φ ι : Type}

/-- A call of `growMemory` does not trip the assertion of `PageTable::map`; after it the user
pages mapped are those of the image, and the frames of the others are free. -/
def Process.Meets (p : Process) (size : UInt64) (s : State) : Prop :=
  p.growMemory size s ≠ .error PageTable.mapped ∧
    ∀ c t, p.growMemory size s = .ok (c, t) → t.Exact c.pageTable c.memorySize ∧
      ∀ n < userPages, v (s.raw p.pageTable n) = true → v (t.raw p.pageTable n) = false →
        t.IsFree (toPhysicalAddress (s.raw p.pageTable n))

/-- A call of `growMemory` takes no page away. -/
def Kernel.Rising (k : Kernel φ) : Happening → Prop
  | .grow i size => ∀ p, k.processes[i]? = some p → pageCount p.memorySize ≤ pageCount size
  | _ => True

section

variable {p c : Process} {s t : State} {size kernel : UInt64} {tables taken free : List UInt64}

/-- A call that takes no page away keeps the image exact. -/
theorem Process.growMemory_exact (hs : Space s kernel tables taken free)
    (hmem : p.pageTable ∈ tables) (he : s.Exact p.pageTable p.memorySize)
    (hle : pageCount p.memorySize ≤ pageCount size) (hf : p.growMemory size s = .ok (c, t)) :
    t.Exact c.pageTable c.memorySize ∧
      ∀ n < userPages, v (s.raw p.pageTable n) = true → v (t.raw p.pageTable n) = true := by
  have hU := userPages_eq
  obtain ⟨rfl, ⟨hsize, rfl⟩ | ⟨-, hmax, free', hext⟩⟩ :=
    Process.growMemory_cases hs hmem he.1 hf
  · have heq : pageCount size = pageCount p.memorySize :=
      Nat.le_antisymm (pageCount_mono hsize) hle
    refine ⟨?_, fun _ _ hv ↦ hv⟩
    change t.Exact p.pageTable size
    rw [State.Exact, heq]
    exact he
  · exact ⟨hext.exact hmem he hle hmax, fun n hn hv ↦ hext.valid hmem (by omega) hv⟩

/-- Growing an exact image below `TRAPFRAME` only halts for lack of memory. -/
theorem Process.growMemory_ends (hs : Space s kernel tables taken free)
    (hmem : p.pageTable ∈ tables) (he : s.Exact p.pageTable p.memorySize)
    (hsize : size < TRAPFRAME) :
    Ends (· = Page.outOfMemory) (fun _ ↦ True) (p.growMemory size s) := by
  have hU := userPages_eq
  have hcount := he.1
  have hdef : pageCount p.memorySize = (p.memorySize.toNat + 4095) / 4096 := rfl
  have hdef' : pageCount size = (size.toNat + 4095) / 4096 := rfl
  have hlt : size.toNat < 2 ^ 38 - 8192 := UInt64.lt_iff_toNat_lt.mp hsize
  unfold Process.growMemory
  split
  · next hgt =>
    refine ends_map ((allocateUserVirtualMemory_extends hs hmem (by decide) (by omega)
      (UInt64.le_of_lt hgt)).mono ?_ |>.imp fun _ _ ↦ trivial)
    rintro e (rfl | hclear)
    · rfl
    · refine absurd ⟨by omega, fun n h₁ h₂ ↦ ?_⟩ hclear
      rw [← Bool.not_eq_true, he.2 n (by omega)]
      omega
  · split <;> trivial

/-- A call meets its contract if and only if it takes no page away. -/
theorem Process.meets_iff (hs : Space s kernel tables taken free) (hmem : p.pageTable ∈ tables)
    (he : s.Exact p.pageTable p.memorySize) (hsize : size < TRAPFRAME) :
    p.Meets size s ↔ pageCount p.memorySize ≤ pageCount size := by
  constructor
  · rintro ⟨-, hmeets⟩
    by_contra hlt
    have hless : size < p.memorySize := by
      by_contra hge
      exact hlt (pageCount_mono (UInt64.not_lt.mp hge))
    have hnot : ¬ size > p.memorySize := UInt64.not_lt.mpr (UInt64.le_of_lt hless)
    have hok : p.growMemory size s = .ok ({ p with memorySize := size }, s) := by
      rw [Process.growMemory, if_neg hnot, if_pos hless, deallocateUserVirtualMemory_state]
    -- The first page that should be gone is still there.
    have hcount := he.1
    have hexact := (hmeets _ _ hok).1
    have hpage := (he.2 (pageCount size) (by omega)).mpr (by omega)
    exact Nat.lt_irrefl _ ((hexact.2 (pageCount size) (by omega)).mp hpage)
  · intro hle
    constructor
    · intro herr
      have hoom := (Process.growMemory_ends hs hmem he hsize).of_error herr
      cases hoom
    · intro c t hf
      obtain ⟨hexact, hkeep⟩ := Process.growMemory_exact hs hmem he hle hf
      refine ⟨hexact, fun n hn hv hgone ↦ ?_⟩
      rw [hkeep n hn hv] at hgone
      cases hgone

end

/-- In every run whose calls of `growMemory` take no page away, exactly the pages of the image of
each process are mapped, and the next call keeps this, frees what it unmaps and does not trip the
assertion if and only if it takes no page away either. -/
theorem user_pages_exact (F : Files φ ι) {k₀ k : Kernel φ} (h₀ : k₀.Booted)
    (hr : Run (Kernel.step F) (fun k e ↦ k.Own e ∧ k.Rising e) k₀ k) {p : Process}
    (hp : p ∈ k.processes) :
    k.pages.Exact p.pageTable p.memorySize ∧
      ∀ size < TRAPFRAME,
        p.Meets size k.pages ↔ pageCount p.memorySize ≤ pageCount size := by
  have hinv : k.Inv State.Exact := by
    refine hr.invariant h₀.inv fun k e _ h hgood hf ↦ h.step Shape.ofExact hgood.1 ?_ hf
    rintro i p size c t rfl hp hgrow
    obtain ⟨free, hs⟩ := h.space
    have hmem := List.mem_of_getElem? hp
    exact (Process.growMemory_exact hs (h.mem p hmem) (h.image p hmem) (hgood.2 p hp) hgrow).1
  obtain ⟨free, hs⟩ := hinv.space
  exact ⟨hinv.image p hp, fun size hsize ↦
    Process.meets_iff hs (hinv.mem p hp) (hinv.image p hp) hsize⟩

/-- The first process shrinks to nothing and grows again. -/
theorem user_pages_leftover :
    ∃ k p, play (Kernel.step noFiles) thirtyTwoPages [.init [], .grow 0 0] = some k ∧
      k.processes[0]? = some p ∧ ¬ k.pages.Exact p.pageTable p.memorySize ∧
        p.growMemory PAGE_SIZE k.pages = .error PageTable.mapped := by
  obtain ⟨k, hk⟩ := Option.isSome_iff_exists.mp (show (play (Kernel.step noFiles)
    thirtyTwoPages [.init [], .grow 0 0]).isSome = true by decide +kernel)
  have hfinal : final (Kernel.step noFiles) thirtyTwoPages [.init [], .grow 0 0] = k := by
    rw [final, hk, Option.getD_some]
  have hpage : k.processes[0]?.map (fun p ↦ (v (k.pages.raw p.pageTable 0), p.memorySize)) =
      some (true, 0) := by
    rw [← hfinal]
    decide +kernel
  have hgrow : k.processes[0]?.map (fun p ↦ (p.growMemory PAGE_SIZE k.pages).map fun _ ↦ ()) =
      some (.error PageTable.mapped) := by
    rw [← hfinal]
    decide +kernel
  cases hp : k.processes[0]? with
  | none =>
    rw [hp] at hpage
    cases hpage
  | some p =>
    rw [hp, Option.map_some, Option.some.injEq] at hpage hgrow
    refine ⟨k, p, hk, hp, fun hexact ↦ ?_, ?_⟩
    · have hzero := (hexact.2 0 (by decide)).mp (congrArg Prod.fst hpage)
      rw [show p.memorySize = 0 from congrArg Prod.snd hpage] at hzero
      exact absurd hzero (by decide)
    · cases hr : p.growMemory PAGE_SIZE k.pages with
      | ok r =>
        rw [hr] at hgrow
        cases hgrow
      | error e =>
        rw [hr] at hgrow
        exact congrArg _ (Except.error.inj hgrow)

/-- The first process grows to two pages. -/
theorem user_pages_exact_two :
    ∃ p, (final (Kernel.step noFiles) thirtyTwoPages [.init [], .grow 0 8192]).processes[0]? =
        some p ∧
      (final (Kernel.step noFiles) thirtyTwoPages [.init [], .grow 0 8192]).pages.Exact
        p.pageTable p.memorySize := by
  have hrun : Run (Kernel.step noFiles) (fun k e ↦ k.Own e ∧ k.Rising e) thirtyTwoPages
      (final (Kernel.step noFiles) thirtyTwoPages [.init [], .grow 0 8192]) := by
    refine run_final (by decide +kernel) ⟨⟨trivial, trivial⟩, fun k hk ↦ ⟨⟨trivial, ?_⟩, ?_⟩⟩
    · intro p hp
      have hfinal : final (Kernel.step noFiles) thirtyTwoPages [.init []] = k := by
        rw [final, play, hk]
        rfl
      have hsize : k.processes[0]?.map (·.memorySize) = some PAGE_SIZE := by
        rw [← hfinal]
        decide +kernel
      rw [hp, Option.map_some, Option.some.injEq] at hsize
      rw [hsize]
      decide
    · exact fun _ _ ↦ trivial
  obtain ⟨p, hp⟩ := Option.isSome_iff_exists.mp (show ((final (Kernel.step noFiles) thirtyTwoPages
    [.init [], .grow 0 8192]).processes[0]?).isSome = true by decide +kernel)
  exact ⟨p, hp, (user_pages_exact noFiles thirtyTwoPages_booted hrun
    (List.mem_of_getElem? hp)).1⟩

end Orfos.Memory
