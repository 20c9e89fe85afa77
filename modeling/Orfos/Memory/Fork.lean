import Orfos.Memory.Invariant

/-!
# Fork

In every run all pages of the image of a process are mapped. So the copy that `fork` makes never
meets an unmapped page, and what a process stores is not seen by another.
-/

namespace Orfos.Memory

open Orfos.Base PageTableEntry VirtualAddress

variable {φ ι : Type}

/-- Whatever `Process::growMemory` does, the image stays mapped. -/
theorem Process.growMemory_whole {p c : Process} {s t : State} {size kernel : UInt64}
    {tables taken free : List UInt64} (hs : Space s kernel tables taken free)
    (hmem : p.pageTable ∈ tables) (hw : s.Whole p.pageTable p.memorySize)
    (hf : p.growMemory size s = .ok (c, t)) : t.Whole c.pageTable c.memorySize := by
  have hle := hw.1
  obtain ⟨rfl, ⟨hsize, rfl⟩ | ⟨hsize, hmax, free', hext⟩⟩ :=
    Process.growMemory_cases hs hmem hle hf
  · have hmono := pageCount_mono hsize
    refine ⟨?_, fun n hn ↦ hw.2 n ?_⟩
    · exact hmono.trans hle
    · exact hn.trans_le hmono
  · exact hext.whole hmem hw hsize hmax

/-- In every run the images of the processes are whole. -/
theorem Kernel.Booted.whole {F : Files φ ι} {k₀ k : Kernel φ} (h₀ : k₀.Booted)
    (hr : Run (Kernel.step F) Kernel.Own k₀ k) : k.Inv State.Whole := by
  refine hr.invariant h₀.inv fun k e _ h hown hf ↦ h.step Shape.ofWhole hown ?_ hf
  intro i p size c t _ hp hgrow
  obtain ⟨free, hs⟩ := h.space
  have hmem := List.mem_of_getElem? hp
  exact Process.growMemory_whole hs (h.mem p hmem) (h.image p hmem) hgrow

/-- In every run: the copy of the memory of a process only halts for lack of memory, a fork gives
the child the pages of the parent in frames of its own and changes nothing else, and a store of
a process changes no byte that another one sees. -/
theorem fork_isolates (F : Files φ ι) {k₀ k : Kernel φ} (h₀ : k₀.Booted)
    (hr : Run (Kernel.step F) Kernel.Own k₀ k) {i : Nat} {p : Process}
    (hp : k.processes[i]? = some p) :
    (∀ c k', Process.construct k = .ok (c, k') →
      Ends (· = Page.outOfMemory) (fun _ ↦ True)
        (copyUserVirtualMemory p.pageTable c.pageTable p.memorySize k'.pages)) ∧
      (∀ k', k.step F (.fork i) = some k' → ∃ c, Forked k p c k') ∧
        ∀ va b s, p.store va b k.pages = some s → ∀ j q, j ≠ i → k.processes[j]? = some q →
          ∀ va', q.visible va' s = q.visible va' k.pages := by
  have hinv := h₀.whole hr
  have hmem := List.mem_of_getElem? hp
  refine ⟨fun c k' hc ↦ (hinv.copy Shape.ofWhole hmem hc).imp fun _ _ ↦ trivial, fun k' hf ↦ ?_, ?_⟩
  · obtain ⟨p', hp', hf⟩ := Option.bind_eq_some_iff.mp hf
    cases hp.symm.trans hp'
    cases hfork : p.fork k with
    | error e =>
      rw [hfork] at hf
      cases hf
    | ok r =>
      rw [hfork] at hf
      cases hf
      exact (hinv.fork Shape.ofWhole hmem hfork).2
  · intro va b s hs j q hne hq va'
    obtain ⟨free, hspace⟩ := hinv.space
    have hq' := hinv.mem q (List.mem_of_getElem? hq)
    have hp' := hinv.mem p hmem
    have hdiff : q.pageTable ≠ p.pageTable := fun he ↦ hne (hinv.apart j i q p hq hp he)
    exact Process.visible_wrote hspace hq' hp' hdiff (Process.store_wrote hspace hp' hs)

/-- A kernel with an empty page table, in the first free page. -/
def Kernel.boot (s : State) : Kernel Unit :=
  let r := (Page.allocate s).toOption.getD (0, s)
  ⟨PageTable.construct r.1 r.2, r.1, KERNEL_BASE, 1, [], (), [], []⟩

theorem Kernel.boot_booted {s : State} {free : List UInt64} (h : s.Blank free)
    (hne : s.freeList ≠ 0) : (Kernel.boot s).Booted := by
  cases free with
  | nil => exact absurd h.linked hne
  | cons q free =>
    obtain ⟨t, ht, hfree, hnot, hmem⟩ := Page.allocate_blank h
    have hk : Kernel.boot s = ⟨PageTable.construct q t, q, KERNEL_BASE, 1, [], (), [], []⟩ := by
      rw [Kernel.boot, ht]
      rfl
    have hbase : Tables s [] (fun _ ↦ False) (q :: free) := by
      refine ⟨h, ?_, ?_, ?_, ?_, ?_⟩
      · exact fun r₁ _ _ _ _ h₁ ↦ absurd h₁ List.not_mem_nil
      · rintro n ⟨r, p, hr, -⟩
        cases hr
      · rintro n ⟨r, p, hr, -⟩
        cases hr
      · exact fun r hr ↦ absurd hr List.not_mem_nil
      · exact fun n hn ↦ hn.elim
    obtain ⟨hblank, hsame⟩ := PageTable.construct_blank (s := t) (h.aligned q (by simp))
      (by rw [hmem, Function.update_self])
    have hpages : (PageTable.construct q t).Blank free := by
      refine hfree.congr rfl fun p hp ↦ hsame p ?_
      rintro rfl
      exact hnot hp
    have hother : ∀ p, p ≠ q → (PageTable.construct q t).memory p = s.memory p := fun p hp ↦ by
      rw [hsame p hp, hmem, Function.update_of_ne hp]
    rw [hk]
    refine ⟨rfl, rfl, free, (hbase.plant hpages hother hblank).1.mono fun n hn ↦ ?_⟩
    exact absurd hn List.not_mem_nil

/-- No files. -/
def noFiles : Files Unit Unit where
  openPath _ _ := some (none, ())
  lock _ _ := some ((), ())
  unlock _ _ := some ((), ())
  put _ _ := some ((), ())
  readElfHeader _ _ _ := none
  readProgramHeader _ _ _ := none
  read _ _ _ _ := none

/-- A kernel with thirty-two pages. -/
def thirtyTwoPages : Kernel Unit :=
  Kernel.boot (Page.initializePages ⟨fun _ ↦ zeros, 0, 0, 0x87fe0000⟩)

theorem thirtyTwoPages_booted : thirtyTwoPages.Booted := by
  have hplaced : State.Placed ⟨fun _ ↦ zeros, 0, 0, 0x87fe0000⟩ := ⟨rfl, by decide⟩
  obtain ⟨free, hfree⟩ := Page.initializePages_blank hplaced rfl fun _ ↦ rfl
  exact Kernel.boot_booted hfree (by decide +kernel)

/-- The first process forks and stores. -/
theorem fork_isolates_first :
    let k := final (Kernel.step noFiles) thirtyTwoPages [.init [1, 2, 3], .fork 0]
    (∃ p k' c, k.processes[0]? = some p ∧ k.step noFiles (.fork 0) = some k' ∧ Forked k p c k') ∧
      ∃ p q s, k.processes[0]? = some p ∧ k.processes[1]? = some q ∧
        p.store 5 7 k.pages = some s ∧ q.visible 5 s = q.visible 5 k.pages := by
  intro k
  have hrun : Run (Kernel.step noFiles) Kernel.Own thirtyTwoPages k :=
    run_final (by decide +kernel) ⟨trivial, fun _ _ ↦ ⟨trivial, fun _ _ ↦ trivial⟩⟩
  obtain ⟨p, hp⟩ := Option.isSome_iff_exists.mp
    (show (k.processes[0]?).isSome = true by decide +kernel)
  obtain ⟨q, hq⟩ := Option.isSome_iff_exists.mp
    (show (k.processes[1]?).isSome = true by decide +kernel)
  obtain ⟨k', hk'⟩ := Option.isSome_iff_exists.mp
    (show (k.step noFiles (.fork 0)).isSome = true by decide +kernel)
  obtain ⟨s, hs⟩ := Option.isSome_iff_exists.mp
    (show ((k.processes[0]?).bind fun p ↦ p.store 5 7 k.pages).isSome = true by decide +kernel)
  rw [hp, Option.bind_some] at hs
  obtain ⟨-, hfork, hstore⟩ := fork_isolates noFiles thirtyTwoPages_booted hrun hp
  obtain ⟨c, hc⟩ := hfork k' hk'
  exact ⟨⟨p, k', c, hp, hk', hc⟩, p, q, s, hp, hq, hs,
    hstore 5 7 s hs 1 q (by decide) hq 5⟩

/-- Thirty-two pages and the first process. -/
def oneProcess : Kernel Unit := (thirtyTwoPages.step noFiles (.init [])).getD thirtyTwoPages

theorem oneProcess_step (F : Files Unit ι) :
    thirtyTwoPages.step F (.init []) = some oneProcess := by
  have hsame : thirtyTwoPages.step F (.init []) = thirtyTwoPages.step noFiles (.init []) := rfl
  obtain ⟨k, hk⟩ := Option.isSome_iff_exists.mp
    (show (thirtyTwoPages.step noFiles (.init [])).isSome = true by decide +kernel)
  rw [hsame, oneProcess, hk, Option.getD_some]

theorem oneProcess_run (F : Files Unit ι) :
    Run (Kernel.step F) Kernel.Own thirtyTwoPages oneProcess :=
  .tail .refl (show thirtyTwoPages.Own (.init []) from trivial) (oneProcess_step F)

end Orfos.Memory
