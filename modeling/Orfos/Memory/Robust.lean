import Orfos.Memory.Exec
import Orfos.Memory.Fork

/-!
# Files that exec survives

`exec` does not compare the segments of a file with `TRAPFRAME`. It returns on a file if and only
if the segments that it maps end at or below `TRAPFRAME` and leave room for the stack.
-/

namespace Orfos.Memory

open Orfos.Base Orfos.Base.Traced Orfos.Syscall PageTableEntry VirtualAddress

variable {φ ι : Type}

/-- `exec` returns -1 or the number of arguments, and -1 if a segment ends above `TRAPFRAME`. -/
def Process.Robust (F : Files φ ι) (p : Process) (path : CString) (argv : List CString)
    (file : Content) (k : Kernel φ) : Prop :=
  ∃ r, (Elf.exec (rest F k.trampoline p.trapFrame) path argv (p.enter k)).value = some r ∧
    (r = -1 ∨ r = Int32.ofNat argv.length) ∧
      ∀ e i h, file.elfHeader = some e → i < e.phnum.toNat → file.used e i = some h →
        h.type = ELF_PROG_LOAD → TRAPFRAME.toNat < segmentEnd h → r = -1

section

variable {F : Files φ ι} {ok : φ → Prop} {path : CString} {argv : List CString} {ip : ι}
  {file : Content} {k k₀ : Kernel φ} {p : Process} {free tables taken : List UInt64}
  {kernel : UInt64} {e : ElfHeader} {h : ProgramHeader} {i : Nat}

/-- The segments of an image end below the stack. -/
theorem Done.segment_le {k : Syscall.Kernel (World φ) ι UInt64}
    (hd : Done kernel taken file e k) (hi : i < e.phnum.toNat) (hu : file.used e i = some h)
    (hl : h.type = ELF_PROG_LOAD) : segmentEnd h ≤ TRAPFRAME.toNat := by
  have hend := Content.end_le_imageEnd hi hu hl
  have htop := pageCount_le_iff.mp hd.shape.1
  have htwo := hd.two
  omega

/-- When `exec` returns, the segments that it has mapped fit. -/
theorem Process.Robust.mappable (hF : F.Serves ok path ip file) (hok : ok k.files)
    (hs : Space k.pages k.kernelPageTable k.tables k.taken free)
    (hr : p.Robust F path argv file k) : file.Mappable := by
  obtain ⟨r, hr, -⟩ := hr
  have hexec : Ensures (regime False) (Elf.exec (rest F k.trampoline p.trapFrame) path argv)
    (p.enter k) _ := hF.exec hok hs False.elim False.elim
  exact (hexec.of_runs ⟨hr, rfl, fun _ _ ↦ trivial⟩).1

/-- When the segments fit and there are pages enough, `exec` returns. -/
theorem Content.Mappable.robust (hF : F.Serves ok path ip file) (hok : ok k.files)
    (hs : Space k.pages k.kernelPageTable k.tables k.taken free) (hN : file.Enough free.length)
    (hm : file.Mappable) : p.Robust F path argv file k := by
  have hexec : Ensures (regime True) (Elf.exec (rest F k.trampoline p.trapFrame) path argv)
    (p.enter k) _ := hF.exec hok hs (fun _ ↦ hm) fun _ ↦ hN
  obtain ⟨r, k', ⟨hr, -, -⟩, -, hdone⟩ := hexec.runs trivial fun _ _ ↦ trivial
  refine ⟨r, hr, hdone.imp_right fun hd ↦ hd.1, fun e i h he hi hu hl hhigh ↦ ?_⟩
  rcases hdone with hbad | ⟨-, e', hd⟩
  · exact hbad
  · obtain rfl : e = e' := Option.some.inj (he.symm.trans hd.header)
    exact absurd (hd.segment_le hi hu hl) (Nat.not_le.mpr hhigh)

end

/-! ### One segment -/

/-- The first pages of the free list. -/
def firstFree (memory : UInt64 → Contents) : Nat → UInt64 → List UInt64
  | 0, _ => []
  | n + 1, head => if head = 0 then [] else head :: firstFree memory n (getU64 (memory head) 0)

theorem Linked.firstFree {memory : UInt64 → Contents} {head : UInt64} {free : List UInt64}
    (h : Linked memory head free) (n : Nat) : firstFree memory n head = free.take n := by
  induction free generalizing head n with
  | nil =>
    have h0 : head = 0 := h
    cases n with
    | zero => rfl
    | succ n => rw [Memory.firstFree, if_pos h0, List.take_nil]
  | cons p ps ih =>
    obtain ⟨rfl, h0, hr⟩ := h
    cases n with
    | zero => rfl
    | succ n => rw [Memory.firstFree, if_neg h0, ih hr, List.take_succ_cons]

/-- A file with one program header. -/
def oneHeader (size : UInt32) (phoff : UInt64) (h : ProgramHeader)
    (hsize : size.toNat ≤ Fs.MAX_FILE * Fs.BLOCK_SIZE) : Content where
  size := size
  block := fun _ ↦
    let b : Fs.Block := putU16 (putU64 (putU32 (fun _ ↦ 0) 0 ELF_MAGIC) 32 phoff) 56 1
    putU64 (putU64 (putU64 (putU64 (putU32 (putU32 b 64 h.type) 68 h.flags) 72 h.off) 80 h.vaddr)
      96 h.filesz) 104 h.memsz
  bounded := hsize

theorem oneHeader_bounded : (120 : UInt32).toNat ≤ Fs.MAX_FILE * Fs.BLOCK_SIZE := by
  decide

section

variable {ι : Type} {file : Content} {e : ElfHeader} {h : ProgramHeader} {N : Nat}

/-- How far the image of one segment reaches. -/
theorem Content.imageEnd_one (hu : file.used e 0 = some h) (hl : h.type = ELF_PROG_LOAD) :
    file.imageEnd e 1 = segmentEnd h := by
  rw [imageEnd_load hu hl]
  exact Nat.zero_max _

theorem Content.supply_one (hphnum : e.phnum = 1) (hu : file.used e 0 = some h)
    (hl : h.type = ELF_PROG_LOAD) (hN : pagesFor 2 ≤ N)
    (hend : segmentEnd h ≤ TRAPFRAME.toNat → pagesFor ((segmentEnd h + 4095) / 4096 + 2) ≤ N) :
    file.Supply e N := by
  intro i hi htop
  rw [hphnum] at hi
  have hi' : i ≤ 1 := hi
  by_cases h0 : i = 0
  · have hzero : file.imageEnd e 0 = 0 := rfl
    rw [h0, hzero]
    exact hN
  · obtain rfl : i = 1 := by omega
    rw [imageEnd_one hu hl] at htop ⊢
    exact hend htop

/-- Twelve pages are left. -/
theorem oneProcess_free {free : List UInt64} (h : oneProcess.pages.Free free) :
    12 ≤ free.length := by
  have hlen : (firstFree oneProcess.pages.memory 12 oneProcess.pages.freeList).length = 12 := by
    decide +kernel
  rw [h.linked.firstFree, List.length_take] at hlen
  omega

theorem enough_one {free : List UInt64} (hfree : oneProcess.pages.Free free)
    (he : file.elfHeader = some e) (hphnum : e.phnum = 1) (hu : file.used e 0 = some h)
    (hl : h.type = ELF_PROG_LOAD)
    (hend : segmentEnd h ≤ TRAPFRAME.toNat → pagesFor ((segmentEnd h + 4095) / 4096 + 2) ≤ 9) :
    file.Enough free.length := by
  have hlen := oneProcess_free hfree
  have htwo : pagesFor 2 = 4 := rfl
  refine ⟨by omega, fun e' he' _ ↦ ?_⟩
  obtain rfl : e = e' := Option.some.inj (he.symm.trans he')
  refine Content.supply_one hphnum hu hl (by omega) fun htop ↦ (hend htop).trans ?_
  omega

end

/-! ### Robustness -/

/-- In every reachable state with pages enough, `exec` is robust against exactly the files whose
segments fit. -/
theorem exec_robust_iff {F : Files φ ι} {ok : φ → Prop} {path : CString} {argv : List CString}
    {ip : ι} {file : Content} {k k₀ : Kernel φ} {p : Process} {free : List UInt64}
    (h₀ : k₀.Booted) (hrun : Run (Kernel.step F) Kernel.Own k₀ k)
    (hF : F.Serves ok path ip file) (hok : ok k.files) (hfree : k.pages.Free free)
    (hN : file.Enough free.length) : p.Robust F path argv file k ↔ file.Mappable := by
  obtain ⟨free', hs⟩ := (h₀.whole hrun).space
  obtain rfl : free = free' := hfree.linked.unique hs.wf.pages.linked
  exact ⟨fun hr ↦ hr.mappable hF hok hs, fun hm ↦ hm.robust hF hok hs hN⟩

/-- A file with a segment of one page. -/
def lowSegment : Content := oneHeader 120 64 ⟨ELF_PROG_LOAD, 7, 0, 0, 8, 4096⟩ oneHeader_bounded

/-- `exec` returns on it. -/
theorem exec_robust_low :
    ∃ p ∈ oneProcess.processes, p.Robust lowSegment.files [] [] lowSegment oneProcess := by
  have he : lowSegment.elfHeader = some ⟨ELF_MAGIC, 0, 64, 1⟩ := by decide +kernel
  have hu : lowSegment.used ⟨ELF_MAGIC, 0, 64, 1⟩ 0 = some ⟨ELF_PROG_LOAD, 7, 0, 0, 8, 4096⟩ := by
    decide +kernel
  have hrun := oneProcess_run lowSegment.files
  obtain ⟨free, hs⟩ := (thirtyTwoPages_booted.whole hrun).space
  obtain ⟨p, hp⟩ := Option.isSome_iff_exists.mp
    (show (oneProcess.processes[0]?).isSome = true by decide +kernel)
  have hfree := hs.wf.pages.toFree
  refine ⟨p, List.mem_of_getElem? hp, (exec_robust_iff thirtyTwoPages_booted hrun
    (lowSegment.files_serves []) trivial hfree
    (enough_one hfree he rfl hu rfl fun _ ↦ by decide)).mpr fun e he' _ ↦ ?_⟩
  obtain rfl : _ = e := Option.some.inj (he.symm.trans he')
  refine ⟨fun i hi _ h hu' _ _ ↦ ?_, fun _ ↦ ?_⟩
  · obtain rfl : i = 0 := Nat.lt_one_iff.mp hi
    obtain rfl : _ = h := Option.some.inj (hu.symm.trans hu')
    decide
  · have hend : lowSegment.imageEnd ⟨ELF_MAGIC, 0, 64, 1⟩ 1 = 4096 := Content.imageEnd_one hu rfl
    change (lowSegment.imageEnd ⟨ELF_MAGIC, 0, 64, 1⟩ 1 + 4095) / 4096 + 2 ≤ userPages
    rw [hend]
    decide

/-- A file with a segment of one byte at `TRAPFRAME`. -/
def highSegment : Content := oneHeader 120 64 ⟨ELF_PROG_LOAD, 7, 0, TRAPFRAME, 0, 1⟩
  oneHeader_bounded

/-- `exec` does not return on a file with a segment at `TRAPFRAME`. -/
theorem exec_robust_high : ∃ p free, Run (Kernel.step highSegment.files) Kernel.Own thirtyTwoPages
    oneProcess ∧ p ∈ oneProcess.processes ∧ oneProcess.pages.Free free ∧
      highSegment.Enough free.length ∧
        ¬ p.Robust highSegment.files [] [] highSegment oneProcess := by
  have he : highSegment.elfHeader = some ⟨ELF_MAGIC, 0, 64, 1⟩ := by decide +kernel
  have hu : highSegment.used ⟨ELF_MAGIC, 0, 64, 1⟩ 0 =
    some ⟨ELF_PROG_LOAD, 7, 0, TRAPFRAME, 0, 1⟩ := by decide +kernel
  have hrun := oneProcess_run highSegment.files
  obtain ⟨free, hs⟩ := (thirtyTwoPages_booted.whole hrun).space
  obtain ⟨p, hp⟩ := Option.isSome_iff_exists.mp
    (show (oneProcess.processes[0]?).isSome = true by decide +kernel)
  have hfree := hs.wf.pages.toFree
  refine ⟨p, free, hrun, List.mem_of_getElem? hp, hfree, ?_, fun hr ↦ ?_⟩
  · exact enough_one hfree he rfl hu rfl fun htop ↦ absurd htop (by decide)
  · have hmap := hr.mappable (highSegment.files_serves []) trivial hs
    have hfit := (hmap _ he rfl).1 0 (by decide) (fun j hj ↦ absurd hj (Nat.not_lt_zero j)) _ hu rfl
      (by decide)
    exact absurd hfit (by decide)

end Orfos.Memory
