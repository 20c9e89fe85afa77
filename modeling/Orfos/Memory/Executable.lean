import Mathlib.Data.UInt
import Orfos.Memory.Robust

/-!
# What a process finds after exec

The image that `exec` builds against the file as its headers describe it, with offsets of 64 bits.
`exec` gives `Inode::read` offsets of 32 bits: the image is the one of the file if and only if
they are enough.
-/

namespace Orfos.Memory

open Orfos.Base Orfos.Base.Traced Orfos.Syscall PageTableEntry VirtualAddress

variable {φ ι : Type}

/-! ### Images -/

namespace Content

variable (file : Content) (e : ElfHeader)

/-- The program header of number `i`, as the header of the file says. -/
def header (i : Nat) : Option ProgramHeader := file.programHeader (e.phoff.toNat + 56 * i)

/-- The segments of the file come in ascending order and do not overlap. -/
def Ascending : Prop :=
  ∀ i j h h', i < j → j < e.phnum.toNat → file.header e i = some h → file.header e j = some h' →
    h.type = ELF_PROG_LOAD → h'.type = ELF_PROG_LOAD → segmentEnd h ≤ h'.vaddr.toNat

/-- 32 bits are enough for the offsets of the file. -/
def Narrow : Prop :=
  ∀ i < e.phnum.toNat, e.phoff.toNat + 56 * i < 2 ^ 32 ∧
    ∀ h, file.header e i = some h → h.type = ELF_PROG_LOAD → 0 < h.filesz.toNat →
      h.off.toNat + h.filesz.toNat ≤ 2 ^ 32

end Content

/-- An entry allows what the flags of a segment say. -/
def Allows (flags : UInt32) (raw : PageTableEntry) : Prop :=
  raw &&& PTE_R ≠ 0 ∧ raw &&& PTE_U ≠ 0 ∧ (raw &&& PTE_W ≠ 0 ↔ flags &&& 2 ≠ 0) ∧
    (raw &&& PTE_X ≠ 0 ↔ flags &&& 1 ≠ 0)

/-- A process has a segment of a file in its memory. -/
structure Process.Holds (p : Process) (file : Content) (h : ProgramHeader) (s : State) : Prop where
  bytes : ∀ k < h.filesz.toNat, h.off.toNat + k < file.size.toNat ∧
    p.visible (h.vaddr + UInt64.ofNat k) s = some (file.byte (h.off.toNat + k))
  zeros : ∀ k, h.filesz.toNat ≤ k → k < h.memsz.toNat →
    p.visible (h.vaddr + UInt64.ofNat k) s = some 0
  flags : ∀ va, page h.vaddr ≤ page va → page va < (segmentEnd h + 4095) / 4096 →
    ∃ raw, p.entry va s = some raw ∧ Allows h.flags raw

/-- A process has the image of a file in its memory: `exec` has used the program headers of the
file, their segments are there, and the page below the stack page is not for the user. -/
structure Process.Loaded (p : Process) (file : Content) (e : ElfHeader) (s : State) : Prop where
  used : ∀ i < e.phnum.toNat, file.used e i = file.header e i
  segments : ∀ i < e.phnum.toNat, ∀ h, file.header e i = some h → h.type = ELF_PROG_LOAD →
    p.Holds file h s
  guard : ∀ va, page va = p.memorySize.toNat / 4096 - 2 → p.entry va s = none

section

variable {file : Content} {e : ElfHeader} {h : ProgramHeader} {i n : Nat} {p : Process}
  {s : State} {kernel : UInt64} {tables taken free : List UInt64}

theorem Content.used_eq (hlt : e.phoff.toNat + 56 * i < 2 ^ 32) :
    file.used e i = file.header e i := by
  have hoffset : (e.phoff + 56 * UInt64.ofNat i).toUInt32.toNat = e.phoff.toNat + 56 * i := by
    rw [UInt64.toNat_toUInt32, UInt64.toNat_add, UInt64.toNat_mul, UInt64.toNat_ofNat']
    have hsize : (56 : UInt64).toNat = 56 := rfl
    rw [hsize]
    omega
  rw [used, header, hoffset]

theorem Content.header_lt (hh : file.header e i = some h) : e.phoff.toNat + 56 * i < 2 ^ 32 := by
  have hsize := file.size.toNat_lt
  rw [header, programHeader] at hh
  split at hh
  · omega
  · cases hh

/-- A page of a segment has the flags of the segment. -/
theorem allows_of_flags {f : UInt32} {raw : PageTableEntry}
    (hf : flags raw = (PTE_R ||| PTE_U ||| Elf.flagsToPerm f).toUInt16 ||| 1) : Allows f raw := by
  have hbit : ∀ (k : UInt64) (k' : UInt16), k.toNat = k'.toNat → 1023 &&& k'.toNat = k'.toNat →
      (raw &&& k ≠ 0 ↔ flags raw &&& k' ≠ 0) := fun _ _ hk hlt ↦ by
    have := field_flags raw hk hlt
    rw [Bool.eq_iff_iff, bne_iff_ne, bne_iff_ne] at this
    exact this
  rw [Allows, hbit PTE_R 2 rfl rfl, hbit PTE_U 16 rfl rfl, hbit PTE_W 4 rfl rfl,
    hbit PTE_X 8 rfl rfl, hf, Elf.flagsToPerm]
  split <;> split <;> simp_all <;> decide

/-- Byte `k` of a segment, where 32 bits are enough for its offsets. -/
theorem Content.loaded_eq {k : Nat}
    (hn : 0 < h.filesz.toNat → h.off.toNat + h.filesz.toNat ≤ 2 ^ 32) :
    file.loaded h k = if k < h.filesz.toNat then file.byte (h.off.toNat + k) else 0 := by
  rw [loaded]
  by_cases hk : k < h.filesz.toNat
  · have := hn (by omega)
    have hoffset : (offsetOf h (k / 4096)).toNat = h.off.toNat + 4096 * (k / 4096) := by
      rw [offsetOf, UInt64.toNat_toUInt32, UInt64.toNat_add, UInt64.toNat_ofNat']
      omega
    rw [if_pos hk, if_pos hk, hoffset]
    congr 1
    omega
  · rw [if_neg hk, if_neg hk]

/-- A file that `exec` accepts has the bytes of its segments. -/
theorem Content.Contains.lt {k : Nat} (hc : file.Contains h) (hk : k < h.filesz.toNat)
    (hn : h.off.toNat + h.filesz.toNat ≤ 2 ^ 32) : h.off.toNat + k < file.size.toNat := by
  have hhas := hc (k / 4096) (by omega)
  have hoffset : (offsetOf h (k / 4096)).toNat = h.off.toNat + 4096 * (k / 4096) := by
    rw [offsetOf, UInt64.toNat_toUInt32, UInt64.toNat_add, UInt64.toNat_ofNat']
    omega
  rw [HasPage, hoffset] at hhas
  omega

/-- The entry that the hart finds for a user page. -/
theorem Space.entry_some (hs : Space s kernel tables taken free) (hmem : p.pageTable ∈ tables)
    {va : UInt64} (hva : page va < userPages) (hv : v (s.raw p.pageTable (page va)) = true)
    (hu : u (s.raw p.pageTable (page va)) = true) :
    p.entry va s = some (s.raw p.pageTable (page va)) := by
  have hU := userPages_eq
  have hdef : page va = va.toNat / 4096 := rfl
  have hmax : va < MAX_VIRTUAL_ADDRESS := UInt64.lt_iff_toNat_lt.mpr (by
    change va.toNat < 2 ^ 38
    omega)
  rw [Process.entry_eq hs hmem, if_pos ⟨hmax, hv, hu⟩]

/-- A segment that is in place is what the process has in its memory. -/
theorem Content.Segment.holds (hs : Space s kernel tables taken free)
    (hmem : p.pageTable ∈ tables) (hshape : s.Exact p.pageTable p.memorySize)
    (hend : segmentEnd h ≤ p.memorySize.toNat) (hsound : Sound h) (hc : file.Contains h)
    (hn : 0 < h.filesz.toNat → h.off.toNat + h.filesz.toNat ≤ 2 ^ 32)
    (hseg : file.Segment h p.pageTable s) : p.Holds file h s := by
  have hU := userPages_eq
  have hle := hshape.1
  have hcount : pageCount p.memorySize = (p.memorySize.toNat + 4095) / 4096 := rfl
  have hfile := hsound.le
  have hdefEnd : segmentEnd h = h.vaddr.toNat + h.memsz.toNat := rfl
  have hdef : page h.vaddr = h.vaddr.toNat / 4096 := rfl
  have hentry : ∀ va, page h.vaddr ≤ page va → page va < (segmentEnd h + 4095) / 4096 →
      p.entry va s = some (s.raw p.pageTable (page va)) := fun va h₁ h₂ ↦ by
    refine hs.entry_some hmem (by omega) ((hshape.2 _ (by omega)).mpr (by omega)) ?_
    rw [u_flags, (hseg _ h₁ h₂).1]
    exact bne_iff_ne.mpr (flagsToPerm_user _)
  have hbyte : ∀ k < h.memsz.toNat, p.visible (h.vaddr + UInt64.ofNat k) s =
      some (if k < h.filesz.toNat then file.byte (h.off.toNat + k) else 0) := fun k hk ↦ by
    have hva : (h.vaddr + UInt64.ofNat k).toNat = h.vaddr.toNat + k := by
      rw [UInt64.toNat_add, UInt64.toNat_ofNat']
      omega
    have hpage : page (h.vaddr + UInt64.ofNat k) = (h.vaddr.toNat + k) / 4096 := by
      change (h.vaddr + UInt64.ofNat k).toNat / 4096 = _
      rw [hva]
    have h₁ : page h.vaddr ≤ page (h.vaddr + UInt64.ofNat k) := by omega
    have h₂ : page (h.vaddr + UInt64.ofNat k) < (segmentEnd h + 4095) / 4096 := by omega
    have hback : 4096 * page (h.vaddr + UInt64.ofNat k) + (h.vaddr + UInt64.ofNat k).toNat % 4096 -
      h.vaddr.toNat = k := by omega
    rw [Process.visible, hentry _ h₁ h₂, Option.map_some,
      (hseg _ h₁ h₂).2 _ (Nat.mod_lt _ (by decide)), hback, Content.loaded_eq hn]
  refine ⟨fun k hk ↦ ⟨hc.lt hk (hn (by omega)), ?_⟩, fun k h₁ h₂ ↦ ?_, fun va h₁ h₂ ↦
    ⟨_, hentry va h₁ h₂, allows_of_flags (hseg _ h₁ h₂).1⟩⟩
  · rw [hbyte k (by omega), if_pos hk]
  · rw [hbyte k h₂, if_neg (by omega)]

/-- The page below the stack page. -/
theorem Done.guarded {k : Syscall.Kernel (World φ) ι UInt64}
    (hd : Done kernel taken file e k) (htable : p.pageTable = k.pageTable)
    (hsize : p.memorySize = k.memorySize) {va : UInt64}
    (hva : page va = p.memorySize.toNat / 4096 - 2) : p.entry va k.world.pages = none := by
  obtain ⟨free, hs⟩ := hd.space
  have hmem := hd.mem
  have hguard := hd.guard
  rw [← htable] at hmem hguard
  rw [← hsize, ← hva] at hguard
  rw [Process.entry_eq hs hmem, if_neg]
  rintro ⟨-, -, hu⟩
  rw [hguard] at hu
  cases hu

/-- `exec` has loaded a file with segments in ascending order if and only if 32 bits are enough
for its offsets. -/
theorem Done.loaded_iff {k : Syscall.Kernel (World φ) ι UInt64}
    (hd : Done kernel taken file e k) (htable : p.pageTable = k.pageTable)
    (hsize : p.memorySize = k.memorySize) (ho : file.Ascending e) :
    p.Loaded file e k.world.pages ↔ file.Narrow e := by
  constructor
  · intro hl i hi
    obtain ⟨h, hu, -⟩ := hd.accepts i hi
    rw [hl.used i hi] at hu
    refine ⟨Content.header_lt hu, fun h' hh hload hpos ↦ ?_⟩
    have hlast := ((hl.segments i hi h' hh hload).bytes (h'.filesz.toNat - 1) (by omega)).1
    have := file.size.toNat_lt
    omega
  · intro hn
    have hused : ∀ i < e.phnum.toNat, file.used e i = file.header e i := fun i hi ↦
      Content.used_eq (hn i hi).1
    have hordered : file.Ordered e := fun i j h h' hij hj hu hu' ↦ by
      rw [hused i (hij.trans hj)] at hu
      rw [hused j hj] at hu'
      exact ho i j h h' hij hj hu hu'
    refine ⟨hused, fun i hi h hh hload ↦ ?_, fun va hva ↦ hd.guarded htable hsize hva⟩
    obtain ⟨free, hs⟩ := hd.space
    have hu := (hused i hi).trans hh
    obtain ⟨h', hu', hall⟩ := hd.accepts i hi
    obtain rfl : h = h' := Option.some.inj (hu.symm.trans hu')
    obtain ⟨hsound, -, hcontains⟩ := hall hload
    have hend := Content.end_le_imageEnd hi hu hload
    have htwo := hd.two
    have hseg := hd.segments hordered i hi h hu hload
    have hmem := hd.mem
    have hshape := hd.shape
    rw [← htable] at hseg hmem hshape
    rw [← hsize] at hshape htwo
    exact hseg.holds hs hmem hshape (by omega) hsound hcontains ((hn i hi).2 h hh hload)

end

/-- In every reachable state: after an `exec` that succeeds on a file with segments in ascending
order, the process has the image of the file in its memory if and only if 32 bits are enough for
the offsets of the file. -/
theorem exec_loads_iff {F : Files φ ι} {ok : φ → Prop} {path : CString} {argv : List CString}
    {ip : ι} {file : Content} {k k₀ k' : Kernel φ} {p p' : Process} {e : ElfHeader} {r : Int32}
    (h₀ : k₀.Booted) (hrun : Run (Kernel.step F) Kernel.Own k₀ k)
    (hF : F.Serves ok path ip file) (hok : ok k.files)
    (hr : (Elf.exec (rest F k.trampoline p.trapFrame) path argv (p.enter k)).value = some r)
    (hsuccess : r ≠ -1) (hexec : p.exec F path argv k = some (p', k'))
    (he : file.elfHeader = some e) (ho : file.Ascending e) :
    p'.Loaded file e k'.pages ↔ file.Narrow e := by
  obtain ⟨free, hs⟩ := (h₀.whole hrun).space
  have hends : Ensures (regime False) (Elf.exec (rest F k.trampoline p.trapFrame) path argv)
    (p.enter k) _ := hF.exec hok hs False.elim False.elim
  obtain ⟨-, hbad | ⟨-, e', hd⟩⟩ := hends.of_runs ⟨hr, rfl, fun _ _ ↦ trivial⟩
  · exact absurd hbad hsuccess
  · obtain rfl : e = e' := Option.some.inj (he.symm.trans hd.header)
    unfold Process.exec at hexec
    dsimp only at hexec
    rw [hr] at hexec
    cases hexec
    exact hd.loaded_iff rfl rfl ho

theorem Content.ascending_one {file : Content} {e : ElfHeader} (hphnum : e.phnum = 1) :
    file.Ascending e := by
  intro i j h h' hij hj
  rw [hphnum] at hj
  have hj' : j < 1 := hj
  omega

/-- `exec` of the first process without arguments. -/
def firstExec (file : Content) : Option (Int32 × Process × Process × Kernel Unit) := do
  let p ← oneProcess.processes[0]?
  let r ← (Elf.exec (rest file.files oneProcess.trampoline p.trapFrame) [] []
    (p.enter oneProcess)).value
  let (p', k') ← p.exec file.files [] [] oneProcess
  return (r, p, p', k')

theorem firstExec_eq {file : Content} (h : (firstExec file).map (·.1) = some 0) :
    ∃ p p' k', p ∈ oneProcess.processes ∧
      (Elf.exec (rest file.files oneProcess.trampoline p.trapFrame) [] []
        (p.enter oneProcess)).value = some 0 ∧
      p.exec file.files [] [] oneProcess = some (p', k') := by
  obtain ⟨w, hw, hr⟩ := Option.map_eq_some_iff.mp h
  simp only [firstExec, Option.bind_eq_bind, Option.bind_eq_some_iff] at hw
  obtain ⟨p, hp, r, hvalue, ⟨p', k'⟩, hexec, hw⟩ := hw
  cases hw
  exact ⟨p, p', k', List.mem_of_getElem? hp, by rw [hvalue, ← hr], hexec⟩

/-- `exec` loads a file with one segment. -/
theorem exec_loads_low : ∃ p p' k', p ∈ oneProcess.processes ∧
    p.exec lowSegment.files [] [] oneProcess = some (p', k') ∧
      p'.Loaded lowSegment ⟨ELF_MAGIC, 0, 64, 1⟩ k'.pages := by
  obtain ⟨p, p', k', hp, hr, hexec⟩ := firstExec_eq
    (show (firstExec lowSegment).map (·.1) = some 0 by decide +kernel)
  have he : lowSegment.elfHeader = some ⟨ELF_MAGIC, 0, 64, 1⟩ := by decide +kernel
  have hu : lowSegment.header ⟨ELF_MAGIC, 0, 64, 1⟩ 0 =
    some ⟨ELF_PROG_LOAD, 7, 0, 0, 8, 4096⟩ := by decide +kernel
  refine ⟨p, p', k', hp, hexec, (exec_loads_iff thirtyTwoPages_booted
    (oneProcess_run lowSegment.files) (lowSegment.files_serves []) trivial hr (by decide) hexec he
    (Content.ascending_one rfl)).mpr fun i hi ↦ ?_⟩
  obtain rfl : i = 0 := Nat.lt_one_iff.mp hi
  refine ⟨by decide, fun h hh _ _ ↦ ?_⟩
  obtain rfl : _ = h := Option.some.inj (hu.symm.trans hh)
  decide

/-- A file with a segment whose offset does not fit into 32 bits. -/
def farSegment : Content := oneHeader 120 64 ⟨ELF_PROG_LOAD, 7, 2 ^ 32, 0, 8, 4096⟩
  oneHeader_bounded

/-- `exec` succeeds on it with other bytes than those of the segment. -/
theorem exec_loads_far : ∃ p p' k' r, Run (Kernel.step farSegment.files) Kernel.Own thirtyTwoPages
    oneProcess ∧ p ∈ oneProcess.processes ∧
      (Elf.exec (rest farSegment.files oneProcess.trampoline p.trapFrame) [] []
        (p.enter oneProcess)).value = some r ∧ r ≠ -1 ∧
      p.exec farSegment.files [] [] oneProcess = some (p', k') ∧
      farSegment.Ascending ⟨ELF_MAGIC, 0, 64, 1⟩ ∧
      ¬ p'.Loaded farSegment ⟨ELF_MAGIC, 0, 64, 1⟩ k'.pages := by
  obtain ⟨p, p', k', hp, hr, hexec⟩ := firstExec_eq
    (show (firstExec farSegment).map (·.1) = some 0 by decide +kernel)
  have hu : farSegment.header ⟨ELF_MAGIC, 0, 64, 1⟩ 0 =
    some ⟨ELF_PROG_LOAD, 7, 2 ^ 32, 0, 8, 4096⟩ := by decide +kernel
  refine ⟨p, p', k', 0, oneProcess_run farSegment.files, hp, hr, by decide, hexec,
    Content.ascending_one rfl, fun hl ↦ ?_⟩
  have hlast := ((hl.segments 0 (by decide) _ hu rfl).bytes 0 (by decide)).1
  exact absurd hlast (by decide)

end Orfos.Memory
