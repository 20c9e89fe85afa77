import Orfos.Memory.Loader

/-!
# Runs of exec

`exec` on a file returns if and only if the segments that it maps end at or below `TRAPFRAME`
and the stack fits behind them; when it succeeds, the segments are in place in the new image and
the page below the stack is not for the user.
-/

namespace Orfos.Memory

open Orfos.Base Orfos.Base.Traced Orfos.Syscall PageTableEntry VirtualAddress

variable {φ ι : Type}

namespace Content

variable (file : Content) (e : ElfHeader)

/-- Every segment that `exec` maps ends at or below `TRAPFRAME`, and so does the image with the
guard page and the stack page. -/
def Fits : Prop :=
  (∀ i < e.phnum.toNat, (∀ j < i, file.Accepts e j) → file.FitsAt e i) ∧
    ((∀ j < e.phnum.toNat, file.Accepts e j) →
      (file.imageEnd e e.phnum.toNat + 4095) / 4096 + 2 ≤ userPages)

/-- `N` pages are enough for the images of the file that end at or below `TRAPFRAME`, with the
guard page and the stack page. -/
def Supply (N : Nat) : Prop :=
  ∀ i ≤ e.phnum.toNat, file.imageEnd e i ≤ TRAPFRAME.toNat →
    pagesFor ((file.imageEnd e i + 4095) / 4096 + 2) ≤ N

/-- The segments that `exec` maps fit if it gets that far. -/
def Mappable : Prop := ∀ e, file.elfHeader = some e → e.magic = ELF_MAGIC → file.Fits e

/-- `n` pages are enough for a new page table, and for the images of the file in it that end at
or below `TRAPFRAME`. -/
def Enough (n : Nat) : Prop :=
  3 + pagesFor 2 ≤ n ∧
    ∀ e, file.elfHeader = some e → e.magic = ELF_MAGIC → file.Supply e (n - 3)

/-- The header and the segments of a file are in order. -/
def LoadsAs : Prop :=
  file.elfHeader = some e ∧ e.magic = ELF_MAGIC ∧ ∀ j < e.phnum.toNat, file.Accepts e j

/-- `exec` loads the file. -/
def Loads : Prop := ∃ e, file.LoadsAs e

variable {file e} {i : Nat}

/-- `exec` turns the file down before it comes to a segment that does not fit. -/
theorem Fits.of_reject (hi : i < e.phnum.toNat) (hrej : ¬ file.Accepts e i)
    (hacc : ∀ j < i, file.Accepts e j ∧ file.FitsAt e j) (hfit : file.FitsAt e i) :
    file.Fits e := by
  refine ⟨fun j hj hall ↦ ?_, fun hall ↦ absurd (hall i hi) hrej⟩
  by_cases hlt : j < i
  · exact (hacc j hlt).2
  · by_cases heq : j = i
    · rw [heq]
      exact hfit
    · exact absurd (hall i (by omega)) hrej

end Content

theorem pagesFor_mono {a b : Nat} (h : a ≤ b) : pagesFor a ≤ pagesFor b := by
  rw [pagesFor, pagesFor]
  omega

/-- The length that a read returns is the number of the bytes it has found. -/
theorem ofNat_inj {a b : Nat} (ha : a < 2 ^ 31) (hb : b < 2 ^ 31)
    (h : Int32.ofNat a = Int32.ofNat b) : a = b := by
  have hint := congrArg Int32.toInt h
  rw [Int32.toInt_ofNat_of_lt ha, Int32.toInt_ofNat_of_lt hb] at hint
  exact Int.ofNat_inj.mp hint

theorem flagsToPerm_user (flags : UInt32) :
    ((PTE_R ||| PTE_U ||| Elf.flagsToPerm flags).toUInt16 ||| 1) &&& 16 ≠ 0 := by
  rw [Elf.flagsToPerm]
  split <;> split <;> decide

section

variable {kernel pageTable size trampoline trapFrame : UInt64} {tables taken : List UInt64}
  {s : State} {old : UInt64 × UInt64} {ok : φ → Prop} {file : Content} {e : ElfHeader}
  {N i : Nat} {k : Syscall.Kernel (World φ) ι UInt64} {F : Files φ ι} {C : Prop}
  {Q : Int32 → Syscall.Kernel (World φ) ι UInt64 → Prop} {path : CString} {ip : ι}

/-- What `exec` gets for a program header. -/
theorem Files.Serves.header (hF : F.Serves ok path ip file) (offset : UInt32) {x : φ} (hx : ok x) :
    ∃ b y, F.readProgramHeader ip offset x = some (b, y) ∧ ok y ∧
      (b.1 = 56 ∧ file.programHeader offset.toNat = some b.2 ∨
        b.1 ≠ 56 ∧ file.programHeader offset.toNat = none) := by
  obtain ⟨y, header, hy, hread, hheader⟩ := hF.readProgramHeader x offset hx
  have hle := file.available_le offset 56
  have hall := file.available_eq_iff offset 56 (by decide)
  rw [Content.read_eq] at hread hheader
  generalize hgot : file.available offset 56 = got at hread hheader hle hall
  have hsize : (56 : UInt32).toNat = 56 := rfl
  rw [hsize] at hle hall
  refine ⟨_, y, hread, hy, ?_⟩
  dsimp only
  rw [Content.length_bytes, Content.programHeader]
  by_cases hfull : got = 56
  · subst hfull
    rw [hheader _ rfl (Content.length_bytes _ _), if_pos (hall.mp rfl)]
    exact .inl ⟨rfl, rfl⟩
  · rw [if_neg (fun h ↦ hfull (hall.mpr h))]
    exact .inr ⟨fun he ↦ hfull (ofNat_inj (by omega) (by decide) he), rfl⟩

theorem Files.Serves.elfHeader (hF : F.Serves ok path ip file) {x : φ} (hx : ok x) :
    ∃ b y, F.readElfHeader ip 0 x = some (b, y) ∧ ok y ∧
      (b.1 = 64 ∧ file.elfHeader = some b.2 ∨ b.1 ≠ 64 ∧ file.elfHeader = none) := by
  obtain ⟨y, header, hy, hread, hheader⟩ := hF.readElfHeader x 0 hx
  have hle := file.available_le 0 64
  have hall := file.available_eq_iff 0 64 (by decide)
  rw [Content.read_eq] at hread hheader
  generalize hgot : file.available 0 64 = got at hread hheader hle hall
  have hsize : (64 : UInt32).toNat = 64 := rfl
  have hzero : (0 : UInt32).toNat = 0 := rfl
  rw [hsize] at hle hall
  rw [hzero, Nat.zero_add] at hall
  refine ⟨_, y, hread, hy, ?_⟩
  dsimp only
  rw [Content.length_bytes, Content.elfHeader]
  by_cases hfull : got = 64
  · subst hfull
    rw [hheader _ rfl (Content.length_bytes _ _), if_pos (hall.mp rfl)]
    exact .inl ⟨rfl, rfl⟩
  · rw [if_neg (fun h ↦ hfull (hall.mpr h))]
    exact .inr ⟨fun he ↦ hfull (ofNat_inj (by omega) (by decide) he), rfl⟩

/-- The segment of one more round is in place. -/
theorem Built.round (hb : Built kernel tables taken s old ok file e N i pageTable size k)
    {h : ProgramHeader} (hu : file.used e i = some h)
    (hreach : file.imageEnd e (i + 1) ≤ size.toNat)
    (hseg : file.Ordered e → h.type = ELF_PROG_LOAD → file.Segment h pageTable k.world.pages) :
    Built kernel tables taken s old ok file e N (i + 1) pageTable size k := by
  refine { hb with reach := hreach, segments := fun ho j hj h' hu' hl' ↦ ?_ }
  by_cases heq : j = i
  · subst heq
    obtain rfl : h = h' := Option.some.inj (hu.symm.trans hu')
    exact hseg ho hl'
  · exact hb.segments ho j (by omega) h' hu' hl'

theorem offset_succ (offset : UInt64) (i : Nat) :
    offset + 56 * UInt64.ofNat i + 56 = offset + 56 * UInt64.ofNat (i + 1) := by
  rw [UInt64.ofNat_add, UInt64.mul_add, ← UInt64.add_assoc]
  rfl

/-- `exec` turns a header down that it cannot read. -/
theorem Content.rejects_none (hu : file.used e i = none) :
    ¬ file.Accepts e i ∧ file.FitsAt e i := by
  constructor
  · rintro ⟨h, hu', -⟩
    rw [hu] at hu'
    cases hu'
  · intro h hu'
    rw [hu] at hu'
    cases hu'

/-- `exec` turns a segment down that is not sound. -/
theorem Content.rejects_unsound {h : ProgramHeader} (hu : file.used e i = some h)
    (hl : h.type = ELF_PROG_LOAD) (hns : ¬ Sound h) : ¬ file.Accepts e i ∧ file.FitsAt e i := by
  constructor
  · rintro ⟨h', hu', hall⟩
    obtain rfl : h = h' := Option.some.inj (hu.symm.trans hu')
    exact hns (hall hl).1
  · intro h' hu' _ hs
    obtain rfl : h = h' := Option.some.inj (hu.symm.trans hu')
    exact absurd hs hns

/-- A header that is not one of a segment is passed over. -/
theorem Content.accepts_skip {h : ProgramHeader} (hu : file.used e i = some h)
    (hl : h.type ≠ ELF_PROG_LOAD) : file.Accepts e i ∧ file.FitsAt e i := by
  refine ⟨⟨h, hu, fun hl' ↦ absurd hl' hl⟩, fun h' hu' hl' ↦ ?_⟩
  obtain rfl : h = h' := Option.some.inj (hu.symm.trans hu')
  exact absurd hl' hl

/-- What is known of the rounds up to one. -/
theorem Content.accepts_succ (hacc : ∀ j < i, file.Accepts e j ∧ file.FitsAt e j)
    (h : file.Accepts e i ∧ file.FitsAt e i) :
    ∀ j < i + 1, file.Accepts e j ∧ file.FitsAt e j := by
  intro j hj
  by_cases heq : j = i
  · rw [heq]
    exact h
  · exact hacc j (by omega)

/-- A header that is turned down ends the run, and then the file fits. -/
theorem Built.reject (hF : F.Serves ok path ip file)
    (hb : Built kernel tables taken s old ok file e N i pageTable size k) {j : Nat}
    (hj : j < e.phnum.toNat) (hacc : ∀ i < j, file.Accepts e i ∧ file.FitsAt e i)
    (hrej : ¬ file.Accepts e j ∧ file.FitsAt e j)
    (hbad : ∀ k', file.Fits e → (¬ ∀ j < e.phnum.toNat, file.Accepts e j) → Q (-1) k') :
    Ensures (regime C) (Elf.bad (rest F trampoline trapFrame) pageTable (some ip)) k Q := by
  refine (hb.bad hF).imp fun r k' hr ↦ ?_
  rw [hr]
  exact hbad k' (Content.Fits.of_reject hj hrej.1 hacc hrej.2) fun hall ↦ hrej.1 (hall j hj)

/-- The round of a segment that is sound: its pages are added to the image and filled. -/
theorem Built.segment (hF : F.Serves ok path ip file) (hi : i < e.phnum.toNat)
    (hb : Built kernel tables taken s old ok file e N i pageTable size k)
    (hsize : size.toNat = file.imageEnd e i) {h : ProgramHeader} (hu : file.used e i = some h)
    (hl : h.type = ELF_PROG_LOAD) (hs : Sound h) (hC : C → segmentEnd h ≤ TRAPFRAME.toNat)
    (hN : C → file.Supply e N) {next : UInt64 → Handler (World φ) ι UInt64 Int32}
    (hreject : ∀ size k', Built kernel tables taken s old ok file e N i pageTable size k' →
      ¬ file.Accepts e i ∧ file.FitsAt e i →
        Ensures (regime C) (Elf.bad (rest F trampoline trapFrame) pageTable (some ip)) k' Q)
    (hnext : ∀ size k', Built kernel tables taken s old ok file e N (i + 1) pageTable size k' →
      size.toNat = file.imageEnd e (i + 1) → file.Accepts e i ∧ file.FitsAt e i →
        Ensures (regime C) (next size) k' Q) :
    Ensures (regime C) (do
      let size ← enter ((rest F trampoline trapFrame).allocateUserVirtualMemory pageTable size
        (h.vaddr + h.memsz) (Elf.flagsToPerm h.flags))
      if size = 0 then
        Elf.bad (rest F trampoline trapFrame) pageTable (some ip)
      else
        let res ← Elf.loadSegment (rest F trampoline trapFrame) pageTable h.vaddr ip h.off h.filesz
          (2 ^ 52 + 1) 0
        if ¬ res then
          Elf.bad (rest F trampoline trapFrame) pageTable (some ip)
        else
          next size) k Q := by
  have hend := Content.imageEnd_load hu hl
  have hdef : segmentEnd h = h.vaddr.toNat + h.memsz.toNat := rfl
  refine hb.allocate (flagsToPerm_low _) (flagsToPerm_user _) (fun hc ↦ ?_) (fun hc htop ↦ ?_)
    fun r k₁ htop hr hb₁ hzero ↦ ?_
  · rw [hs.end_eq]
    exact hC hc
  · rw [hs.end_eq] at htop
    have himage := pageCount_le_iff.mp hb.loading.shape.1
    refine (pagesFor_mono ?_).trans (hN hc (i + 1) hi (by omega))
    have hcount : pageCount (h.vaddr + h.memsz) = ((h.vaddr + h.memsz).toNat + 4095) / 4096 := rfl
    rw [hs.end_eq] at hcount
    omega
  · rw [hs.end_eq] at htop hr
    have hfit : file.FitsAt e i := fun h' hu' _ _ ↦ by
      obtain rfl : h = h' := Option.some.inj (hu.symm.trans hu')
      exact htop
    have hreach : r.toNat = file.imageEnd e (i + 1) := by omega
    by_cases h0 : r = 0
    · rw [if_pos h0]
      refine hreject r k₁ hb₁ ⟨fun ⟨h', hu', hall⟩ ↦ ?_, hfit⟩
      obtain rfl : h = h' := Option.some.inj (hu.symm.trans hu')
      have hpos := (hall hl).2.1
      rw [← hreach, h0] at hpos
      exact Nat.lt_irrefl 0 hpos
    rw [if_neg h0]
    have hkeep : file.Ordered e → ∀ j < i, ∀ h', file.used e j = some h' →
        h'.type = ELF_PROG_LOAD → segmentEnd h' ≤ h.vaddr.toNat :=
      fun ho j hj h' hu' hl' ↦ ho j i h' h hj hi hu' hu hl' hl
    -- In ascending order the pages of the segment are new ones.
    have hstart : file.Ordered e → file.Filled h 0 pageTable k₁.world.pages := by
      intro ho
      have hlow := ho.imageEnd_le hi hu hl
      have halign := hs.aligned
      refine Content.Filled.start (hzero (UInt64.le_iff_toNat_le.mpr ?_)) ?_ ?_
      · rw [hs.end_eq]
        omega
      · change (size.toNat + 4095) / 4096 ≤ h.vaddr.toNat / 4096
        omega
      · rw [← hs.end_eq]
        exact Nat.le_refl _
    have hfuel : h.filesz.toNat + 4096 ≤ 4096 * (0 + (2 ^ 52 + 1)) := by
      have := h.filesz.toNat_lt
      omega
    refine ensures_bind (hb₁.loadSegment hF hs (by omega) hkeep (by omega) hfuel
      (fun j hj ↦ absurd hj (Nat.not_lt_zero j)) hstart) ?_
    rintro res k₂ ⟨hb₂, hres, hplaced⟩
    by_cases hr₂ : res = true
    · rw [if_neg (not_not.mpr hr₂)]
      refine hnext r k₂ (hb₂.round hu (by omega) fun ho _ ↦ hplaced hr₂ ho) hreach ⟨⟨h, hu, fun _ ↦
        ⟨hs, ?_, hres.mp hr₂⟩⟩, hfit⟩
      rw [← hreach]
      exact Nat.pos_of_ne_zero fun hz ↦ h0 (UInt64.toNat_inj.mp hz)
    · rw [if_pos hr₂]
      refine hreject r k₂ hb₂ ⟨fun ⟨h', hu', hall⟩ ↦ hr₂ (hres.mpr ?_), hfit⟩
      obtain rfl : h = h' := Option.some.inj (hu.symm.trans hu')
      exact (hall hl).2.2

/-- The loop over the program headers from round `i` on. -/
theorem Built.load (hF : F.Serves ok path ip file)
    {next : UInt64 → Handler (World φ) ι UInt64 Int32} {fuel : Nat} (hi : i + fuel = e.phnum.toNat)
    (hb : Built kernel tables taken s old ok file e N i pageTable size k)
    (hsize : size.toNat = file.imageEnd e i)
    (hacc : ∀ j < i, file.Accepts e j ∧ file.FitsAt e j) (hN : C → file.Supply e N)
    (hC : C → file.Fits e)
    (hbad : ∀ k', file.Fits e → (¬ ∀ j < e.phnum.toNat, file.Accepts e j) → Q (-1) k')
    (hnext : ∀ size k',
      Built kernel tables taken s old ok file e N e.phnum.toNat pageTable size k' →
      size.toNat = file.imageEnd e e.phnum.toNat →
      (∀ j < e.phnum.toNat, file.Accepts e j ∧ file.FitsAt e j) →
        Ensures (regime C) (next size) k' Q) :
    Ensures (regime C) (Elf.load (rest F trampoline trapFrame) pageTable ip next fuel
      (e.phoff + 56 * UInt64.ofNat i) size) k Q := by
  induction fuel generalizing k i size with
  | zero =>
    obtain rfl : i = e.phnum.toNat := hi
    exact hnext size k hb hsize hacc
  | succ fuel ih =>
    have hlt : i < e.phnum.toNat := by omega
    unfold Elf.load
    refine hb.call (fun x hx ↦ hF.header _ hx) fun b k₁ hread hb₁ ↦ ?_
    obtain ⟨len, progHeader⟩ := b
    dsimp only at hread ⊢
    rcases hread with ⟨hlen, hu⟩ | ⟨hlen, hu⟩
    · change file.used e i = some progHeader at hu
      rw [if_neg (not_not.mpr hlen), offset_succ]
      by_cases hload : progHeader.type = ELF_PROG_LOAD
      · have hunsound := Content.rejects_unsound hu hload
        rw [if_neg (not_not.mpr hload)]
        by_cases hfile : progHeader.memsz < progHeader.filesz
        · rw [if_pos hfile]
          exact hb₁.reject hF hlt hacc (hunsound fun hs ↦ hs.1 hfile) hbad
        by_cases hwrap : progHeader.vaddr + progHeader.memsz < progHeader.vaddr
        · rw [if_neg hfile, if_pos hwrap]
          exact hb₁.reject hF hlt hacc (hunsound fun hs ↦ hs.2.1 hwrap) hbad
        by_cases hmod : progHeader.vaddr % Syscall.PAGE_SIZE = 0
        · have hs : Sound progHeader := ⟨hfile, hwrap, hmod⟩
          rw [if_neg hfile, if_neg hwrap, if_neg (not_not.mpr hmod)]
          refine hb₁.segment hF hlt hsize hu hload hs (fun hc ↦ ?_) hN
            (fun size k₂ hb₂ hrej ↦ hb₂.reject hF hlt hacc hrej hbad)
            fun size k₂ hb₂ hsize₂ hacc₂ ↦ ?_
          · exact (hC hc).1 i hlt (fun j hj ↦ (hacc j hj).1) _ hu hload hs
          · exact ih (by omega) hb₂ hsize₂ (Content.accepts_succ hacc hacc₂)
        · rw [if_neg hfile, if_neg hwrap, if_pos hmod]
          exact hb₁.reject hF hlt hacc (hunsound fun hs ↦ hmod hs.2.2) hbad
      · have hend := Content.imageEnd_skip hu hload
        rw [if_pos hload]
        exact ih (by omega) (hb₁.round hu (by omega) fun _ hl ↦ absurd hl hload) (by omega)
          (Content.accepts_succ hacc (Content.accepts_skip hu hload))
    · change file.used e i = none at hu
      rw [if_pos hlen]
      exact hb₁.reject hF hlt hacc (Content.rejects_none hu) hbad

/-! ### The stack -/

/-- The segments are in place, and the two pages behind them are the guard page and the stack. -/
structure Stacked (kernel : UInt64) (tables taken : List UInt64) (s : State) (old : UInt64 × UInt64)
    (file : Content) (e : ElfHeader) (pageTable size : UInt64)
    (k : Syscall.Kernel (World φ) ι UInt64) : Prop where
  loading : Loading kernel tables taken s old pageTable size k
  whole : size.toNat % 4096 = 0
  two : file.imageEnd e e.phnum.toNat + 8192 ≤ size.toNat
  guard : u (k.world.pages.raw pageTable (size.toNat / 4096 - 2)) = false
  segments : file.Ordered e → ∀ j < e.phnum.toNat, ∀ h, file.used e j = some h →
    h.type = ELF_PROG_LOAD → file.Segment h pageTable k.world.pages

/-- `exec` has succeeded. -/
structure Done (kernel : UInt64) (taken : List UInt64) (file : Content) (e : ElfHeader)
    (k : Syscall.Kernel (World φ) ι UInt64) : Prop where
  header : file.elfHeader = some e
  space : ∃ free, Space k.world.pages kernel k.world.tables taken free
  mem : k.pageTable ∈ k.world.tables
  shape : k.world.pages.Exact k.pageTable k.memorySize
  whole : k.memorySize.toNat % 4096 = 0
  two : file.imageEnd e e.phnum.toNat + 8192 ≤ k.memorySize.toNat
  guard : u (k.world.pages.raw k.pageTable (k.memorySize.toNat / 4096 - 2)) = false
  accepts : ∀ j < e.phnum.toNat, file.Accepts e j
  segments : file.Ordered e → ∀ j < e.phnum.toNat, ∀ h, file.used e j = some h →
    h.type = ELF_PROG_LOAD → file.Segment h k.pageTable k.world.pages

/-- A write of `exec` to the stack page. -/
theorem Stacked.copyout {β : Type} {Q : β → Syscall.Kernel (World φ) ι UInt64 → Prop}
    (hs : Stacked kernel tables taken s old file e pageTable size k) {dst : UInt64}
    {src : List UInt8} (hdst : ¬ dst < size - PAGE_SIZE)
    {g : Bool → Handler (World φ) ι UInt64 β}
    (hg : ∀ b k', Stacked kernel tables taken s old file e pageTable size k' →
      Ensures (regime C) (g b) k' Q) :
    Ensures (regime C)
      (enter ((rest F trampoline trapFrame).copyout pageTable dst src) >>= g) k Q := by
  have hU := userPages_eq
  have hle := hs.loading.shape.1
  have hcount : pageCount size = (size.toNat + 4095) / 4096 := rfl
  have htwo := hs.two
  obtain ⟨free, hspace⟩ := hs.loading.since.space
  have hends : Ends (fun _ ↦ False)
      (fun w ↦ Wrote kernel k.world.tables taken pageTable k.world.pages w.2)
      (PageTable.copyout pageTable dst src k.world.pages) :=
    PageTable.copyoutFrom_wrote hspace hs.loading.mem
  obtain ⟨r, hr, hwrote⟩ := hends.returns
  have habove := (PageTable.copyoutFrom_above hspace hs.loading.mem).of_ok hr
  have hcall : (rest F trampoline trapFrame).copyout pageTable dst src k.world =
      some (r.1, { k.world with pages := r.2 }) := by
    change onPages (PageTable.copyout pageTable dst src) k.world = _
    rw [onPages, hr]
  refine ensures_enter_bind (fun _ ↦ ⟨_, _, hcall⟩) fun b w hw ↦ ?_
  rw [hcall] at hw
  cases hw
  refine hg r.1 _ ⟨hs.loading.wrote (f := k.world.files) hwrote, hs.whole, htwo, ?_,
    fun ho j hj h hu hl ↦ ?_⟩
  · change u (r.2.raw pageTable _) = false
    rw [hwrote.raw pageTable hs.loading.mem _ (by omega)]
    exact hs.guard
  · have hend := Content.end_le_imageEnd hj hu hl
    have hbase : (size - PAGE_SIZE).toNat = size.toNat - 4096 := by
      have hpage : (PAGE_SIZE).toNat = 4096 := rfl
      rw [UInt64.toNat_sub_of_le _ _ (UInt64.le_iff_toNat_le.mpr (by omega)), hpage]
    have hdst' := UInt64.le_iff_toNat_le.mp (UInt64.not_lt.mp hdst)
    refine (hs.segments ho j hj h hu hl).congr fun n _ hn ↦
      ⟨hwrote.raw pageTable hs.loading.mem n (by omega), ?_⟩
    refine habove n (by omega) ?_ ((hs.loading.shape.2 n (by omega)).mpr (by omega))
    change n < dst.toNat / 4096
    omega

/-- `exec` up to its success. -/
theorem Stacked.finish (hs : Stacked kernel tables taken s old file e pageTable size k)
    (he : file.elfHeader = some e) (hall : ∀ j < e.phnum.toNat, file.Accepts e j) {sp : UInt64}
    {ustack : List UInt64} :
    Ensures (regime C) (Elf.finish (rest F trampoline trapFrame) path pageTable e size sp ustack) k
      fun r k' ↦ r = -1 ∨ r = Int32.ofNat ustack.length ∧ Done kernel taken file e k' := by
  unfold Elf.finish
  dsimp only
  split
  · exact bad_none.imp fun _ _ hr ↦ .inl hr
  · next hbase =>
    refine hs.copyout hbase fun res k₁ hs₁ ↦ ?_
    split
    · exact bad_none.imp fun _ _ hr ↦ .inl hr
    · refine ensures_gets_bind (ensures_modify_bind ?_)
      refine ensures_enter_bind (fun _ ↦ ⟨_, _, rfl⟩) fun _ w hdel ↦ ?_
      cases hdel
      exact ensures_pure (.inr ⟨rfl, he, hs₁.loading.since.space, hs₁.loading.mem,
        hs₁.loading.shape, hs₁.whole, hs₁.two, hs₁.guard, hall, hs₁.segments⟩)

/-- The loop over the arguments. -/
theorem Stacked.pushArgs (hs : Stacked kernel tables taken s old file e pageTable size k)
    (he : file.elfHeader = some e) (hall : ∀ j < e.phnum.toNat, file.Accepts e j) {sp : UInt64}
    {argv : List CString} {ustack : List UInt64} :
    Ensures (regime C) (Elf.pushArgs (rest F trampoline trapFrame) pageTable (size - PAGE_SIZE)
      (Elf.finish (rest F trampoline trapFrame) path pageTable e size) argv sp ustack) k
      fun r k' ↦ r = -1 ∨
        r = Int32.ofNat (ustack.length + argv.length) ∧ Done kernel taken file e k' := by
  induction argv generalizing k sp ustack with
  | nil => exact hs.finish he hall
  | cons arg argv ih =>
    unfold Elf.pushArgs
    split
    · exact bad_none.imp fun _ _ hr ↦ .inl hr
    · dsimp only
      split
      · exact bad_none.imp fun _ _ hr ↦ .inl hr
      · next hbase =>
        refine hs.copyout hbase fun res k₁ hs₁ ↦ ?_
        split
        · exact bad_none.imp fun _ _ hr ↦ .inl hr
        · refine (ih hs₁).imp fun r k' hr ↦ hr.imp_right fun hr ↦ ?_
          rw [List.length_append, List.length_singleton, Nat.add_assoc] at hr
          rw [List.length_cons, Nat.add_comm argv.length]
          exact hr

theorem Built.roundUp (hb : Built kernel tables taken s old ok file e N i pageTable size k) :
    Built kernel tables taken s old ok file e N i pageTable (roundUp size) k := by
  obtain ⟨hup, hcount⟩ := pageCount_roundUp hb.loading.shape.1
  have hdef : pageCount size = (size.toNat + 4095) / 4096 := rfl
  have hreach := hb.reach
  refine ⟨hb.loading.round, hb.served, ?_, ?_, by omega, hb.segments⟩
  · rw [hcount]
    exact hb.stock
  · rw [hcount]
    exact hb.user

/-- The pages of the new image but the guard page are for the user, and have frames. -/
def State.Unguarded (s : State) (pageTable size : UInt64) : Prop :=
  ∀ n < pageCount size, n ≠ size.toNat / 4096 - 2 →
    u (s.raw pageTable n) = true ∧ toPhysicalAddress (s.raw pageTable n) ≠ 0

/-- `clearUserVirtualMemory` on the guard page. -/
theorem Built.clear {β : Type} {Q : β → Syscall.Kernel (World φ) ι UInt64 → Prop}
    (hb : Built kernel tables taken s old ok file e N e.phnum.toNat pageTable size k)
    (hwhole : size.toNat % 4096 = 0) (htwo : file.imageEnd e e.phnum.toNat + 8192 ≤ size.toNat)
    {g : Unit → Handler (World φ) ι UInt64 β}
    (hg : ∀ k', Stacked kernel tables taken s old file e pageTable size k' →
      k'.world.pages.Unguarded pageTable size → Ensures (regime C) (g ()) k' Q) :
    Ensures (regime C) (enter ((rest F trampoline trapFrame).clearUserVirtualMemory pageTable
      (size - PAGE_SIZE * 2)) >>= g) k Q := by
  have hU := userPages_eq
  have hle := hb.loading.shape.1
  have hcount : pageCount size = (size.toNat + 4095) / 4096 := rfl
  have hguard : (size - PAGE_SIZE * 2).toNat = size.toNat - 8192 := by
    have hpages : (PAGE_SIZE * 2).toNat = 8192 := rfl
    rw [UInt64.toNat_sub_of_le _ _ (UInt64.le_iff_toNat_le.mpr (by omega)), hpages]
  have hpage : page (size - PAGE_SIZE * 2) = size.toNat / 4096 - 2 := by
    change (size - PAGE_SIZE * 2).toNat / 4096 = _
    omega
  obtain ⟨free, hspace⟩ := hb.loading.since.space
  obtain ⟨t, ht, -, -, -, hmem, hraw, hu⟩ := (clearUserVirtualMemory_ends hspace hb.loading.mem
    (show page (size - PAGE_SIZE * 2) < userPages by omega)
    (hb.loading.shape.whole.2 _ (by omega))).returns
  have hcall : (rest F trampoline trapFrame).clearUserVirtualMemory pageTable
      (size - PAGE_SIZE * 2) k.world = some ((), { k.world with pages := t }) := by
    change onPages (fun s ↦ (clearUserVirtualMemory pageTable _ s).map ((), ·)) k.world = _
    rw [onPages, ht]
    rfl
  refine ensures_enter_bind (fun _ ↦ ⟨_, _, hcall⟩) fun _ w hw ↦ ?_
  have hloading := hb.loading.clear (by omega) hw
  rw [hcall] at hw
  cases hw
  rw [hpage] at hraw hu
  refine hg _ ⟨hloading, hwhole, htwo, hu, fun ho j hj h hused hl ↦ ?_⟩ fun n hn hne ↦ ?_
  · have hend := Content.end_le_imageEnd hj hused hl
    refine (hb.segments ho j hj h hused hl).congr fun n _ hn ↦ ⟨hraw n (by omega) (by omega), ?_⟩
    exact hmem _ (.inr ⟨pageTable, hb.loading.mem, n, by omega,
      (hb.loading.shape.2 n (by omega)).mpr (by omega), rfl⟩)
  · change u (t.raw pageTable n) = true ∧ toPhysicalAddress (t.raw pageTable n) ≠ 0
    rw [hraw n (by omega) hne]
    exact hb.user n hn

/-- `exec` from the end of its file operation on. It comes to the arguments only if the file
fits. -/
theorem Built.buildStack {argv : List CString}
    (hb : Built kernel tables taken s old ok file e N e.phnum.toNat pageTable size k)
    (hsize : size.toNat = file.imageEnd e e.phnum.toNat)
    (hacc : ∀ j < e.phnum.toNat, file.Accepts e j ∧ file.FitsAt e j) (hN : C → file.Supply e N)
    (hC : C → file.Fits e)
    (hnext : ∀ size k', Stacked kernel tables taken s old file e pageTable size k' →
      k'.world.pages.Unguarded pageTable size → file.Fits e →
        Ensures (regime C) (Elf.pushArgs (rest F trampoline trapFrame) pageTable (size - PAGE_SIZE)
          (Elf.finish (rest F trampoline trapFrame) path pageTable e size) argv size []) k' Q) :
    Ensures (regime C) (Elf.buildStack (rest F trampoline trapFrame) path pageTable e argv size) k
      Q := by
  have hU := userPages_eq
  have hle := hb.loading.shape.1
  have htop := pageCount_le_iff.mp hle
  have hcount : pageCount size = (size.toNat + 4095) / 4096 := rfl
  obtain ⟨hup, -⟩ := pageCount_roundUp hle
  have htwo : (VirtualAddress.roundUp size + PAGE_SIZE * 2).toNat =
      4096 * (pageCount size + 2) := by
    have hpages : (PAGE_SIZE * 2).toNat = 8192 := rfl
    rw [UInt64.toNat_add, hup, hpages]
    omega
  have hlimit : TRAPFRAME.toNat = 2 ^ 38 - 8192 := rfl
  unfold Elf.buildStack
  change Ensures (regime C) (enter ((rest F trampoline trapFrame).allocateUserVirtualMemory
    pageTable (VirtualAddress.roundUp size) (VirtualAddress.roundUp size + PAGE_SIZE * 2) 4) >>= _)
    k _
  refine hb.roundUp.allocate (by decide) (by decide) (fun hc ↦ ?_) (fun hc _ ↦ ?_)
    fun allocSize k₁ hfit hr hb₁ _ ↦ ?_
  · have := (hC hc).2 fun j hj ↦ (hacc j hj).1
    omega
  · have hnew : pageCount (VirtualAddress.roundUp size + PAGE_SIZE * 2) =
        (file.imageEnd e e.phnum.toNat + 4095) / 4096 + 2 := by
      change ((VirtualAddress.roundUp size + PAGE_SIZE * 2).toNat + 4095) / 4096 = _
      omega
    rw [hnew]
    exact hN hc _ (Nat.le_refl _) (by omega)
  · have hfits : file.Fits e := ⟨fun j hj _ ↦ (hacc j hj).2, fun _ ↦ by omega⟩
    split
    · next h0 =>
      rw [h0] at hr
      have hzero : (0 : UInt64).toNat = 0 := rfl
      omega
    · exact hb₁.clear (by omega) (by omega) fun k₂ hs hunguarded ↦ hnext _ k₂ hs hunguarded hfits

/-- `exec` up to the arguments. It fails before them if and only if it does not load the file. -/
theorem Files.Serves.exec_loads {free : List UInt64} {argv : List CString}
    (hF : F.Serves ok path ip file) (hok : ok k.world.files)
    (h : Space k.world.pages kernel k.world.tables taken free) (hC : C → file.Mappable)
    (hN : C → file.Enough free.length)
    (hbad : ∀ k', file.Mappable → ¬ file.Loads → Q (-1) k')
    (hnext : ∀ e pageTable size k', Stacked kernel k.world.tables taken k.world.pages
        (k.pageTable, k.memorySize) file e pageTable size k' →
      k'.world.pages.Unguarded pageTable size → file.Mappable → file.LoadsAs e →
        Ensures (regime C) (Elf.pushArgs (rest F trampoline trapFrame) pageTable (size - PAGE_SIZE)
          (Elf.finish (rest F trampoline trapFrame) path pageTable e size) argv size []) k' Q) :
    Ensures (regime C) (Elf.exec (rest F trampoline trapFrame) path argv) k Q := by
  unfold Elf.exec
  refine ensures_modify_bind ?_
  obtain ⟨x₁, hopen, hok₁⟩ := hF.openPath _ hok
  have hcall₁ : onFiles (F.openPath path) k.world =
      some (some ip, { k.world with files := x₁ }) := by
    rw [onFiles, hopen]
    rfl
  refine ensures_enter_bind (fun _ ↦ ⟨_, _, hcall₁⟩) fun found w hw ↦ ?_
  cases hcall₁.symm.trans hw
  obtain ⟨x₂, hlock, hok₂⟩ := hF.lock _ hok₁
  have hcall₂ : onFiles (F.lock ip) { k.world with files := x₁ } =
      some ((), { k.world with files := x₂ }) := by
    rw [onFiles, hlock]
    rfl
  refine ensures_enter_bind (fun _ ↦ ⟨_, _, hcall₂⟩) fun _ w hw ↦ ?_
  cases hcall₂.symm.trans hw
  have hends : Ends _ _ (makePageTable trampoline trapFrame k.world.pages) := makePageTable_takes h
  refine ensures_enter_bind (fun hc ↦ ?_) fun pageTable w hmake ↦ ?_
  · cases hm : makePageTable trampoline trapFrame k.world.pages with
    | ok r =>
      refine ⟨r.1, ⟨r.2, r.1 :: k.world.tables, x₂⟩, ?_⟩
      change (onPages (makePageTable trampoline trapFrame) { k.world with files := x₂ }).map _ = _
      rw [onPages, hm]
      rfl
    | error err =>
      obtain ⟨-, hshort⟩ := hends.of_error hm
      have := (hN hc).1
      omega
  obtain ⟨t, ht, rfl⟩ := rest_makePageTable hmake
  obtain ⟨hnew, hsince, hnone, free₁, hfree₁, hlen⟩ := hends.of_ok ht
  obtain ⟨free₂, hspace⟩ := hsince.space
  obtain rfl : free₁ = free₂ := hfree₁.linked.unique hspace.wf.pages.linked
  have hzero : pageCount 0 = 0 := rfl
  -- The image is empty, whatever the headers are.
  have hbuilt : ∀ e, Built kernel k.world.tables taken k.world.pages (k.pageTable, k.memorySize) ok
      file e (free.length - 3) 0 pageTable 0 { k with
        world := ⟨t, pageTable :: k.world.tables, x₂⟩
        begun := k.begun + 1
        outstanding := k.outstanding + 1 } := by
    refine fun e ↦ ⟨⟨hsince, List.mem_cons_self, hnew, ⟨Nat.zero_le _, fun n hn ↦ ?_⟩, rfl⟩, hok₂,
      ⟨free₁, hspace, by omega⟩, fun n hn ↦ ?_, Nat.zero_le _, fun _ j hj ↦ ?_⟩
    · change v (t.raw pageTable n) = true ↔ n < 0
      rw [hnone n hn]
      simp
    · rw [hzero] at hn
      exact absurd hn (Nat.not_lt_zero n)
    · exact absurd hj (Nat.not_lt_zero j)
  obtain ⟨b, x₃, hread, hok₃, hheader⟩ := hF.elfHeader hok₂
  have hcall₃ : onFiles (F.readElfHeader ip 0) ⟨t, pageTable :: k.world.tables, x₂⟩ =
      some (b, ⟨t, pageTable :: k.world.tables, x₃⟩) := by
    rw [onFiles, hread]
    rfl
  refine ensures_enter_bind (fun _ ↦ ⟨_, _, hcall₃⟩) fun _ w hw ↦ ?_
  cases hcall₃.symm.trans hw
  have hb₁ := fun e ↦
    ({ hbuilt e with loading := (hbuilt e).loading.files hcall₃, served := hok₃ } :
      Built kernel k.world.tables taken k.world.pages (k.pageTable, k.memorySize) ok file e
        (free.length - 3) 0 pageTable 0 _)
  obtain ⟨len, elfHeader⟩ := b
  dsimp only at hheader ⊢
  rcases hheader with ⟨hlen64, he⟩ | ⟨hlen64, he⟩
  · rw [if_neg (not_not.mpr hlen64)]
    by_cases hmagic : elfHeader.magic = ELF_MAGIC
    · rw [if_neg (not_not.mpr hmagic)]
      have hmap : file.Fits elfHeader → file.Mappable := fun hfits e' he' _ ↦ by
        obtain rfl : elfHeader = e' := Option.some.inj (he.symm.trans he')
        exact hfits
      have hfirst : elfHeader.phoff + 56 * UInt64.ofNat 0 = elfHeader.phoff := by
        rw [show UInt64.ofNat 0 = 0 from rfl, UInt64.mul_zero, UInt64.add_zero]
      rw [← hfirst]
      refine (hb₁ elfHeader).load hF (Nat.zero_add _) rfl (fun j hj ↦ absurd hj (Nat.not_lt_zero j))
        (fun hc ↦ (hN hc).2 _ he hmagic) (fun hc ↦ hC hc _ he hmagic)
        (fun k' hfits hrej ↦ hbad k' (hmap hfits) fun hok ↦ hrej ?_)
        fun size k₁ hb hsize hacc ↦ ?_
      · obtain ⟨e', he', -, hall⟩ := hok
        obtain rfl : elfHeader = e' := Option.some.inj (he.symm.trans he')
        exact hall
      refine hb.call (P := fun _ ↦ True) (fun x hx ↦ ?_) fun _ k₂ _ hb₂ ↦ ?_
      · obtain ⟨y, hy, hok'⟩ := hF.unlock x hx
        exact ⟨(), y, hy, hok', trivial⟩
      refine hb₂.call (P := fun _ ↦ True) (fun x hx ↦ ?_) fun _ k₃ _ hb₃ ↦ ?_
      · obtain ⟨y, hy, hok'⟩ := hF.put x hx
        exact ⟨(), y, hy, hok', trivial⟩
      refine ensures_modify_bind ?_
      exact Built.buildStack { hb₃ with loading := hb₃.loading.ended } hsize hacc
        (fun hc ↦ (hN hc).2 _ he hmagic) (fun hc ↦ hC hc _ he hmagic)
        fun size k' hs hunguarded hfits ↦ hnext elfHeader _ size k' hs hunguarded (hmap hfits)
          ⟨he, hmagic, fun j hj ↦ (hacc j hj).1⟩
    · rw [if_pos hmagic]
      refine ((hb₁ elfHeader).bad hF).imp fun r k' hr ↦ ?_
      rw [hr]
      have hnot : ∀ e', file.elfHeader = some e' → e'.magic ≠ ELF_MAGIC := by
        intro e' he' hm
        obtain rfl : elfHeader = e' := Option.some.inj (he.symm.trans he')
        exact absurd hm hmagic
      exact hbad k' (fun e' he' hm ↦ absurd hm (hnot e' he')) fun hok ↦
        hok.elim fun e' he' ↦ hnot e' he'.1 he'.2.1
  · rw [if_pos hlen64]
    refine ((hb₁ elfHeader).bad hF).imp fun r k' hr ↦ ?_
    rw [hr]
    have hnone : ∀ e', file.elfHeader ≠ some e' := by
      intro e' he'
      rw [he] at he'
      cases he'
    exact hbad k' (fun e' he' ↦ absurd he' (hnone e')) fun hok ↦
      hok.elim fun e' he' ↦ hnone e' he'.1

/-- `exec` returns if the segments that it maps fit and there are pages enough, and only if they
fit. -/
theorem Files.Serves.exec {free : List UInt64} {argv : List CString}
    (hF : F.Serves ok path ip file) (hok : ok k.world.files)
    (h : Space k.world.pages kernel k.world.tables taken free) (hC : C → file.Mappable)
    (hN : C → file.Enough free.length) :
    Ensures (regime C) (Elf.exec (rest F trampoline trapFrame) path argv) k fun r k' ↦
      file.Mappable ∧ (r = -1 ∨
        r = Int32.ofNat argv.length ∧ ∃ e, Done kernel taken file e k') := by
  refine hF.exec_loads hok h hC hN (fun k' hmap _ ↦ ⟨hmap, .inl rfl⟩)
    fun e pageTable size k' hs _ hmap hall ↦ ?_
  refine (hs.pushArgs hall.1 hall.2.2).imp fun r k' hr ↦ ⟨hmap, ?_⟩
  rw [List.length_nil, Nat.zero_add] at hr
  exact hr.imp_right fun hdone ↦ ⟨hdone.1, e, hdone.2⟩

end

end Orfos.Memory
