import Orfos.Memory.Content
import Orfos.Memory.Image

/-!
# What exec loads

The rounds of `exec` over the program headers of a file: which headers it reads, which of them
it turns down, how far the image reaches, and what is in the pages of a segment. From round to
round the image in the new table is the one of the headers read so far.
-/

namespace Orfos.Memory

open Orfos.Base Orfos.Base.Traced Orfos.Syscall PageTableEntry VirtualAddress

variable {φ ι α : Type}

/-! ### Program headers -/

/-- The address behind a segment. -/
def segmentEnd (h : ProgramHeader) : Nat := h.vaddr.toNat + h.memsz.toNat

/-- The checks of `exec` on a segment. -/
def Sound (h : ProgramHeader) : Prop :=
  ¬ h.memsz < h.filesz ∧ ¬ h.vaddr + h.memsz < h.vaddr ∧ h.vaddr % Syscall.PAGE_SIZE = 0

instance (h : ProgramHeader) : Decidable (Sound h) := inferInstanceAs (Decidable (_ ∧ _ ∧ _))

namespace Content

variable (file : Content) (e : ElfHeader)

/-- The program header of round `i`. -/
def used (i : Nat) : Option ProgramHeader :=
  file.programHeader (e.phoff + 56 * UInt64.ofNat i).toUInt32.toNat

/-- The end of the image of the first `i` program headers. -/
def imageEnd : Nat → Nat
  | 0 => 0
  | i + 1 =>
    match file.used e i with
    | some h => if h.type = ELF_PROG_LOAD then max (imageEnd i) (segmentEnd h) else imageEnd i
    | none => imageEnd i

/-- The offset of page `j` of a segment, as `exec` passes it to `Inode::read`. -/
def offsetOf (h : ProgramHeader) (j : Nat) : UInt32 := (h.off + UInt64.ofNat (4096 * j)).toUInt32

/-- The file has the bytes of page `j` of a segment. -/
def HasPage (h : ProgramHeader) (j : Nat) : Prop :=
  (offsetOf h j).toNat + min 4096 (h.filesz.toNat - 4096 * j) ≤ file.size.toNat

/-- The file has the bytes of a segment. -/
def Contains (h : ProgramHeader) : Prop :=
  ∀ j, 4096 * j < h.filesz.toNat → file.HasPage h j

/-- `exec` does not turn the program header of round `i` down. -/
def Accepts (i : Nat) : Prop :=
  ∃ h, file.used e i = some h ∧
    (h.type = ELF_PROG_LOAD → Sound h ∧ 0 < file.imageEnd e (i + 1) ∧ file.Contains h)

/-- The segment of round `i`, if there is one, ends at or below `TRAPFRAME`. -/
def FitsAt (i : Nat) : Prop :=
  ∀ h, file.used e i = some h → h.type = ELF_PROG_LOAD → Sound h →
    segmentEnd h ≤ TRAPFRAME.toNat

/-- The segments come in ascending order and do not overlap. -/
def Ordered : Prop :=
  ∀ i j h h', i < j → j < e.phnum.toNat → file.used e i = some h → file.used e j = some h' →
    h.type = ELF_PROG_LOAD → h'.type = ELF_PROG_LOAD → segmentEnd h ≤ h'.vaddr.toNat

/-- Byte `k` of a segment. -/
def loaded (h : ProgramHeader) (k : Nat) : UInt8 :=
  if k < h.filesz.toNat then file.byte ((offsetOf h (k / 4096)).toNat + k % 4096) else 0

/-- The pages of a segment have its flags, and their frames the first `4096 * m` bytes of it. -/
def Filled (h : ProgramHeader) (m : Nat) (table : UInt64) (s : State) : Prop :=
  ∀ n, page h.vaddr ≤ n → n < (segmentEnd h + 4095) / 4096 →
    flags (s.raw table n) = (PTE_R ||| PTE_U ||| Elf.flagsToPerm h.flags).toUInt16 ||| 1 ∧
      ∀ o < 4096, byteAt (s.memory (toPhysicalAddress (s.raw table n))) o =
        if n < page h.vaddr + m then file.loaded h (4096 * n + o - h.vaddr.toNat) else 0

/-- The pages of a segment have its flags, and their frames its bytes. -/
def Segment (h : ProgramHeader) (table : UInt64) (s : State) : Prop :=
  ∀ n, page h.vaddr ≤ n → n < (segmentEnd h + 4095) / 4096 →
    flags (s.raw table n) = (PTE_R ||| PTE_U ||| Elf.flagsToPerm h.flags).toUInt16 ||| 1 ∧
      ∀ o < 4096, byteAt (s.memory (toPhysicalAddress (s.raw table n))) o =
        file.loaded h (4096 * n + o - h.vaddr.toNat)

end Content

section

variable {file : Content} {e : ElfHeader} {h : ProgramHeader} {i j m : Nat} {table : UInt64}
  {s t : State}

theorem Sound.le (hs : Sound h) : h.filesz.toNat ≤ h.memsz.toNat :=
  UInt64.le_iff_toNat_le.mp (UInt64.not_lt.mp hs.1)

theorem Sound.aligned (hs : Sound h) : h.vaddr.toNat % 4096 = 0 := by
  have hmod := congrArg UInt64.toNat hs.2.2
  rw [UInt64.toNat_mod] at hmod
  exact hmod

theorem Sound.end_eq (hs : Sound h) : (h.vaddr + h.memsz).toNat = segmentEnd h := by
  have hle := UInt64.le_iff_toNat_le.mp (UInt64.not_lt.mp hs.2.1)
  have h₁ := h.vaddr.toNat_lt
  have h₂ := h.memsz.toNat_lt
  rw [UInt64.toNat_add] at hle ⊢
  rw [segmentEnd]
  omega

theorem Content.imageEnd_load (hu : file.used e i = some h) (hl : h.type = ELF_PROG_LOAD) :
    file.imageEnd e (i + 1) = max (file.imageEnd e i) (segmentEnd h) := by
  rw [imageEnd, hu]
  exact if_pos hl

theorem Content.imageEnd_skip (hu : file.used e i = some h) (hl : h.type ≠ ELF_PROG_LOAD) :
    file.imageEnd e (i + 1) = file.imageEnd e i := by
  rw [imageEnd, hu]
  exact if_neg hl

theorem Content.imageEnd_mono (hle : i ≤ j) : file.imageEnd e i ≤ file.imageEnd e j := by
  induction hle with
  | refl => exact Nat.le_refl _
  | step _ ih =>
    refine ih.trans ?_
    rw [imageEnd]
    split
    · split
      · exact Nat.le_max_left _ _
      · exact Nat.le_refl _
    · exact Nat.le_refl _

/-- The segments of the rounds before lie in the image. -/
theorem Content.end_le_imageEnd (hij : i < j) (hu : file.used e i = some h)
    (hl : h.type = ELF_PROG_LOAD) : segmentEnd h ≤ file.imageEnd e j := by
  refine le_trans ?_ (imageEnd_mono hij)
  rw [imageEnd_load hu hl]
  exact Nat.le_max_right _ _

/-- The image ends where segments end. -/
theorem Content.imageEnd_le {b : Nat} (hb : ∀ j < i, ∀ h, file.used e j = some h →
    h.type = ELF_PROG_LOAD → segmentEnd h ≤ b) : file.imageEnd e i ≤ b := by
  induction i with
  | zero => exact Nat.zero_le b
  | succ i ih =>
    have hrest := ih fun j hj ↦ hb j (Nat.lt_succ_of_lt hj)
    rw [imageEnd]
    split
    · next h hu =>
      split
      · next hl => exact Nat.max_le.mpr ⟨hrest, hb i (Nat.lt_succ_self i) h hu hl⟩
      · exact hrest
    · exact hrest

/-- In ascending order a segment starts behind the image of the ones before. -/
theorem Content.Ordered.imageEnd_le (ho : file.Ordered e) (hi : i < e.phnum.toNat)
    (hu : file.used e i = some h) (hl : h.type = ELF_PROG_LOAD) :
    file.imageEnd e i ≤ h.vaddr.toNat :=
  Content.imageEnd_le fun j hj h' hu' hl' ↦ ho j i h' h hj hi hu' hu hl' hl

/-- When all the bytes of the file are read, the other bytes of the segment are zero. -/
theorem Content.Filled.segment (hf : file.Filled h m table s) (halign : h.vaddr.toNat % 4096 = 0)
    (hm : h.filesz.toNat ≤ 4096 * m) : file.Segment h table s := by
  intro n h₁ h₂
  obtain ⟨hflags, hbytes⟩ := hf n h₁ h₂
  refine ⟨hflags, fun o ho ↦ ?_⟩
  rw [hbytes o ho]
  split
  · rfl
  · next hn =>
    have hpage : page h.vaddr = h.vaddr.toNat / 4096 := rfl
    rw [loaded, if_neg (by omega)]

/-- The frame of a page and its entry are all that a segment depends on. -/
theorem Content.Segment.congr (hs : file.Segment h table s)
    (hsame : ∀ n, page h.vaddr ≤ n → n < (segmentEnd h + 4095) / 4096 →
      t.raw table n = s.raw table n ∧ t.memory (toPhysicalAddress (s.raw table n)) =
        s.memory (toPhysicalAddress (s.raw table n))) : file.Segment h table t := by
  intro n h₁ h₂
  obtain ⟨hraw, hmem⟩ := hsame n h₁ h₂
  rw [hraw, hmem]
  exact hs n h₁ h₂

/-- New pages hold nothing of the file yet. -/
theorem Content.Filled.start {lo hi : Nat}
    (hz : s.Zeroed table (PTE_R ||| PTE_U ||| Elf.flagsToPerm h.flags).toUInt16 lo hi)
    (hlo : lo ≤ page h.vaddr) (hhi : (segmentEnd h + 4095) / 4096 ≤ hi) :
    file.Filled h 0 table s := by
  intro n h₁ h₂
  obtain ⟨hflags, hzero⟩ := hz n (by omega) (by omega)
  refine ⟨hflags, fun o _ ↦ ?_⟩
  rw [hzero, if_neg (by omega), byteAt]
  split <;> rfl

end

/-! ### Rounds -/

/-- `exec` has built an image in a new table in which the first `i` segments are in place. `N`
pages are enough for it and for what is still free. -/
structure Built (kernel : UInt64) (tables taken : List UInt64) (s : State) (old : UInt64 × UInt64)
    (ok : φ → Prop) (file : Content) (e : ElfHeader) (N i : Nat) (pageTable size : UInt64)
    (k : Syscall.Kernel (World φ) ι UInt64) : Prop where
  loading : Loading kernel tables taken s old pageTable size k
  served : ok k.world.files
  stock : ∃ free, Space k.world.pages kernel k.world.tables taken free ∧
    N ≤ free.length + pagesFor (pageCount size)
  user : ∀ n < pageCount size, u (k.world.pages.raw pageTable n) = true ∧
    toPhysicalAddress (k.world.pages.raw pageTable n) ≠ 0
  reach : file.imageEnd e i ≤ size.toNat
  segments : file.Ordered e → ∀ j < i, ∀ h, file.used e j = some h → h.type = ELF_PROG_LOAD →
    file.Segment h pageTable k.world.pages

section

variable {kernel pageTable size trampoline trapFrame : UInt64} {tables taken : List UInt64}
  {s : State} {old : UInt64 × UInt64} {ok : φ → Prop} {file : Content} {e : ElfHeader}
  {N i : Nat} {k : Syscall.Kernel (World φ) ι UInt64} {F : Files φ ι} {C : Prop}
  {Q : α → Syscall.Kernel (World φ) ι UInt64 → Prop} {path : CString} {ip : ι}

/-- A call of the file system. -/
theorem Built.call {β : Type} (hb : Built kernel tables taken s old ok file e N i pageTable size k)
    {f : Syscall.Op φ β} {P : β → Prop} {g : β → Handler (World φ) ι UInt64 α}
    (hf : ∀ x, ok x → ∃ b y, f x = some (b, y) ∧ ok y ∧ P b)
    (hg : ∀ b k', P b → Built kernel tables taken s old ok file e N i pageTable size k' →
      Ensures (regime C) (g b) k' Q) :
    Ensures (regime C) (enter (onFiles f) >>= g) k Q := by
  obtain ⟨b, y, hy, hok, hP⟩ := hf _ hb.served
  have hcall : onFiles f k.world = some (b, { k.world with files := y }) := by
    rw [onFiles, hy]
    rfl
  refine ensures_enter_bind (fun _ ↦ ⟨_, _, hcall⟩) fun b' w hw ↦ ?_
  rw [hcall] at hw
  cases hw
  exact hg b _ hP { hb with loading := hb.loading.files hcall, served := hok }

/-- The lambda `bad`. -/
theorem Built.bad (hb : Built kernel tables taken s old ok file e N i pageTable size k)
    (hF : F.Serves ok path ip file) :
    Ensures (regime C) (Elf.bad (rest F trampoline trapFrame) pageTable (some ip)) k
      fun r _ ↦ r = -1 := by
  refine ensures_enter_bind (fun _ ↦ ⟨_, _, rfl⟩) fun _ w hw ↦ ?_
  cases hw
  refine hb.call (P := fun _ ↦ True) (fun x hx ↦ ?_) fun _ k₁ _ hb₁ ↦ ?_
  · obtain ⟨y, hy, hok⟩ := hF.unlock x hx
    exact ⟨(), y, hy, hok, trivial⟩
  refine hb₁.call (P := fun _ ↦ True) (fun x hx ↦ ?_) fun _ k₂ _ _ ↦ ?_
  · obtain ⟨y, hy, hok⟩ := hF.put x hx
    exact ⟨(), y, hy, hok, trivial⟩
  exact ensures_modify_bind (ensures_pure rfl)

theorem bad_none : Ensures (regime C) (Elf.bad (rest F trampoline trapFrame) pageTable none) k
    fun r _ ↦ r = -1 := by
  refine ensures_enter_bind (fun _ ↦ ⟨_, _, rfl⟩) fun _ w hw ↦ ?_
  exact ensures_pure rfl

theorem pageCount_le_iff {a : UInt64} : pageCount a ≤ userPages ↔ a.toNat ≤ TRAPFRAME.toNat := by
  have hU := userPages_eq
  have htop : TRAPFRAME.toNat = 2 ^ 38 - 8192 := rfl
  have hcount : pageCount a = (a.toNat + 4095) / 4096 := rfl
  omega

/-- The pages of the image before its end are there. -/
theorem Loading.next (h : Loading kernel tables taken s old pageTable size k) :
    k.world.pages.Next pageTable (pageCount size) := by
  have hle := h.shape.1
  by_cases h0 : pageCount size = 0
  · exact .inl h0
  · exact .inr ((h.shape.2 _ (by omega)).mpr (by omega))

theorem Loading.clear_above (h : Loading kernel tables taken s old pageTable size k) {hi : Nat}
    (hhi : hi ≤ userPages) : k.world.pages.Clear pageTable (pageCount size) hi := by
  refine ⟨hhi, fun n h₁ h₂ ↦ ?_⟩
  rw [← Bool.not_eq_true, h.shape.2 n (by omega)]
  omega

/-- What mapping more pages leaves of the segments that are in place. -/
theorem Built.extended (hb : Built kernel tables taken s old ok file e N i pageTable size k)
    {t : State} {hi : Nat} {free free' : List UInt64}
    (hx : Extends kernel k.world.tables taken pageTable (pageCount size) hi k.world.pages t
      free free') (ho : file.Ordered e) {j : Nat} (hj : j < i) {h : ProgramHeader}
    (hu : file.used e j = some h) (hl : h.type = ELF_PROG_LOAD) : file.Segment h pageTable t := by
  have hU := userPages_eq
  have hle := hb.loading.shape.1
  have hend := (Content.end_le_imageEnd hj hu hl).trans hb.reach
  have hcount : pageCount size = (size.toNat + 4095) / 4096 := rfl
  refine (hb.segments ho j hj h hu hl).congr fun n _ hn ↦ ⟨?_, ?_⟩
  · exact hx.raw pageTable hb.loading.mem n (by omega) (by omega)
  · exact hx.memory _ (.inr ⟨pageTable, hb.loading.mem, n, by omega,
      (hb.loading.shape.2 n (by omega)).mpr (by omega), rfl⟩)

/-- `allocateUserVirtualMemory` on the new table. It returns if and only if the image ends at or
below `TRAPFRAME`. -/
theorem Built.allocate (hb : Built kernel tables taken s old ok file e N i pageTable size k)
    {newSize xperm : UInt64} {g : UInt64 → Handler (World φ) ι UInt64 α}
    (hperm : (PTE_R ||| PTE_U ||| xperm).toUInt16.toNat < 1024)
    (huser : ((PTE_R ||| PTE_U ||| xperm).toUInt16 ||| 1) &&& 16 ≠ 0)
    (hC : C → newSize.toNat ≤ TRAPFRAME.toNat)
    (hN : C → newSize.toNat ≤ TRAPFRAME.toNat → pagesFor (pageCount newSize) ≤ N)
    (hg : ∀ r k', newSize.toNat ≤ TRAPFRAME.toNat → r.toNat = max size.toNat newSize.toNat →
      Built kernel tables taken s old ok file e N i pageTable r k' →
      (size ≤ newSize → k'.world.pages.Zeroed pageTable (PTE_R ||| PTE_U ||| xperm).toUInt16
        (pageCount size) (pageCount newSize)) → Ensures (regime C) (g r) k' Q) :
    Ensures (regime C) (enter ((rest F trampoline trapFrame).allocateUserVirtualMemory pageTable
      size newSize xperm) >>= g) k Q := by
  have hU := userPages_eq
  have hle := hb.loading.shape.1
  have hcount : pageCount size = (size.toNat + 4095) / 4096 := rfl
  by_cases hlt : newSize < size
  · have hsmall : newSize.toNat < size.toNat := UInt64.lt_iff_toNat_lt.mp hlt
    have hcall : onPages (allocateUserVirtualMemory pageTable size newSize xperm) k.world =
        some (size, k.world) := by
      rw [onPages, allocateUserVirtualMemory, if_pos hlt]
    refine ensures_enter_bind (fun _ ↦ ⟨_, _, hcall⟩) fun r w hw ↦ ?_
    have hw' : onPages (allocateUserVirtualMemory pageTable size newSize xperm) k.world =
      some (r, w) := hw
    rw [hcall] at hw'
    cases hw'
    refine hg size k (hsmall.le.trans (pageCount_le_iff.mp hle)) (by omega) hb fun hge ↦ ?_
    exact absurd hlt (UInt64.not_lt.mpr hge)
  · have hge : size ≤ newSize := UInt64.not_lt.mp hlt
    have hge' := UInt64.le_iff_toNat_le.mp hge
    obtain ⟨free, hs, hstock⟩ := hb.stock
    have hends := allocateUserVirtualMemory_takes hs hb.loading.mem hperm (by omega) hge
    refine ensures_enter_bind (fun hc ↦ ?_) fun r w hw ↦ ?_
    · have htop := hC hc
      have hneed := hN hc htop
      cases hm : allocateUserVirtualMemory pageTable size newSize xperm k.world.pages with
      | ok r =>
        refine ⟨r.1, { k.world with pages := r.2 }, ?_⟩
        change onPages (allocateUserVirtualMemory pageTable size newSize xperm) k.world = _
        rw [onPages, hm]
      | error err =>
        exfalso
        rcases hends.of_error hm with ⟨-, hshort⟩ | hclear
        · have := hshort hb.loading.next
          omega
        · exact hclear (hb.loading.clear_above (pageCount_le_iff.mpr htop))
    · have hw' : onPages (allocateUserVirtualMemory pageTable size newSize xperm) k.world =
        some (r, w) := hw
      obtain ⟨t, ht, rfl⟩ := onPages_eq_some hw'
      obtain ⟨hr, hmax, free', hext, htook, hzero⟩ := hends.of_ok ht
      change r = newSize at hr
      subst hr
      have htook' := htook hb.loading.next
      have hnew : pageCount r ≤ userPages := by
        have hmono := pageCount_mono hge
        by_cases heq : pageCount size < pageCount r
        · exact hmax heq
        · omega
      refine hg r _ (pageCount_le_iff.mp hnew) (by omega)
        ⟨(hb.loading.allocate hperm hw').1, hb.served, ⟨free', hext.space, by omega⟩,
          fun n hn ↦ ?_, hb.reach.trans hge', fun ho j hj h hu hl ↦ hb.extended hext ho hj hu hl⟩
        fun _ ↦ hzero
      by_cases hold : n < pageCount size
      · change u (t.raw pageTable n) = true ∧ toPhysicalAddress (t.raw pageTable n) ≠ 0
        rw [hext.raw pageTable hb.loading.mem n (by omega) (by omega)]
        exact hb.user n hold
      · obtain ⟨-, -, hfree⟩ := hext.fresh n (by omega) hn
        refine ⟨?_, hs.wf.pages.linked.ne_zero hfree⟩
        change u (t.raw pageTable n) = true
        rw [u_flags, (hzero n (by omega) hn).1]
        exact bne_iff_ne.mpr huser

/-- The frame of a page of the image. -/
theorem Built.frame (hb : Built kernel tables taken s old ok file e N i pageTable size k)
    (va : UInt64) (hva : page va < pageCount size) :
    PageTable.walkAddress pageTable va k.world.pages =
      .ok (toPhysicalAddress (k.world.pages.raw pageTable (page va))) := by
  have hU := userPages_eq
  have hle := hb.loading.shape.1
  have hdef : page va = va.toNat / 4096 := rfl
  obtain ⟨free, hs, -⟩ := hb.stock
  have hmax : va < MAX_VIRTUAL_ADDRESS := UInt64.lt_iff_toNat_lt.mpr (by
    change va.toNat < 2 ^ 38
    omega)
  rw [PageTable.walkAddress_eq (hs.aligned hb.loading.mem),
    if_pos ⟨hmax, (hb.loading.shape.2 _ (by omega)).mpr hva, (hb.user _ hva).1⟩]

/-- The frames of different pages of the image are different. -/
theorem Built.frame_ne (hb : Built kernel tables taken s old ok file e N i pageTable size k)
    {n n' : Nat} (hn : n < pageCount size) (hn' : n' < pageCount size) (hne : n ≠ n') :
    toPhysicalAddress (k.world.pages.raw pageTable n) ≠
      toPhysicalAddress (k.world.pages.raw pageTable n') := by
  have hle := hb.loading.shape.1
  obtain ⟨free, hs, -⟩ := hb.stock
  exact fun he ↦ hne (hs.distinct pageTable hb.loading.mem pageTable hb.loading.mem n (by omega)
    n' (by omega) ((hb.loading.shape.2 n (by omega)).mpr hn)
    ((hb.loading.shape.2 n' (by omega)).mpr hn') he).2

/-- A write to the frame of a page behind the segments that are in place. -/
theorem Built.fill (hb : Built kernel tables taken s old ok file e N i pageTable size k) {n : Nat}
    (hn : n < pageCount size) (bytes : List UInt8) {y : φ} (hok : ok y)
    (hkeep : file.Ordered e → ∀ j < i, ∀ h, file.used e j = some h → h.type = ELF_PROG_LOAD →
      (segmentEnd h + 4095) / 4096 ≤ n) :
    Built kernel tables taken s old ok file e N i pageTable size { k with
      world := { k.world with
        pages := k.world.pages.fill (toPhysicalAddress (k.world.pages.raw pageTable n)) 0 bytes
        files := y } } := by
  have hU := userPages_eq
  have hle := hb.loading.shape.1
  have hv := (hb.loading.shape.2 n (by omega)).mpr hn
  have hcount : pageCount size = (size.toNat + 4095) / 4096 := rfl
  obtain ⟨free, hs, hstock⟩ := hb.stock
  obtain ⟨hspace, hraw⟩ := hs.write
    (t := k.world.pages.fill (toPhysicalAddress (k.world.pages.raw pageTable n)) 0 bytes)
    (.inr ⟨pageTable, hb.loading.mem, n, by omega, hv, rfl⟩) rfl fun m hm ↦
      k.world.pages.fill_memory_ne 0 bytes hm
  refine ⟨hb.loading.wrote (hs.filled hb.loading.mem (by omega) hv 0 bytes), hok,
    ⟨free, hspace, hstock⟩, fun n' hn' ↦ ?_, hb.reach, fun ho j hj h hu hl ↦ ?_⟩
  · rw [hraw pageTable hb.loading.mem n' (by omega)]
    exact hb.user n' hn'
  · have hend := (Content.end_le_imageEnd hj hu hl).trans hb.reach
    have hlow := hkeep ho j hj h hu hl
    refine (hb.segments ho j hj h hu hl).congr fun n' _ hn' ↦
      ⟨hraw pageTable hb.loading.mem n' (by omega), ?_⟩
    exact k.world.pages.fill_memory_ne 0 bytes (hb.frame_ne (by omega) hn (by omega))

theorem ofInt_ofNat {n : Nat} (h : n < 2 ^ 31) : ofInt (Int32.ofNat n) = UInt64.ofNat n := by
  have hint : (Int32.ofNat n).toInt = n := Int32.toInt_ofNat_of_lt h
  have hwide : (Int32.ofNat n).toInt64 = Int64.ofNat n := by
    apply Int64.toInt_inj.mp
    rw [Int32.toInt_toInt64, hint, Int64.toInt_ofNat_of_lt (by omega)]
  rw [ofInt, hwide]
  rfl

/-- The next page of a segment is filled. -/
theorem Content.Filled.next {h : ProgramHeader} {m : Nat} {t : State}
    (hf : file.Filled h m pageTable t) (halign : h.vaddr.toNat % 4096 = 0)
    (hother : ∀ n, page h.vaddr ≤ n → n < (segmentEnd h + 4095) / 4096 →
      n ≠ page h.vaddr + m → toPhysicalAddress (t.raw pageTable n) ≠
        toPhysicalAddress (t.raw pageTable (page h.vaddr + m)))
    {w : State} (hraw : ∀ n, n < (segmentEnd h + 4095) / 4096 →
      w.raw pageTable n = t.raw pageTable n)
    (hw : w.memory = (t.fill (toPhysicalAddress (t.raw pageTable (page h.vaddr + m))) 0
      (file.bytes (offsetOf h m).toNat (min 4096 (h.filesz.toNat - 4096 * m)))).memory) :
    file.Filled h (m + 1) pageTable w := by
  intro n h₁ h₂
  obtain ⟨hflags, hbytes⟩ := hf n h₁ h₂
  have hpage : page h.vaddr = h.vaddr.toNat / 4096 := rfl
  rw [hraw n h₂]
  refine ⟨hflags, fun o ho ↦ ?_⟩
  by_cases hn : n = page h.vaddr + m
  · have hold := hbytes o ho
    rw [hn, if_neg (by omega)] at hold
    have hk : 4096 * n + o - h.vaddr.toNat = 4096 * m + o := by omega
    rw [if_pos (by omega), hk, hw, hn, State.fill, State.setPage_memory, Function.update_self,
      byteAt_putBytes _ _ _ _ _ ho, length_bytes, hold, Nat.sub_zero, loaded,
      show (4096 * m + o) / 4096 = m by omega, show (4096 * m + o) % 4096 = o by omega]
    by_cases hin : 4096 * m + o < h.filesz.toNat
    · rw [if_pos hin, if_pos (by omega), List.getD_eq_getElem?_getD, bytes_getElem? (by omega)]
      rfl
    · rw [if_neg hin, if_neg (by omega)]
  · have hsame : w.memory (toPhysicalAddress (t.raw pageTable n)) =
        t.memory (toPhysicalAddress (t.raw pageTable n)) := by
      rw [hw, State.fill_memory_ne t 0 _ (hother n h₁ h₂ hn)]
    rw [hsame, hbytes o ho]
    by_cases hlt : n < page h.vaddr + m
    · rw [if_pos hlt, if_pos (by omega)]
    · rw [if_neg hlt, if_neg (by omega)]

/-- `Inode::read` to a page. -/
theorem Files.Serves.readPage (hF : F.Serves ok path ip file) {w : World φ} (hok : ok w.files)
    (pa : UInt64) (offset length : UInt32) :
    ∃ y, ok y ∧ readPage F ip pa offset length w =
      some (Int32.ofNat (file.available offset length), { w with
        pages := w.pages.fill pa 0 (file.bytes offset.toNat (file.available offset length))
        files := y }) := by
  obtain ⟨y, hy, hread⟩ := hF.read w.files offset length hok
  refine ⟨y, hy, ?_⟩
  rw [Content.read_eq] at hread
  have hle := file.available_le offset length
  rw [Memory.readPage, hread]
  change some _ = some _
  dsimp only
  rw [Content.length_bytes, List.take_of_length_le (by rw [Content.length_bytes]; exact hle)]

/-- How much of a segment `loadSegment` reads to a page. -/
theorem chunk_toNat {a b : UInt64} (h : a < b) :
    (if b - a < Syscall.PAGE_SIZE then b - a else Syscall.PAGE_SIZE).toNat =
      min 4096 (b.toNat - a.toNat) := by
  have hsub := UInt64.toNat_sub_of_le _ _ (UInt64.le_of_lt h)
  have hsize : Syscall.PAGE_SIZE.toNat = 4096 := rfl
  split
  · next hc =>
    have := UInt64.lt_iff_toNat_lt.mp hc
    omega
  · next hc =>
    have := UInt64.le_iff_toNat_le.mp (UInt64.not_lt.mp hc)
    omega

/-- `loadSegment` from page `m` of a segment on. No assertion fails, and it returns whether the file
has the bytes of the segment. -/
theorem Built.loadSegment (hF : F.Serves ok path ip file)
    (hb : Built kernel tables taken s old ok file e N i pageTable size k) {h : ProgramHeader}
    (hs : Sound h) (hend : segmentEnd h ≤ size.toNat)
    (hkeep : file.Ordered e → ∀ j < i, ∀ h', file.used e j = some h' → h'.type = ELF_PROG_LOAD →
      segmentEnd h' ≤ h.vaddr.toNat) {m fuel : Nat}
    (hbound : 4096 * m < h.filesz.toNat + 4096) (hfuel : h.filesz.toNat + 4096 ≤ 4096 * (m + fuel))
    (hread : ∀ j < m, 4096 * j < h.filesz.toNat → file.HasPage h j)
    (hfill : file.Ordered e → file.Filled h m pageTable k.world.pages) :
    Ensures (regime C) (Elf.loadSegment (rest F trampoline trapFrame) pageTable h.vaddr ip h.off
      h.filesz fuel (UInt64.ofNat (4096 * m))) k fun res k' ↦
        Built kernel tables taken s old ok file e N i pageTable size k' ∧
          (res = true ↔ file.Contains h) ∧
            (res = true → file.Ordered e → file.Segment h pageTable k'.world.pages) := by
  have hU := userPages_eq
  have hle := hb.loading.shape.1
  have hcount : pageCount size = (size.toNat + 4095) / 4096 := rfl
  have hfile := hs.le
  have halign := hs.aligned
  have hpage : page h.vaddr = h.vaddr.toNat / 4096 := rfl
  have hsegment : segmentEnd h = h.vaddr.toNat + h.memsz.toNat := rfl
  induction fuel generalizing k m with
  | zero => omega
  | succ fuel ih =>
    have hi : (UInt64.ofNat (4096 * m)).toNat = 4096 * m := by
      rw [UInt64.toNat_ofNat']
      omega
    unfold Elf.loadSegment
    by_cases hlt : UInt64.ofNat (4096 * m) < h.filesz
    · have hlt' : 4096 * m < h.filesz.toNat := by
        rw [← hi]
        exact UInt64.lt_iff_toNat_lt.mp hlt
      rw [if_pos hlt]
      have hva : (h.vaddr + UInt64.ofNat (4096 * m)).toNat = h.vaddr.toNat + 4096 * m := by
        rw [UInt64.toNat_add, hi]
        exact Nat.mod_eq_of_lt (by omega)
      have hn : page (h.vaddr + UInt64.ofNat (4096 * m)) = page h.vaddr + m := by
        change (h.vaddr + UInt64.ofNat (4096 * m)).toNat / 4096 = h.vaddr.toNat / 4096 + m
        rw [hva]
        omega
      have hin : page h.vaddr + m < pageCount size := by omega
      have hwalk := hb.frame (h.vaddr + UInt64.ofNat (4096 * m)) (by rw [hn]; exact hin)
      rw [hn] at hwalk
      have hne := (hb.user _ hin).2
      have hcall : (rest F trampoline trapFrame).walkAddress pageTable
          (h.vaddr + UInt64.ofNat (4096 * m)) k.world = some (toPhysicalAddress
            (k.world.pages.raw pageTable (page h.vaddr + m)), k.world) := by
        change onPages (fun s ↦ (PageTable.walkAddress pageTable _ s).map (·, s)) k.world = _
        rw [onPages, hwalk]
        rfl
      refine ensures_enter_bind (fun _ ↦ ⟨_, _, hcall⟩) fun pa w hw ↦ ?_
      rw [hcall] at hw
      cases hw
      refine ensures_assert_bind (fun _ ↦ hne) trivial fun _ ↦ ?_
      dsimp only
      -- The length of the page, as a `uint64_t` and as the `uint32_t` that is read.
      have hlen' := chunk_toNat hlt
      generalize (if h.filesz - UInt64.ofNat (4096 * m) < Syscall.PAGE_SIZE then
        h.filesz - UInt64.ofNat (4096 * m) else Syscall.PAGE_SIZE) = len at hlen' ⊢
      rw [hi] at hlen'
      have hlen32 : len.toUInt32.toNat = len.toNat := by
        rw [UInt64.toNat_toUInt32]
        omega
      obtain ⟨y, hy, hcall₂⟩ := hF.readPage hb.served
        (toPhysicalAddress (k.world.pages.raw pageTable (page h.vaddr + m)))
        (Content.offsetOf h m) len.toUInt32
      have hshort := file.available_le (Content.offsetOf h m) len.toUInt32
      have hall := file.available_eq_iff (Content.offsetOf h m) len.toUInt32 (by omega)
      generalize file.available (Content.offsetOf h m) len.toUInt32 = got at hcall₂ hshort hall
      refine ensures_enter_bind (fun _ ↦ ⟨_, _, hcall₂⟩) fun n w hw ↦ ?_
      have hw' := hcall₂.symm.trans hw
      cases hw'
      have hb' := hb.fill hin (file.bytes (Content.offsetOf h m).toNat got) hy
        fun ho j hj h' hu hl ↦ by
          have := hkeep ho j hj h' hu hl
          omega
      rw [ofInt_ofNat (by omega)]
      have hgot : (UInt64.ofNat got).toNat = got := by
        rw [UInt64.toNat_ofNat']
        omega
      by_cases hfull : got = len.toNat
      · have heq : UInt64.ofNat got = len := by
          apply UInt64.toNat_inj.mp
          rw [hgot, hfull]
        have hhas : file.HasPage h m := by
          have := hall.mp (by omega)
          rwa [hlen32, hlen'] at this
        have hstep : UInt64.ofNat (4096 * m) + Syscall.PAGE_SIZE =
            UInt64.ofNat (4096 * (m + 1)) := by
          rw [Nat.mul_succ, UInt64.ofNat_add]
          rfl
        rw [if_neg (not_not.mpr heq), hstep]
        refine ih (m := m + 1) hb' (by omega) (by omega) (fun j hj hj' ↦ ?_) fun ho ↦ ?_
        · by_cases hjm : j = m
          · rw [hjm]
            exact hhas
          · exact hread j (by omega) hj'
        · refine (hfill ho).next halign (fun n h₁ h₂ hne' ↦
            hb.frame_ne (by omega) hin hne') (fun n hn' ↦ ?_) ?_
          · obtain ⟨free, hspace, -⟩ := hb.stock
            exact (hspace.filled hb.loading.mem (by omega)
              ((hb.loading.shape.2 _ (by omega)).mpr hin) 0 _).raw pageTable hb.loading.mem n
                (by omega)
          · rw [← hlen', ← hfull]
      · have hne' : UInt64.ofNat got ≠ len := fun he ↦ hfull (by rw [← he, hgot])
        rw [if_pos hne']
        refine ensures_pure ⟨hb', ⟨fun h' ↦ (by cases h'), fun hc ↦ ?_⟩, fun h' ↦ (by cases h')⟩
        have hhas : file.HasPage h m := hc m hlt'
        rw [Content.HasPage, ← hlen', ← hlen32, ← hall] at hhas
        omega
    · have hge : h.filesz.toNat ≤ 4096 * m := by
        rw [← hi]
        exact UInt64.le_iff_toNat_le.mp (UInt64.not_lt.mp hlt)
      rw [if_neg hlt]
      refine ensures_pure ⟨hb, ⟨fun _ j hj ↦ hread j (by omega) hj, fun _ ↦ rfl⟩, fun _ ho ↦ ?_⟩
      exact (hfill ho).segment halign hge

end

end Orfos.Memory
