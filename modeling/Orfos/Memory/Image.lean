import Orfos.Memory.Copy
import Orfos.Syscall.Balance

/-!
# Images

What `exec` leaves behind: the old image of the process, or a new one in a table of its own with
exactly its pages mapped, and nothing else in use has changed.
-/

namespace Orfos.Memory

open Orfos.Base Orfos.Base.Traced Orfos.Syscall PageTableEntry VirtualAddress

variable {φ ι α : Type}

/-- `exec` has built an image of some size in a new table. The pages in use before are those of
`tables` and `taken` in `s`, and the process still has its old image. -/
structure Loading (kernel : UInt64) (tables taken : List UInt64) (s : State) (old : UInt64 × UInt64)
    (pageTable size : UInt64) (k : Syscall.Kernel (World φ) ι UInt64) : Prop where
  since : Since kernel tables taken s k.world.tables taken k.world.pages
  mem : pageTable ∈ k.world.tables
  new : pageTable ∉ tables
  shape : k.world.pages.Exact pageTable size
  same : (k.pageTable, k.memorySize) = old

/-- After `exec` the process has its old image, or a new one. -/
def Image (kernel : UInt64) (tables taken : List UInt64) (s : State) (old : UInt64 × UInt64)
    (k : Syscall.Kernel (World φ) ι UInt64) : Prop :=
  Since kernel tables taken s k.world.tables taken k.world.pages ∧
    ((k.pageTable, k.memorySize) = old ∨ k.pageTable ∈ k.world.tables ∧ k.pageTable ∉ tables ∧
      k.world.pages.Exact k.pageTable k.memorySize)

/-- An `exec` that has returned `-1` has left the process its old image. -/
def Imaged (kernel : UInt64) (tables taken : List UInt64) (s : State) (old : UInt64 × UInt64)
    (n : Int32) (k : Syscall.Kernel (World φ) ι UInt64) : Prop :=
  Since kernel tables taken s k.world.tables taken k.world.pages ∧
    (n = -1 ∧ (k.pageTable, k.memorySize) = old ∨ k.pageTable ∈ k.world.tables ∧
      k.pageTable ∉ tables ∧ k.world.pages.Exact k.pageTable k.memorySize)

theorem onPages_eq_some {m : State → Except Halt (α × State)} {w w' : World φ} {a : α}
    (h : onPages m w = some (a, w')) :
    ∃ t, m w.pages = .ok (a, t) ∧ w' = { w with pages := t } := by
  unfold onPages at h
  split at h
  · next b t hm =>
    cases h
    exact ⟨t, hm, rfl⟩
  · cases h

theorem onFiles_eq_some {f : Syscall.Op φ α} {w w' : World φ} {a : α}
    (h : onFiles f w = some (a, w')) : ∃ files, w' = { w with files := files } := by
  unfold onFiles at h
  rw [Option.map_eq_some_iff] at h
  obtain ⟨r, -, hr⟩ := h
  cases hr
  exact ⟨_, rfl⟩

theorem rest_walkAddress {F : Files φ ι} {trampoline trapFrame pageTable va pa : UInt64}
    {w w' : World φ}
    (h : (rest F trampoline trapFrame).walkAddress pageTable va w = some (pa, w')) :
    PageTable.walkAddress pageTable va w.pages = .ok pa ∧ w' = w := by
  have h' : onPages (fun s ↦ (PageTable.walkAddress pageTable va s).map (·, s)) w =
    some (pa, w') := h
  obtain ⟨t, ht, rfl⟩ := onPages_eq_some h'
  obtain ⟨r, hr, he⟩ := map_eq_ok ht
  cases he
  exact ⟨hr, rfl⟩

theorem rest_read {F : Files φ ι} {trampoline trapFrame pa : UInt64} {ip : ι} {userDst : Bool}
    {offset length : UInt32} {len : Int32} {w w' : World φ}
    (h : (rest F trampoline trapFrame).read ip userDst pa offset length w = some (len, w')) :
    ∃ bytes files, w' = { w with pages := w.pages.fill pa 0 bytes, files := files } := by
  have h' : readPage F ip pa offset length w = some (len, w') := h
  unfold readPage at h'
  rw [Option.map_eq_some_iff] at h'
  obtain ⟨r, -, hr⟩ := h'
  cases hr
  exact ⟨_, _, rfl⟩

theorem rest_makePageTable {F : Files φ ι} {trampoline trapFrame pageTable : UInt64}
    {w w' : World φ}
    (h : (rest F trampoline trapFrame).makePageTable w = some (pageTable, w')) :
    ∃ t, makePageTable trampoline trapFrame w.pages = .ok (pageTable, t) ∧
      w' = { w with pages := t, tables := pageTable :: w.tables } := by
  have h' : (onPages (makePageTable trampoline trapFrame) w).map (fun r ↦
    (r.1, { r.2 with tables := r.1 :: r.2.tables })) = some (pageTable, w') := h
  rw [Option.map_eq_some_iff] at h'
  obtain ⟨r, hr, he⟩ := h'
  obtain ⟨t, ht, hw⟩ := onPages_eq_some hr
  cases he
  exact ⟨t, ht, by rw [hw]⟩

section

variable {kernel pageTable size : UInt64} {tables taken : List UInt64} {s : State}
  {old : UInt64 × UInt64} {k : Syscall.Kernel (World φ) ι UInt64} {w : World φ}

theorem Loading.image (h : Loading kernel tables taken s old pageTable size k) :
    Imaged kernel tables taken s old (-1) k :=
  ⟨h.since, .inl ⟨rfl, h.same⟩⟩

theorem Imaged.image {n : Int32} (h : Imaged kernel tables taken s old n k) :
    Image kernel tables taken s old k :=
  ⟨h.1, h.2.imp_left And.right⟩

theorem Loading.files (h : Loading kernel tables taken s old pageTable size k)
    {f : Syscall.Op φ α} {a : α} (hf : onFiles f k.world = some (a, w)) :
    Loading kernel tables taken s old pageTable size { k with world := w } := by
  obtain ⟨files, rfl⟩ := onFiles_eq_some hf
  exact ⟨h.since, h.mem, h.new, h.shape, h.same⟩

/-- Writes to the frames of the new table. -/
theorem Loading.wrote (h : Loading kernel tables taken s old pageTable size k) {t : State} {f : φ}
    (hw : Wrote kernel k.world.tables taken pageTable k.world.pages t) :
    Loading kernel tables taken s old pageTable size
      { k with world := { k.world with pages := t, files := f } } := by
  exact ⟨h.since.wrote hw h.mem h.new, h.mem, h.new, h.shape.congr (hw.raw pageTable h.mem), h.same⟩

/-- `allocateUserVirtualMemory` on the new table. -/
theorem Loading.allocate (h : Loading kernel tables taken s old pageTable size k)
    {newSize xperm r : UInt64} (hperm : (PTE_R ||| PTE_U ||| xperm).toUInt16.toNat < 1024)
    (ha : onPages (allocateUserVirtualMemory pageTable size newSize xperm) k.world = some (r, w)) :
    Loading kernel tables taken s old pageTable r { k with world := w } ∧
      (size ≤ newSize → r = newSize) := by
  have hU := userPages_eq
  obtain ⟨t, ht, rfl⟩ := onPages_eq_some ha
  have hle := h.shape.1
  have hcount : pageCount size = (size.toNat + 4095) / 4096 := rfl
  by_cases hlt : newSize < size
  · rw [allocateUserVirtualMemory, if_pos hlt] at ht
    cases ht
    exact ⟨⟨h.since, h.mem, h.new, h.shape, h.same⟩, fun hge ↦ absurd hlt (UInt64.not_lt.mpr hge)⟩
  · obtain ⟨free, hs⟩ := h.since.space
    have hge : size ≤ newSize := UInt64.not_lt.mp hlt
    obtain ⟨hr, hmax, free', hext⟩ := (allocateUserVirtualMemory_extends hs h.mem hperm
      (by omega) hge).of_ok ht
    change r = newSize at hr
    rw [hr]
    have hshape := hext.exact h.mem h.shape (pageCount_mono hge) hmax
    exact ⟨⟨h.since.extends hext h.new, h.mem, h.new, hshape, h.same⟩, fun _ ↦ rfl⟩

/-- A call that keeps what `exec` has built. -/
theorem Loading.call {β : Type} (_ : Loading kernel tables taken s old pageTable size k)
    {f : Syscall.Op (World φ) α} {g : α → Handler (World φ) ι UInt64 β}
    {Q : β → Syscall.Kernel (World φ) ι UInt64 → Prop}
    (hf : ∀ a w, f k.world = some (a, w) →
      Loading kernel tables taken s old pageTable size { k with world := w })
    (hg : ∀ a k', Loading kernel tables taken s old pageTable size k' →
      Ensures (regime False) (g a) k' Q) :
    Ensures (regime False) (enter f >>= g) k Q :=
  ensures_enter_bind (fun h ↦ h.elim) fun a w haw ↦ hg a _ (hf a w haw)

variable {F : Files φ ι} {trampoline trapFrame : UInt64} {path : CString}

theorem Loading.delete (h : Loading kernel tables taken s old pageTable size k) {pt : UInt64}
    {a : Unit} (hf : (rest F trampoline trapFrame).deletePageTable pt k.world = some (a, w)) :
    Loading kernel tables taken s old pageTable size { k with world := w } := by
  cases hf
  exact h

theorem Loading.ended (h : Loading kernel tables taken s old pageTable size k) :
    Loading kernel tables taken s old pageTable size
      { k with ended := k.ended + 1, outstanding := k.outstanding - 1 } :=
  ⟨h.since, h.mem, h.new, h.shape, h.same⟩

/-- The lambda `bad` leaves the process with its old image. -/
theorem bad_image (h : Loading kernel tables taken s old pageTable size k) {ip : Option ι} :
    Ensures (regime False) (Elf.bad (rest F trampoline trapFrame) pageTable ip) k
      (Imaged kernel tables taken s old) := by
  refine h.call (fun _ _ hf ↦ h.delete hf) fun _ k₁ h₁ ↦ ?_
  cases ip with
  | none => exact ensures_pure h₁.image
  | some ip =>
    refine h₁.call (fun _ _ hf ↦ h₁.files hf) fun _ k₂ h₂ ↦ ?_
    refine h₂.call (fun _ _ hf ↦ h₂.files hf) fun _ k₃ h₃ ↦ ?_
    exact ensures_modify_bind (ensures_pure h₃.ended.image)

/-- `loadSegment` writes to frames of the new table only. -/
theorem loadSegment_loading (h : Loading kernel tables taken s old pageTable size k)
    {va offset filesz i : UInt64} {ip : ι} {fuel : Nat} :
    Ensures (regime False)
      (Elf.loadSegment (rest F trampoline trapFrame) pageTable va ip offset filesz fuel i) k
      fun _ ↦ Loading kernel tables taken s old pageTable size := by
  induction fuel generalizing k i with
  | zero => exact ensures_stop id trivial
  | succ fuel ih =>
    unfold Elf.loadSegment
    split
    · refine ensures_enter_bind (fun h ↦ h.elim) fun pa w hwalk ↦ ?_
      obtain ⟨hpa, rfl⟩ := rest_walkAddress hwalk
      refine ensures_assert_bind (fun h ↦ h.elim) trivial fun hne ↦ ?_
      dsimp only
      generalize (if filesz - i < Syscall.PAGE_SIZE then filesz - i else Syscall.PAGE_SIZE) = n
      refine ensures_enter_bind (fun h ↦ h.elim) fun len w hread ↦ ?_
      obtain ⟨bytes, files, rfl⟩ := rest_read hread
      obtain ⟨free, hs⟩ := h.since.space
      obtain ⟨hn, hv, rfl⟩ := PageTable.walkAddress_frame hs h.mem hpa hne
      have hk := h.wrote (f := files) (hs.filled h.mem hn hv 0 bytes)
      split
      · exact ensures_pure hk
      · exact ih hk
    · exact ensures_pure h

theorem flagsToPerm_low (flags : UInt32) :
    (PTE_R ||| PTE_U ||| Elf.flagsToPerm flags).toUInt16.toNat < 1024 := by
  rw [Elf.flagsToPerm]
  split <;> split <;> decide

/-- The loop over the program headers builds an image. -/
theorem load_image (h : Loading kernel tables taken s old pageTable size k) {ip : ι}
    {next : UInt64 → Handler (World φ) ι UInt64 Int32} {fuel : Nat} {offset : UInt64}
    (hnext : ∀ size k, Loading kernel tables taken s old pageTable size k →
      Ensures (regime False) (next size) k (Imaged kernel tables taken s old)) :
    Ensures (regime False)
      (Elf.load (rest F trampoline trapFrame) pageTable ip next fuel offset size) k
      (Imaged kernel tables taken s old) := by
  induction fuel generalizing k offset size with
  | zero => exact hnext size k h
  | succ fuel ih =>
    unfold Elf.load
    refine h.call (fun _ _ hf ↦ h.files hf) fun header k₁ h₁ ↦ ?_
    obtain ⟨len, progHeader⟩ := header
    dsimp only
    split
    · exact bad_image h₁
    split
    · exact ih h₁
    split
    · exact bad_image h₁
    split
    · exact bad_image h₁
    split
    · exact bad_image h₁
    refine ensures_enter_bind (fun h ↦ h.elim) fun newSize w ha ↦ ?_
    have h₂ := (h₁.allocate (flagsToPerm_low _) ha).1
    split
    · exact bad_image h₂
    refine ensures_bind (loadSegment_loading h₂) fun res k₃ h₃ ↦ ?_
    split
    · exact bad_image h₃
    · exact ih h₃

theorem Loading.copyout {dst : UInt64} {src : List UInt8} {b : Bool}
    (h : Loading kernel tables taken s old pageTable size k)
    (hf : (rest F trampoline trapFrame).copyout pageTable dst src k.world = some (b, w)) :
    Loading kernel tables taken s old pageTable size { k with world := w } := by
  have hf' : onPages (PageTable.copyout pageTable dst src) k.world = some (b, w) := hf
  obtain ⟨t, ht, rfl⟩ := onPages_eq_some hf'
  obtain ⟨free, hs⟩ := h.since.space
  exact h.wrote (f := k.world.files) ((PageTable.copyoutFrom_wrote hs h.mem).of_ok ht)

/-- The end of `exec` gives the process the new image. -/
theorem finish_image (h : Loading kernel tables taken s old pageTable size k)
    {elfHeader : ElfHeader} {sp : UInt64} {ustack : List UInt64} :
    Ensures (regime False)
      (Elf.finish (rest F trampoline trapFrame) path pageTable elfHeader size sp ustack) k
      (Imaged kernel tables taken s old) := by
  unfold Elf.finish
  dsimp only
  split
  · exact bad_image h
  refine h.call (fun _ _ hf ↦ h.copyout hf) fun res k₁ h₁ ↦ ?_
  split
  · exact bad_image h₁
  refine ensures_gets_bind (ensures_modify_bind ?_)
  refine ensures_enter_bind (fun h ↦ h.elim) fun _ w hdel ↦ ?_
  cases hdel
  exact ensures_pure ⟨h₁.since, .inr ⟨h₁.mem, h₁.new, h₁.shape⟩⟩

/-- The loop over the arguments writes to frames of the new table only. -/
theorem pushArgs_image (h : Loading kernel tables taken s old pageTable size k)
    {elfHeader : ElfHeader} {stackBase sp : UInt64} {argv : List CString} {ustack : List UInt64} :
    Ensures (regime False)
      (Elf.pushArgs (rest F trampoline trapFrame) pageTable stackBase
        (Elf.finish (rest F trampoline trapFrame) path pageTable elfHeader size) argv sp ustack) k
      (Imaged kernel tables taken s old) := by
  induction argv generalizing k sp ustack with
  | nil => exact finish_image h
  | cons arg argv ih =>
    unfold Elf.pushArgs
    split
    · exact bad_image h
    dsimp only
    split
    · exact bad_image h
    refine h.call (fun _ _ hf ↦ h.copyout hf) fun res k₁ h₁ ↦ ?_
    split
    · exact bad_image h₁
    · exact ih h₁

theorem pageCount_roundUp {a : UInt64} (h : pageCount a ≤ userPages) :
    (roundUp a).toNat = 4096 * pageCount a ∧ pageCount (roundUp a) = pageCount a := by
  have hU := userPages_eq
  have hcount : pageCount a = (a.toNat + 4095) / 4096 := rfl
  have hup := roundUp_toNat (a := a) (by omega)
  refine ⟨hup, ?_⟩
  change ((roundUp a).toNat + 4095) / 4096 = _
  rw [hup]
  omega

theorem Loading.round (h : Loading kernel tables taken s old pageTable size k) :
    Loading kernel tables taken s old pageTable (roundUp size) k := by
  refine ⟨h.since, h.mem, h.new, ?_, h.same⟩
  rw [State.Exact, (pageCount_roundUp h.shape.1).2]
  exact h.shape

/-- `clearUserVirtualMemory` on a page of the new image. -/
theorem Loading.clear (h : Loading kernel tables taken s old pageTable size k) {va : UInt64}
    (hva : page va < pageCount size) {a : Unit}
    (hf : (rest F trampoline trapFrame).clearUserVirtualMemory pageTable va k.world =
      some (a, w)) :
    Loading kernel tables taken s old pageTable size { k with world := w } := by
  have hU := userPages_eq
  have hf' : onPages (fun s ↦ (clearUserVirtualMemory pageTable va s).map ((), ·)) k.world =
    some (a, w) := hf
  obtain ⟨t, ht, rfl⟩ := onPages_eq_some hf'
  obtain ⟨free, hs⟩ := h.since.space
  have hle := h.shape.1
  obtain ⟨t', ht', he⟩ := map_eq_ok ht
  cases he
  obtain ⟨hspace, hother, hvalid, hmem, -, -⟩ :=
    (clearUserVirtualMemory_ends hs h.mem (by omega) (h.shape.whole.2 _ hva)).of_ok ht'
  refine ⟨⟨hspace, h.since.keepTables, h.since.keepTaken, fun r hr n hn ↦ ?_, fun p hp ↦ ?_⟩,
    h.mem, h.new, ⟨hle, fun n hn ↦ ?_⟩, h.same⟩
  · have hne : r ≠ pageTable := fun he ↦ h.new (he ▸ hr)
    exact (hother r (h.since.keepTables hr) hne n hn).trans (h.since.raw r hr n hn)
  · exact (hmem p (h.since.used hp)).trans (h.since.memory p hp)
  · have hkeep : v (t.raw pageTable n) = v (k.world.pages.raw pageTable n) := hvalid n (by omega)
    change v (t.raw pageTable n) = true ↔ _
    rw [hkeep]
    exact h.shape.2 n hn

/-- `exec` from the end of its file operation on. -/
theorem buildStack_image (h : Loading kernel tables taken s old pageTable size k)
    {elfHeader : ElfHeader} {argv : List CString} :
    Ensures (regime False)
      (Elf.buildStack (rest F trampoline trapFrame) path pageTable elfHeader argv size) k
      (Imaged kernel tables taken s old) := by
  have hU := userPages_eq
  have h₁ := h.round
  have hle := h.shape.1
  obtain ⟨hup, hcount⟩ := pageCount_roundUp hle
  have htwo : (roundUp size + PAGE_SIZE * 2).toNat = (roundUp size).toNat + 8192 := by
    rw [UInt64.toNat_add]
    exact Nat.mod_eq_of_lt (by change (roundUp size).toNat + 8192 < _; omega)
  unfold Elf.buildStack
  change Ensures (regime False) (enter ((rest F trampoline trapFrame).allocateUserVirtualMemory
    pageTable (roundUp size) (roundUp size + PAGE_SIZE * 2) 4) >>= _) k _
  refine ensures_enter_bind (fun h ↦ h.elim) fun allocSize w ha ↦ ?_
  obtain ⟨h₂, hsize⟩ := h₁.allocate (by decide) ha
  split
  · exact bad_image h₂
  have hnew : allocSize = roundUp size + PAGE_SIZE * 2 := hsize (UInt64.le_iff_toNat_le.mpr
    (by omega))
  have hguard : page (allocSize - PAGE_SIZE * 2) < pageCount allocSize := by
    rw [hnew, UInt64.add_sub_cancel, pageCount, htwo]
    change (roundUp size).toNat / 4096 < _
    omega
  refine h₂.call (fun _ _ hf ↦ h₂.clear hguard hf) fun _ k₃ h₃ ↦ ?_
  exact pushArgs_image h₃

/-- `exec` gives the process a new image, or returns `-1` and leaves it the old one. -/
theorem exec_imaged {free : List UInt64} {argv : List CString}
    (h : Space k.world.pages kernel k.world.tables taken free) :
    Ensures (regime False) (Elf.exec (rest F trampoline trapFrame) path argv) k
      (Imaged kernel k.world.tables taken k.world.pages (k.pageTable, k.memorySize)) := by
  unfold Elf.exec
  refine ensures_modify_bind ?_
  refine ensures_enter_bind (fun h ↦ h.elim) fun ip w hopen ↦ ?_
  obtain ⟨files, rfl⟩ := onFiles_eq_some (f := F.openPath path) hopen
  cases ip with
  | none => exact ensures_modify_bind (ensures_pure ⟨Since.refl h, .inl ⟨rfl, rfl⟩⟩)
  | some ip =>
    refine ensures_enter_bind (fun h ↦ h.elim) fun _ w hlock ↦ ?_
    obtain ⟨files, rfl⟩ := onFiles_eq_some (f := F.lock ip) hlock
    refine ensures_enter_bind (fun h ↦ h.elim) fun pageTable w hmake ↦ ?_
    obtain ⟨t, ht, rfl⟩ := rest_makePageTable hmake
    obtain ⟨hnew, hsince, hnone⟩ := (makePageTable_since h).of_ok ht
    have h₁ : Loading kernel k.world.tables taken k.world.pages (k.pageTable, k.memorySize)
        pageTable 0 { k with
          world := ⟨t, pageTable :: k.world.tables, files⟩
          begun := k.begun + 1
          outstanding := k.outstanding + 1 } :=
      ⟨hsince, List.mem_cons_self, hnew, ⟨Nat.zero_le _, fun n hn ↦ by
        change v (t.raw pageTable n) = true ↔ n < 0
        rw [hnone n hn]
        simp⟩, rfl⟩
    refine h₁.call (fun _ _ hf ↦ h₁.files hf) fun header k₂ h₂ ↦ ?_
    obtain ⟨len, elfHeader⟩ := header
    dsimp only
    split
    · exact bad_image h₂
    split
    · exact bad_image h₂
    refine load_image h₂ fun size k₃ h₃ ↦ ?_
    refine h₃.call (fun _ _ hf ↦ h₃.files hf) fun _ k₄ h₄ ↦ ?_
    refine h₄.call (fun _ _ hf ↦ h₄.files hf) fun _ k₅ h₅ ↦ ?_
    exact ensures_modify_bind (buildStack_image h₅.ended)

/-- `exec` gives the process a new image or leaves it the old one. -/
theorem exec_image {free : List UInt64} {argv : List CString}
    (h : Space k.world.pages kernel k.world.tables taken free) :
    Ensures (regime False) (Elf.exec (rest F trampoline trapFrame) path argv) k
      fun _ ↦ Image kernel k.world.tables taken k.world.pages (k.pageTable, k.memorySize) :=
  (exec_imaged h).imp fun _ _ himage ↦ himage.image

end

end Orfos.Memory
