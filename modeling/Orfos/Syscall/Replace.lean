import Orfos.Syscall.Balance

/-!
# The caller of exec

`exec` gives the process its new image in one place, behind the last `return -1`. Until then the
process stays as it is, and the inode that `exec` has opened is unlocked and put on every way out.
-/

namespace Orfos.Syscall

open Orfos.Base Orfos.Base.Traced

variable {ω ι π α β : Type}

/-- What the file system counts. In `w` the inodes have the references `r` and the locks `l` if
`counts w r l`, and there is an inode behind the pointer `ip` if `known w ip`. -/
structure Accounts (ω ι : Type) where
  counts : ω → (ι → UInt32) → (ι → Bool) → Prop
  known : ω → ι → Prop

/-- A function that leaves references and locks alone. -/
def Accounts.Leaves (A : Accounts ω ι) (f : Op ω α) : Prop :=
  ∀ w a w', f w = some (a, w') →
    (∀ r l, A.counts w r l → A.counts w' r l) ∧ ∀ ip, A.known w ip → A.known w' ip

/-- What the functions that `exec` calls for its inode and its new image do to references and
locks. -/
structure Accounts.Served [DecidableEq ι] (A : Accounts ω ι) (K : Rest ω ι π) : Prop where
  lock : ∀ ip w u w' r l, A.counts w r l → A.known w ip → K.lock ip w = some (u, w') →
    A.counts w' r (Function.update l ip true) ∧ A.known w' ip ∧ l ip = false
  unlock : ∀ ip w u w' r l, A.counts w r l → A.known w ip → K.unlock ip w = some (u, w') →
    A.counts w' r (Function.update l ip false) ∧ A.known w' ip
  put : ∀ ip w u w' r l, A.counts w r l → A.known w ip → K.put ip w = some (u, w') →
    A.counts w' (Function.update r ip (r ip - 1)) l
  readElfHeader : ∀ ip offset, A.Leaves (K.readElfHeader ip offset)
  readProgramHeader : ∀ ip offset, A.Leaves (K.readProgramHeader ip offset)
  read : ∀ ip dst offset length, A.Leaves (K.read ip false dst offset length)
  copyout : ∀ pageTable dst src, A.Leaves (K.copyout pageTable dst src)
  makePageTable : A.Leaves K.makePageTable
  deletePageTable : ∀ pageTable, A.Leaves (K.deletePageTable pageTable)
  walkAddress : ∀ pageTable va, A.Leaves (K.walkAddress pageTable va)
  allocateUserVirtualMemory : ∀ pageTable oldSize newSize xperm,
    A.Leaves (K.allocateUserVirtualMemory pageTable oldSize newSize xperm)
  clearUserVirtualMemory : ∀ pageTable va, A.Leaves (K.clearUserVirtualMemory pageTable va)

/-- The process is the same in both states, with all its fields, its files and its trap frame. -/
def Kernel.SameProcess (k k' : Kernel ω ι π) : Prop :=
  k' = { k with
    world := k'.world
    begun := k'.begun
    ended := k'.ended
    outstanding := k'.outstanding }

/-- The process has a new image: its table is one that was made for it, its size is the one that
the table was extended to, it starts where the header of the file says, the stack pointer is in
the stack page at the pointers to the arguments, and the name is that of the file. -/
structure Kernel.NewImage (K : Rest ω ι π) (path : CString) (k k' : Kernel ω ι π) : Prop where
  same : k.SameProcess { k' with
    args := k.args
    pageTable := k.pageTable
    memorySize := k.memorySize
    epc := k.epc
    sp := k.sp
    name := k.name }
  table : ∃ w w', K.makePageTable w = some (k'.pageTable, w')
  size : ∃ old w w', K.allocateUserVirtualMemory k'.pageTable old (old + PAGE_SIZE * 2) 4 w =
    some (k'.memorySize, w')
  entry : ∃ ip e w w', K.readElfHeader ip 0 w = some ((64, e), w') ∧ e.magic = ELF_MAGIC ∧
    k'.epc = e.entry
  stack : ¬ k'.sp < k'.memorySize - PAGE_SIZE ∧ ∃ pointers w w',
    K.copyout k'.pageTable k'.sp (Elf.wordBytes (pointers ++ [0])) w = some (true, w')
  argument : k'.args = Function.update k.args 1 k'.sp
  name : k'.name = Elf.strncpy 16 (Elf.lastElement path path)

variable [DecidableEq ι] {A : Accounts ω ι} {K : Rest ω ι π}

/-- What `open` leaves behind: a reference to what it returns. -/
def Accounts.Opened (A : Accounts ω ι) (r : ι → UInt32) (l : ι → Bool) (found : Option ι)
    (w : ω) : Prop :=
  match found with
  | none => A.counts w r l
  | some ip => A.counts w (Function.update r ip (r ip + 1)) l ∧ A.known w ip

/-- A state on the way through `exec`: the process is still as in `k₀`, and `exec` holds an inode
or has given it back. -/
structure Holding (A : Accounts ω ι) (k₀ : Kernel ω ι π) (r : ι → UInt32) (l : ι → Bool)
    (ip : Option ι) (k : Kernel ω ι π) : Prop where
  same : k₀.SameProcess k
  counts : match ip with
    | none => A.counts k.world r l
    | some ip => A.counts k.world (Function.update r ip (r ip + 1)) (Function.update l ip true) ∧
        A.known k.world ip ∧ l ip = false

/-- How `exec` ends: with the process as it was, or with a new image. -/
def Ended (A : Accounts ω ι) (K : Rest ω ι π) (path : CString) (k₀ : Kernel ω ι π)
    (r : ι → UInt32) (l : ι → Bool) (n : Int32) (k : Kernel ω ι π) : Prop :=
  A.counts k.world r l ∧ (n = -1 ∧ k₀.SameProcess k ∨ n ≠ -1 ∧ k₀.NewImage K path k)

section

variable {k₀ k : Kernel ω ι π} {r : ι → UInt32} {l : ι → Bool} {ip : Option ι} {pageTable : π}
  {path : CString} {Q : β → Kernel ω ι π → Prop}

/-- A call that leaves references and locks alone. -/
theorem Holding.call (h : Holding A k₀ r l ip k) {f : Op ω α} (hf : A.Leaves f)
    {g : α → Handler ω ι π β}
    (hg : ∀ a w, f k.world = some (a, w) → Holding A k₀ r l ip { k with world := w } →
      Ensures (regime False) (g a) { k with world := w } Q) :
    Ensures (regime False) (enter f >>= g) k Q := by
  refine ensures_enter_bind False.elim fun a w hw ↦ hg a w hw ⟨?_, ?_⟩
  · have hsame := h.same
    rw [Kernel.SameProcess] at hsame ⊢
    rw [hsame]
  · obtain ⟨hcounts, hknown⟩ := hf _ _ _ hw
    cases ip with
    | none => exact hcounts _ _ h.counts
    | some ip => exact ⟨hcounts _ _ h.counts.1, hknown _ h.counts.2.1, h.counts.2.2⟩

/-- A reference taken and given back. -/
theorem give_back_reference (r : ι → UInt32) (ip : ι) :
    Function.update (Function.update r ip (r ip + 1)) ip
      (Function.update r ip (r ip + 1) ip - 1) = r := by
  rw [Function.update_self, Function.update_idem, UInt32.add_sub_cancel, Function.update_eq_self]

/-- `unlock`, `put` and `endOp`. -/
theorem Holding.leave {ip : ι} (hA : A.Served K) (h : Holding A k₀ r l (some ip) k)
    {g : Handler ω ι π β}
    (hg : ∀ k', Holding A k₀ r l none k' → Ensures (regime False) g k' Q) :
    Ensures (regime False) (do
      enter (K.unlock ip)
      enter (K.put ip)
      endOp
      g) k Q := by
  obtain ⟨hcounts, hknown, hfree⟩ := h.counts
  refine ensures_enter_bind False.elim fun _ w₁ hw₁ ↦ ?_
  obtain ⟨hunlocked, hknown₁⟩ := hA.unlock _ _ _ _ _ _ hcounts hknown hw₁
  refine ensures_enter_bind False.elim fun _ w₂ hw₂ ↦ ?_
  have hput := hA.put _ _ _ _ _ _ hunlocked hknown₁ hw₂
  rw [give_back_reference, Function.update_idem] at hput
  have hl : Function.update l ip false = l := by rw [← hfree, Function.update_eq_self]
  rw [hl] at hput
  refine ensures_modify_bind (hg _ ⟨?_, hput⟩)
  have hsame := h.same
  rw [Kernel.SameProcess] at hsame ⊢
  rw [hsame]

/-- The lambda `bad`. -/
theorem Holding.bad (hA : A.Served K) (h : Holding A k₀ r l ip k) :
    Ensures (regime False) (Elf.bad K pageTable ip) k (Ended A K path k₀ r l) := by
  refine h.call (hA.deletePageTable pageTable) fun _ w _ h₁ ↦ ?_
  cases ip with
  | none => exact ensures_pure ⟨h₁.counts, .inl ⟨rfl, h₁.same⟩⟩
  | some ip => exact h₁.leave hA fun k' h' ↦ ensures_pure ⟨h'.counts, .inl ⟨rfl, h'.same⟩⟩

/-- `loadSegment` reads the file only. -/
theorem Holding.loadSegment {ip : ι} (hA : A.Served K) (h : Holding A k₀ r l (some ip) k)
    {va offset filesz i : UInt64} {fuel : Nat} :
    Ensures (regime False) (Elf.loadSegment K pageTable va ip offset filesz fuel i) k
      fun _ ↦ Holding A k₀ r l (some ip) := by
  induction fuel generalizing k i with
  | zero => exact ensures_stop id trivial
  | succ fuel ih =>
    unfold Elf.loadSegment
    split
    · refine h.call (hA.walkAddress _ _) fun pa w _ h₁ ↦ ?_
      refine ensures_assert_bind (fun h ↦ h.elim) trivial fun _ ↦ ?_
      dsimp only
      generalize (if filesz - i < PAGE_SIZE then filesz - i else PAGE_SIZE) = n
      refine h₁.call (hA.read _ _ _ _) fun len w₂ _ h₂ ↦ ?_
      split
      · exact ensures_pure h₂
      · exact ih h₂
    · exact ensures_pure h

/-- The loop over the program headers. -/
theorem Holding.load {ip : ι} (hA : A.Served K) (h : Holding A k₀ r l (some ip) k)
    {next : UInt64 → Handler ω ι π Int32} {fuel : Nat} {offset size : UInt64}
    (hnext : ∀ size k, Holding A k₀ r l (some ip) k →
      Ensures (regime False) (next size) k (Ended A K path k₀ r l)) :
    Ensures (regime False) (Elf.load K pageTable ip next fuel offset size) k
      (Ended A K path k₀ r l) := by
  induction fuel generalizing k offset size with
  | zero => exact hnext size k h
  | succ fuel ih =>
    unfold Elf.load
    refine h.call (hA.readProgramHeader _ _) fun header w _ h₁ ↦ ?_
    obtain ⟨len, progHeader⟩ := header
    dsimp only
    split
    · exact h₁.bad hA
    split
    · exact ih h₁
    split
    · exact h₁.bad hA
    split
    · exact h₁.bad hA
    split
    · exact h₁.bad hA
    refine h₁.call (hA.allocateUserVirtualMemory _ _ _ _) fun newSize w₂ _ h₂ ↦ ?_
    split
    · exact h₂.bad hA
    refine ensures_bind (h₂.loadSegment hA) fun res k₃ h₃ ↦ ?_
    split
    · exact h₃.bad hA
    · exact ih h₃

/-- The end of `exec`, behind which the process has its new image. -/
theorem Holding.finish (hA : A.Served K) (h : Holding A k₀ r l none k) {e : ElfHeader}
    {size sp : UInt64} {ustack : List UInt64} (hlen : ustack.length ≤ MAX_ARGS)
    (htable : ∃ w w', K.makePageTable w = some (pageTable, w'))
    (hsize : ∃ old w w', K.allocateUserVirtualMemory pageTable old (old + PAGE_SIZE * 2) 4 w =
      some (size, w'))
    (hentry : ∃ ip w w', K.readElfHeader ip 0 w = some ((64, e), w') ∧ e.magic = ELF_MAGIC) :
    Ensures (regime False) (Elf.finish K path pageTable e size sp ustack) k
      (Ended A K path k₀ r l) := by
  have hmax : MAX_ARGS = 32 := rfl
  unfold Elf.finish
  dsimp only
  split
  · exact h.bad hA
  next hbase =>
  refine h.call (hA.copyout _ _ _) fun res w hres h₁ ↦ ?_
  split
  · exact h₁.bad hA
  next hok =>
  obtain rfl : res = true := not_not.mp hok
  refine ensures_gets_bind (ensures_modify_bind ?_)
  refine ensures_enter_bind False.elim fun _ w₂ hw₂ ↦ ensures_pure ?_
  have hne : Int32.ofNat ustack.length ≠ -1 := by
    intro he
    have hint := congrArg Int32.toInt he
    rw [Int32.toInt_ofNat_of_lt (by omega)] at hint
    exact absurd hint (by simp)
  have hsame := h.same
  rw [Kernel.SameProcess] at hsame
  refine ⟨(hA.deletePageTable _ _ _ _ hw₂).1 _ _ h₁.counts, .inr ⟨hne, ?_, htable, hsize, ?_, ?_,
    ?_, rfl⟩⟩
  · rw [Kernel.SameProcess, hsame]
  · obtain ⟨ip, w, w', hread, hmagic⟩ := hentry
    exact ⟨ip, e, w, w', hread, hmagic, rfl⟩
  · exact ⟨hbase, ustack, _, _, hres⟩
  · show Function.update k.args 1 _ = Function.update k₀.args 1 _
    rw [hsame]

/-- The loop over the arguments. -/
theorem Holding.pushArgs (hA : A.Served K) (h : Holding A k₀ r l none k) {e : ElfHeader}
    {stackBase size sp : UInt64} {argv : List CString} {ustack : List UInt64}
    (hlen : ustack.length ≤ MAX_ARGS)
    (htable : ∃ w w', K.makePageTable w = some (pageTable, w'))
    (hsize : ∃ old w w', K.allocateUserVirtualMemory pageTable old (old + PAGE_SIZE * 2) 4 w =
      some (size, w'))
    (hentry : ∃ ip w w', K.readElfHeader ip 0 w = some ((64, e), w') ∧ e.magic = ELF_MAGIC) :
    Ensures (regime False) (Elf.pushArgs K pageTable stackBase
      (Elf.finish K path pageTable e size) argv sp ustack) k (Ended A K path k₀ r l) := by
  induction argv generalizing k sp ustack with
  | nil => exact h.finish hA hlen htable hsize hentry
  | cons arg argv ih =>
    unfold Elf.pushArgs
    split
    · exact h.bad hA
    next hroom =>
    dsimp only
    split
    · exact h.bad hA
    refine h.call (hA.copyout _ _ _) fun res w _ h₁ ↦ ?_
    split
    · exact h₁.bad hA
    · refine ih h₁ ?_
      rw [List.length_append, List.length_singleton]
      omega

/-- `exec` from the end of its file operation on. -/
theorem Holding.buildStack (hA : A.Served K) (h : Holding A k₀ r l none k) {e : ElfHeader}
    {size : UInt64} {argv : List CString}
    (htable : ∃ w w', K.makePageTable w = some (pageTable, w'))
    (hentry : ∃ ip w w', K.readElfHeader ip 0 w = some ((64, e), w') ∧ e.magic = ELF_MAGIC) :
    Ensures (regime False) (Elf.buildStack K path pageTable e argv size) k
      (Ended A K path k₀ r l) := by
  unfold Elf.buildStack
  dsimp only
  refine h.call (hA.allocateUserVirtualMemory _ _ _ _) fun allocSize w hw h₁ ↦ ?_
  split
  · exact h₁.bad hA
  refine h₁.call (hA.clearUserVirtualMemory _ _) fun _ w₂ _ h₂ ↦ ?_
  exact h₂.pushArgs hA (Nat.zero_le _) htable ⟨_, _, _, hw⟩ hentry

/-- `exec` leaves the process as it was if it returns `-1`, and otherwise gives it a new image. The
references and locks are those from before. -/
theorem Accounts.Served.exec (hA : A.Served K)
    (hopen : ∀ found w, K.openPath path k.world = some (found, w) → A.Opened r l found w)
    {argv : List CString} :
    Ensures (regime False) (Elf.exec K path argv) k (Ended A K path k r l) := by
  unfold Elf.exec
  refine ensures_modify_bind (ensures_enter_bind False.elim fun found w₁ hw₁ ↦ ?_)
  have hopened := hopen found w₁ hw₁
  cases found with
  | none => exact ensures_modify_bind (ensures_pure ⟨hopened, .inl ⟨rfl, rfl⟩⟩)
  | some ip =>
    refine ensures_enter_bind False.elim fun _ w₂ hw₂ ↦ ?_
    obtain ⟨hlocked, hknown, hfree⟩ := hA.lock _ _ _ _ _ _ hopened.1 hopened.2 hw₂
    have h₁ : Holding A k r l (some ip) { k with
        world := w₂
        begun := k.begun + 1
        outstanding := k.outstanding + 1 } := ⟨rfl, hlocked, hknown, hfree⟩
    refine h₁.call hA.makePageTable fun pageTable w₃ hmake h₂ ↦ ?_
    refine h₂.call (hA.readElfHeader _ _) fun header w₄ hread h₃ ↦ ?_
    obtain ⟨len, elfHeader⟩ := header
    dsimp only
    split
    · exact h₃.bad hA
    next hlen =>
    split
    · exact h₃.bad hA
    next hmagic =>
    obtain rfl : len = 64 := not_not.mp hlen
    refine h₃.load hA fun size k₅ h₅ ↦ h₅.leave hA fun k₆ h₆ ↦ ?_
    exact h₆.buildStack hA ⟨_, _, hmake⟩ ⟨_, _, _, hread, not_not.mp hmagic⟩

end

end Orfos.Syscall
