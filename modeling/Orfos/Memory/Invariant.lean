import Orfos.Base.Guarded
import Orfos.Memory.Image

/-!
# What holds between the steps

Every process has a page table of its own, and no two processes share a frame. What is known
about the image of a process is a parameter: a new image has exactly its pages mapped, and
`growMemory` is the only step that leaves less.
-/

namespace Orfos.Memory

open Orfos.Base PageTableEntry VirtualAddress

variable {φ ι : Type}

/-- A kernel without processes. -/
def Kernel.Booted (k : Kernel φ) : Prop :=
  k.processes = [] ∧ k.tables = [] ∧
    ∃ free, Tables k.pages [k.kernelPageTable] (· ∈ k.taken) free

/-- What may be said about the image of a process: it holds of a new image, and it depends on
the entries of the table. -/
structure Shape (I : State → UInt64 → UInt64 → Prop) : Prop where
  exact : ∀ {s table size}, s.Exact table size → I s table size
  whole : ∀ {s table size}, I s table size → s.Whole table size
  congr : ∀ {s t table size}, I s table size → (∀ n < 2 ^ 26, t.raw table n = s.raw table n) →
    I t table size

/-- What holds between the steps. -/
structure Kernel.Inv (I : State → UInt64 → UInt64 → Prop) (k : Kernel φ) : Prop where
  space : ∃ free, Space k.pages k.kernelPageTable k.tables k.taken free
  mem : ∀ p ∈ k.processes, p.pageTable ∈ k.tables
  image : ∀ p ∈ k.processes, I k.pages p.pageTable p.memorySize
  apart : ∀ (i j : Nat) (p q : Process), k.processes[i]? = some p → k.processes[j]? = some q →
    p.pageTable = q.pageTable → i = j

section

variable {I : State → UInt64 → UInt64 → Prop} {k k' : Kernel φ} {p q c : Process} {i j : Nat}
  {s t : State}

theorem Kernel.Booted.inv (h : k.Booted) : k.Inv I := by
  obtain ⟨hp, ht, free, hwf⟩ := h
  have hnone : ∀ q, ¬ k.pages.Backs k.tables q := by
    rintro q ⟨r, hr, -⟩
    rw [ht] at hr
    cases hr
  refine ⟨⟨free, ?_, ?_, ?_, fun p _ ↦ hnone p, ?_⟩, ?_, ?_, ?_⟩
  · rw [← ht] at hwf
    exact hwf.mono fun q hq ↦ hq.resolve_right (hnone q)
  · rw [ht]
    exact List.not_mem_nil
  · rw [ht]
    exact fun r hr ↦ absurd hr List.not_mem_nil
  · rw [ht]
    exact fun r hr ↦ absurd hr List.not_mem_nil
  · rw [hp]
    exact fun q hq ↦ absurd hq List.not_mem_nil
  · rw [hp]
    exact fun q hq ↦ absurd hq List.not_mem_nil
  · rw [hp]
    exact fun i j p q hi ↦ by cases hi

theorem State.Whole.congr {table size : UInt64} (h : s.Whole table size)
    (hraw : ∀ n < 2 ^ 26, t.raw table n = s.raw table n) : t.Whole table size := by
  have hU := userPages_eq
  have hle := h.1
  refine ⟨h.1, fun n hn ↦ ?_⟩
  rw [hraw n (by omega)]
  exact h.2 n hn

theorem Shape.ofWhole : Shape State.Whole :=
  ⟨State.Exact.whole, id, State.Whole.congr⟩

theorem Shape.ofExact : Shape State.Exact :=
  ⟨id, State.Exact.whole, State.Exact.congr⟩

variable (hI : Shape I)

include hI

/-- Tables and pages may be added. -/
theorem Kernel.Inv.since (h : k.Inv I)
    (hs : Since k.kernelPageTable k.tables k.taken k.pages k'.tables k'.taken k'.pages)
    (hk : k'.kernelPageTable = k.kernelPageTable) (hp : k'.processes = k.processes) : k'.Inv I := by
  refine ⟨hk ▸ hs.space, ?_, ?_, by rw [hp]; exact h.apart⟩
  · rw [hp]
    exact fun p hp ↦ hs.keepTables (h.mem p hp)
  · rw [hp]
    exact fun p hp ↦ hI.congr (h.image p hp) (hs.raw _ (h.mem p hp))

/-- Frames of a process may be written. -/
theorem Kernel.Inv.wrote (h : k.Inv I) {table : UInt64}
    (hw : Wrote k.kernelPageTable k.tables k.taken table k.pages t) :
    Kernel.Inv I { k with pages := t } :=
  ⟨hw.space, h.mem, fun p hp ↦ hI.congr (h.image p hp) (hw.raw _ (h.mem p hp)), h.apart⟩

omit hI in
/-- A process with a new table may be added. -/
theorem Kernel.Inv.add (h : k.Inv I) (hmem : c.pageTable ∈ k.tables)
    (himage : I k.pages c.pageTable c.memorySize)
    (hnew : ∀ p ∈ k.processes, p.pageTable ≠ c.pageTable) :
    Kernel.Inv I { k with processes := k.processes ++ [c] } := by
  refine ⟨h.space, ?_, ?_, ?_⟩
  · intro p hp
    rcases List.mem_append.mp hp with hp | hp
    · exact h.mem p hp
    · rw [List.mem_singleton.mp hp]
      exact hmem
  · intro p hp
    rcases List.mem_append.mp hp with hp | hp
    · exact h.image p hp
    · rw [List.mem_singleton.mp hp]
      exact himage
  · intro i j p q hi hj heq
    have hother : ∀ {n : Nat} {r : Process}, (k.processes ++ [c])[n]? = some r →
        (n < k.processes.length ∧ k.processes[n]? = some r) ∨
          n = k.processes.length ∧ r = c := by
      intro n r hn
      rw [List.getElem?_append] at hn
      split at hn
      · next hlt => exact .inl ⟨hlt, hn⟩
      · have hlen := (List.getElem?_eq_some_iff.mp hn).1
        rw [List.length_singleton] at hlen
        have hzero : n - k.processes.length = 0 := by omega
        rw [hzero] at hn
        exact .inr ⟨by omega, (Option.some.inj hn).symm⟩
    rcases hother hi with ⟨-, hp⟩ | ⟨hi', rfl⟩ <;> rcases hother hj with ⟨-, hq⟩ | ⟨hj', rfl⟩
    · exact h.apart i j p q hp hq heq
    · exact absurd heq (hnew p (List.mem_of_getElem? hp))
    · exact absurd heq.symm (hnew q (List.mem_of_getElem? hq))
    · exact hi'.trans hj'.symm

omit hI in
/-- A process may get another image, in its table or in a new one. -/
theorem Kernel.Inv.replace (h : k.Inv I) (hi : k.processes[i]? = some p)
    (hspace : ∃ free, Space t k.kernelPageTable k.tables k.taken free)
    (hkeep : ∀ q ∈ k.processes, q.pageTable ≠ c.pageTable → I t q.pageTable q.memorySize)
    (hmem : c.pageTable ∈ k.tables) (himage : I t c.pageTable c.memorySize)
    (hnew : c.pageTable = p.pageTable ∨ ∀ q ∈ k.processes, q.pageTable ≠ c.pageTable) :
    Kernel.Inv I { k with pages := t, processes := k.processes.set i c } := by
  have hset : ∀ {n : Nat} {r : Process}, (k.processes.set i c)[n]? = some r →
      (n = i ∧ r = c) ∨ n ≠ i ∧ k.processes[n]? = some r := by
    intro n r hn
    rw [List.getElem?_set] at hn
    split at hn
    · next he =>
      split at hn
      · exact .inl ⟨he.symm, (Option.some.inj hn).symm⟩
      · cases hn
    · next hne => exact .inr ⟨fun he ↦ hne he.symm, hn⟩
  have hfar : ∀ {n : Nat} {r : Process}, n ≠ i → k.processes[n]? = some r →
      r.pageTable ≠ c.pageTable := by
    intro n r hne hn heq
    rcases hnew with hc | hc
    · exact hne (h.apart n i r p hn hi (heq.trans hc))
    · exact hc r (List.mem_of_getElem? hn) heq
  refine ⟨hspace, ?_, ?_, ?_⟩
  · intro q hq
    rcases List.mem_or_eq_of_mem_set hq with hq | rfl
    · exact h.mem q hq
    · exact hmem
  · intro q hq
    obtain ⟨n, hn⟩ := List.getElem?_of_mem hq
    rcases hset hn with ⟨-, rfl⟩ | ⟨hne, hq⟩
    · exact himage
    · exact hkeep q (List.mem_of_getElem? hq) (hfar hne hq)
  · intro n m q r hn hm heq
    rcases hset hn with ⟨hn', rfl⟩ | ⟨hne, hq⟩ <;> rcases hset hm with ⟨hm', rfl⟩ | ⟨hne', hr⟩
    · exact hn'.trans hm'.symm
    · exact absurd heq.symm (hfar hne' hr)
    · exact absurd heq (hfar hne hq)
    · exact h.apart n m q r hq hr heq

/-! ### Steps -/

/-- The child of a fork. -/
structure Forked (k : Kernel φ) (parent child : Process) (k' : Kernel φ) : Prop where
  processes : k'.processes = k.processes ++ [child]
  size : child.memorySize = parent.memorySize
  pages : ∀ n < userPages, v (k'.pages.raw child.pageTable n) = true ↔
    n < pageCount parent.memorySize ∧ v (k.pages.raw parent.pageTable n) = true
  copied : Copied parent.pageTable child.pageTable 0 (pageCount parent.memorySize) k.pages k'.pages
  fresh : ∀ q ∈ k'.processes, ∀ n < pageCount parent.memorySize, ∀ m < userPages,
    v (k'.pages.raw q.pageTable m) = true →
      toPhysicalAddress (k'.pages.raw child.pageTable n) =
        toPhysicalAddress (k'.pages.raw q.pageTable m) → q = child ∧ n = m
  raw : ∀ q ∈ k.processes, ∀ n < 2 ^ 26,
    k'.pages.raw q.pageTable n = k.pages.raw q.pageTable n
  memory : ∀ q ∈ k.processes, ∀ n < userPages, v (k.pages.raw q.pageTable n) = true →
    k'.pages.memory (toPhysicalAddress (k.pages.raw q.pageTable n)) =
      k.pages.memory (toPhysicalAddress (k.pages.raw q.pageTable n))

/-- A new process and the copy of the memory of another. -/
theorem Kernel.Inv.copy (h : k.Inv I) (hp : p ∈ k.processes)
    (hc : Process.construct k = .ok (c, k')) :
    Ends (· = Page.outOfMemory)
      (fun t ↦ Kernel.Inv I { k' with
          pages := t
          processes := k'.processes ++ [{ c with memorySize := p.memorySize }] } ∧
        Forked k p { c with memorySize := p.memorySize } { k' with
          pages := t
          processes := k'.processes ++ [{ c with memorySize := p.memorySize }] })
      (copyUserVirtualMemory p.pageTable c.pageTable p.memorySize k'.pages) := by
  have hU := userPages_eq
  obtain ⟨free, hs⟩ := h.space
  obtain ⟨hnew, hmem, hker, hproc, hsince, hnone⟩ := (Process.construct_since hs).of_ok hc
  have hwhole := hI.whole (h.image p hp)
  have hle := hwhole.1
  obtain ⟨free', hs'⟩ := hsince.space
  have hne : p.pageTable ≠ c.pageTable := fun he ↦ hnew (he ▸ h.mem p hp)
  have hwhole' : k'.pages.Whole p.pageTable p.memorySize :=
    hwhole.congr (hsince.raw _ (h.mem p hp))
  refine (copyUserVirtualMemory_extends hs' (hsince.keepTables (h.mem p hp)) hmem hne hwhole'
    ⟨hle, fun n _ hn ↦ hnone n (by omega)⟩).imp ?_
  rintro t ⟨free'', hext, hcopied⟩
  have hall : Since k.kernelPageTable k.tables k.taken k.pages k'.tables k'.taken t :=
    hsince.extends hext hnew
  have hpages : Kernel.Inv I { k' with pages := t } := h.since hI hall hker hproc
  have himage : t.Exact c.pageTable p.memorySize := by
    refine ⟨hle, fun n hn ↦ ⟨fun hv ↦ ?_, fun hlt ↦ (hext.fresh n (Nat.zero_le n) hlt).1⟩⟩
    by_contra hge
    rw [hext.raw c.pageTable hmem n (by omega) (by omega), hnone n hn] at hv
    cases hv
  have hinv := hpages.add (c := { c with memorySize := p.memorySize }) hmem (hI.exact himage)
    fun q hq ↦ by
      change q ∈ k'.processes at hq
      rw [hproc] at hq
      exact fun he ↦ hnew (he ▸ h.mem q hq)
  have hframe : ∀ q ∈ k.processes, ∀ n < userPages, v (k.pages.raw q.pageTable n) = true →
      k.pages.Used k.tables k.taken (toPhysicalAddress (k.pages.raw q.pageTable n)) :=
    fun q hq n hn hv ↦ .inr ⟨q.pageTable, h.mem q hq, n, hn, hv, rfl⟩
  refine ⟨hinv, by rw [hproc], rfl, fun n hn ↦ (himage.2 n hn).trans ?_, ?_, ?_,
    fun q hq ↦ hall.raw _ (h.mem q hq), fun q hq n hn hv ↦ hall.memory _ (hframe q hq n hn hv)⟩
  · exact ⟨fun hlt ↦ ⟨hlt, hwhole.2 n hlt⟩, fun hlt ↦ hlt.1⟩
  · intro n _ hn
    have hkeep := hsince.raw p.pageTable (h.mem p hp) n (by omega)
    have hbytes := hsince.memory _ (hframe p hp n (by omega) (hwhole.2 n hn))
    have hcopy := hcopied n (Nat.zero_le n) hn
    rw [hkeep, hbytes] at hcopy
    exact hcopy
  · intro q hq n hn m hm hv heq
    obtain ⟨i, hi⟩ := List.getElem?_of_mem hq
    obtain ⟨free₃, hs₃⟩ := hinv.space
    obtain ⟨htable, hnm⟩ := hs₃.distinct c.pageTable hmem q.pageTable (hinv.mem q hq) n
      (by omega) m hm (himage.whole.2 n hn) hv heq
    have hlast : (k'.processes ++ [{ c with memorySize := p.memorySize }])[k'.processes.length]? =
        some { c with memorySize := p.memorySize } := List.getElem?_concat_length
    have hidx := hinv.apart i _ q _ hi hlast htable.symm
    rw [hidx] at hi
    exact ⟨Option.some.inj (hi.symm.trans hlast), hnm⟩

theorem Kernel.Inv.fork (h : k.Inv I) (hp : p ∈ k.processes) (hf : p.fork k = .ok k') :
    k'.Inv I ∧ ∃ c, Forked k p c k' := by
  unfold Process.fork at hf
  cases hc : Process.construct k with
  | error e =>
    rw [hc] at hf
    cases hf
  | ok r =>
    rw [hc] at hf
    obtain ⟨t, ht, rfl⟩ := map_eq_ok hf
    obtain ⟨hinv, hforked⟩ := (h.copy hI hp hc).of_ok ht
    exact ⟨hinv, _, hforked⟩

/-- The first process. -/
theorem Kernel.Inv.init (h : k.Inv I) {code : List UInt8}
    (hf : startUserInitProcess code k = .ok k') : k'.Inv I := by
  have hU := userPages_eq
  obtain ⟨free, hs⟩ := h.space
  refine Ends.of_ok (E := fun _ ↦ True) (ends_bind (Process.construct_since hs) ?_) hf
  rintro ⟨c, k₁⟩ ⟨hnew, hmem, hker, hproc, hsince, hnone⟩
  obtain ⟨free₁, hs₁⟩ := hsince.space
  dsimp only
  rw [New.allocate, if_neg (by decide), if_pos (by decide)]
  refine ends_bind ((Page.allocate_ends hs₁.wf.pages).mono fun _ _ ↦ trivial) ?_
  rintro ⟨q, t⟩ ⟨free₂, rfl, hfree, hnot, hm⟩
  generalize memset (t.memory q) 0 4096 = c₀
  have hzero : ∀ p, p ≠ q → (t.setPage q c₀).memory p = t.memory p := fun p hp ↦ by
    rw [State.setPage_memory, Function.update_of_ne hp]
  have hpages : (t.setPage q c₀).Blank free₂ := hfree.congr rfl fun p hp ↦
    hzero p fun he ↦ hnot (he ▸ hp)
  have hother : ∀ p, p ≠ q → (t.setPage q c₀).memory p = k₁.pages.memory p := fun p hp ↦ by
    rw [hzero p hp, hm, Function.update_of_ne hp]
  refine ends_map (((hs₁.give hmem (by decide) (by decide) (by decide) hpages hother).mono
    fun _ _ ↦ trivial).imp ?_)
  rintro ⟨b, w⟩ ⟨-, free₃, -, hleaf, hext⟩
  have hframe : toPhysicalAddress (w.raw c.pageTable 0) = q := by
    have hleaf' : w.raw c.pageTable 0 = leaf _ q := hleaf
    rw [hleaf', toPhysicalAddress_leaf (by decide) (hs₁.wf.pages.aligned q (by simp))]
  have hv : v (w.raw c.pageTable 0) = true := (hext.fresh 0 (Nat.le_refl _) (Nat.lt_succ_self _)).1
  have hfill := hext.space.filled hmem (n := 0) (by decide) hv 0 code
  rw [hframe] at hfill
  have hall := (hsince.extends hext hnew).wrote hfill hmem hnew
  have hinv : Kernel.Inv I { k₁ with pages := w.fill q 0 code } := h.since hI hall hker hproc
  have hone : pageCount PAGE_SIZE = 1 := by decide
  have hzeroSize : pageCount 0 = 0 := by decide
  have hempty : k₁.pages.Exact c.pageTable 0 := by
    rw [State.Exact, hzeroSize]
    refine ⟨Nat.zero_le _, fun n hn ↦ ?_⟩
    rw [hnone n hn]
    simp
  have himage : (w.fill q 0 code).Exact c.pageTable PAGE_SIZE := by
    refine State.Exact.congr (s := w) ?_ (hfill.raw c.pageTable hmem)
    have hext' : Extends k.kernelPageTable k₁.tables k₁.taken c.pageTable (pageCount 0)
        (pageCount PAGE_SIZE) k₁.pages w (q :: free₂) free₃ := by
      rw [hone, hzeroSize]
      exact hext
    exact hext'.exact hmem hempty (Nat.zero_le _) fun _ ↦ by decide
  refine hinv.add (c := { c with memorySize := PAGE_SIZE }) hmem (hI.exact himage) fun p hp ↦ ?_
  change p ∈ k₁.processes at hp
  rw [hproc] at hp
  exact fun he ↦ hnew (he ▸ h.mem p hp)

/-- `exec` gives a process an image in a new table, or fails. -/
theorem Kernel.Inv.exec (h : k.Inv I) {F : Files φ ι} (hi : k.processes[i]? = some p)
    {path : Syscall.CString} {argv : List Syscall.CString}
    (hf : p.exec F path argv k = some (c, k')) :
    Kernel.Inv I { k' with processes := k'.processes.set i c } := by
  obtain ⟨free, hs⟩ := h.space
  unfold Process.exec at hf
  dsimp only at hf
  rw [Option.map_eq_some_iff] at hf
  obtain ⟨a, ha, hr⟩ := hf
  have himage := (exec_image (k := p.enter k) hs).of_runs ⟨ha, rfl, fun _ _ ↦ trivial⟩
  cases hr
  obtain ⟨hsince, hold⟩ := himage
  have hinv : Kernel.Inv I { k with
      pages := _
      tables := _
      files := (Syscall.Elf.exec (rest F k.trampoline p.trapFrame) path argv
        (p.enter k)).state.world.files } := h.since hI hsince rfl rfl
  rcases hold with hold | ⟨hmem, hnew, himage⟩
  · have htable := congrArg Prod.fst hold
    have hsize := congrArg Prod.snd hold
    dsimp only at htable hsize
    refine hinv.replace hi hinv.space (fun q hq _ ↦ hinv.image q hq) ?_ ?_ (.inl htable)
    · rw [htable]
      exact hinv.mem p (List.mem_of_getElem? hi)
    · rw [htable, hsize]
      exact hinv.image p (List.mem_of_getElem? hi)
  · refine hinv.replace hi hinv.space (fun q hq _ ↦ hinv.image q hq) hmem (hI.exact himage)
      (.inr fun q hq he ↦ hnew ?_)
    have hq' := h.mem q hq
    rw [he] at hq'
    exact hq'

omit hI in
theorem deallocateUserVirtualMemory_state (table oldSize newSize : UInt64) (s : State) :
    (deallocateUserVirtualMemory table oldSize newSize s).2 = s := by
  rw [deallocateUserVirtualMemory]
  split
  · rfl
  · split <;> rfl

omit hI in
/-- The two ways that `Process::growMemory` returns. -/
theorem Process.growMemory_cases {size kernel : UInt64} {tables taken free : List UInt64}
    (hs : Space s kernel tables taken free) (hmem : p.pageTable ∈ tables)
    (hsmall : pageCount p.memorySize ≤ userPages) (hf : p.growMemory size s = .ok (c, t)) :
    c = { p with memorySize := size } ∧
      ((size ≤ p.memorySize ∧ t = s) ∨
        p.memorySize ≤ size ∧
          (pageCount p.memorySize < pageCount size → pageCount size ≤ userPages) ∧
            ∃ free', Extends kernel tables taken p.pageTable (pageCount p.memorySize)
              (pageCount size) s t free free') := by
  have hU := userPages_eq
  have hcount : pageCount p.memorySize = (p.memorySize.toNat + 4095) / 4096 := rfl
  unfold Process.growMemory at hf
  split at hf
  · next hgt =>
    obtain ⟨r, hr, he⟩ := map_eq_ok hf
    cases he
    have hge : p.memorySize ≤ size := UInt64.le_of_lt hgt
    obtain ⟨-, hmax, hext⟩ := (allocateUserVirtualMemory_extends hs hmem (by decide)
      (by omega) hge).of_ok hr
    exact ⟨rfl, .inr ⟨hge, hmax, hext⟩⟩
  · have hle : size ≤ p.memorySize := UInt64.not_lt.mp ‹_›
    split at hf
    · rw [deallocateUserVirtualMemory_state] at hf
      cases hf
      exact ⟨rfl, .inl ⟨hle, rfl⟩⟩
    · cases hf
      exact ⟨rfl, .inl ⟨hle, rfl⟩⟩

/-- `Process::growMemory` changes no other process. -/
theorem Kernel.Inv.grow (h : k.Inv I) (hi : k.processes[i]? = some p) {size : UInt64}
    (hf : p.growMemory size k.pages = .ok (c, t)) (himage : I t c.pageTable c.memorySize) :
    Kernel.Inv I { k with pages := t, processes := k.processes.set i c } := by
  have hp := List.mem_of_getElem? hi
  obtain ⟨free, hs⟩ := h.space
  obtain ⟨rfl, ⟨-, rfl⟩ | ⟨-, -, free', hext⟩⟩ :=
    Process.growMemory_cases hs (h.mem p hp) (hI.whole (h.image p hp)).1 hf
  · exact h.replace hi ⟨free, hs⟩ (fun q hq _ ↦ h.image q hq) (h.mem p hp) himage (.inl rfl)
  · refine h.replace hi ⟨free', hext.space⟩ (fun q hq hne ↦ ?_) (h.mem p hp) himage (.inl rfl)
    exact hI.congr (h.image q hq) fun n hn ↦ hext.raw _ (h.mem q hq) n hn (.inl hne)

omit hI in
/-- The entry that the hart finds is that of a user page. -/
theorem Process.entry_eq {va : UInt64} {kernel : UInt64} {tables taken free : List UInt64}
    (h : Space s kernel tables taken free) (hmem : p.pageTable ∈ tables) :
    p.entry va s =
      if va < MAX_VIRTUAL_ADDRESS ∧ v (s.raw p.pageTable (page va)) ∧
        u (s.raw p.pageTable (page va)) then some (s.raw p.pageTable (page va)) else none := by
  by_cases hva : va < MAX_VIRTUAL_ADDRESS
  · obtain ⟨pte, hwalk, hraw⟩ := PageTable.walk_find (h.aligned hmem) hva
    rw [Process.entry, hwalk, ← hraw]
    cases pte with
    | none => simp
    | some e => simp [hva]
  · rw [Process.entry, PageTable.walk, if_neg hva, if_neg fun h ↦ hva h.1]

omit hI in
theorem Process.entry_user {va raw : UInt64} {kernel : UInt64} {tables taken free : List UInt64}
    (h : Space s kernel tables taken free) (hmem : p.pageTable ∈ tables)
    (he : p.entry va s = some raw) :
    page va < userPages ∧ v (s.raw p.pageTable (page va)) = true ∧
      raw = s.raw p.pageTable (page va) := by
  have hdef : page va = va.toNat / 4096 := rfl
  rw [Process.entry_eq h hmem] at he
  split at he
  · next hc =>
    refine ⟨?_, hc.2.1, (Option.some.inj he).symm⟩
    by_contra hge
    have hlt : va.toNat < 2 ^ 38 := UInt64.lt_iff_toNat_lt.mp hc.1
    have husr := (h.supervisor p.pageTable hmem _ (Nat.le_of_not_lt hge) (by omega)).2
    rw [hc.2.2] at husr
    cases husr
  · cases he

omit hI in
/-- A store of a process writes to a frame of its own. -/
theorem Process.store_wrote {va : UInt64} {b : UInt8} {kernel : UInt64}
    {tables taken free : List UInt64}
    (h : Space s kernel tables taken free) (hmem : p.pageTable ∈ tables)
    (hf : p.store va b s = some t) : Wrote kernel tables taken p.pageTable s t := by
  unfold Process.store at hf
  rw [Option.bind_eq_some_iff] at hf
  obtain ⟨raw, hraw, hf⟩ := hf
  obtain ⟨hn, hv, rfl⟩ := Process.entry_user h hmem hraw
  split at hf
  · cases hf
    exact h.filled hmem hn hv _ _
  · cases hf

omit hI in
/-- What is written to the frames of a table is not seen through another. -/
theorem Process.visible_wrote {table va : UInt64} {kernel : UInt64}
    {tables taken free : List UInt64}
    (h : Space s kernel tables taken free) (hmem : p.pageTable ∈ tables) (htable : table ∈ tables)
    (hne : p.pageTable ≠ table) (hw : Wrote kernel tables taken table s t) :
    p.visible va t = p.visible va s := by
  have hU := userPages_eq
  have hdef : page va = va.toNat / 4096 := rfl
  obtain ⟨free', ht⟩ := hw.space
  have hentry : p.entry va t = p.entry va s := by
    rw [Process.entry_eq h hmem, Process.entry_eq ht hmem]
    by_cases hva : va.toNat < 2 ^ 38
    · rw [hw.raw p.pageTable hmem (page va) (by omega)]
    · have hge : ¬ va < MAX_VIRTUAL_ADDRESS := fun hlt ↦ hva (UInt64.lt_iff_toNat_lt.mp hlt)
      rw [if_neg fun h ↦ hge h.1, if_neg fun h ↦ hge h.1]
  rw [Process.visible, Process.visible, hentry]
  cases he : p.entry va s with
  | none => rfl
  | some raw =>
    obtain ⟨hn, hv, rfl⟩ := Process.entry_user h hmem he
    rw [Option.map_some, Option.map_some, hw.memory _ (h.not_backs htable hmem hne hn hv)]

/-- Every step keeps what holds between the steps. -/
theorem Kernel.Inv.step {F : Files φ ι} (h : k.Inv I) {e : Happening} (hown : k.Own e)
    (hgrow : ∀ i p size c t, e = .grow i size → k.processes[i]? = some p →
      p.growMemory size k.pages = .ok (c, t) → I t c.pageTable c.memorySize)
    (hf : k.step F e = some k') : k'.Inv I := by
  obtain ⟨free, hs⟩ := h.space
  cases e with
  | init code => exact h.init hI (of_toOption hf)
  | fork i =>
    obtain ⟨p, hp, hf⟩ := Option.bind_eq_some_iff.mp hf
    exact (h.fork hI (List.mem_of_getElem? hp) (of_toOption hf)).1
  | exec i path argv =>
    obtain ⟨p, hp, hf⟩ := Option.bind_eq_some_iff.mp hf
    obtain ⟨r, hr, rfl⟩ := Option.map_eq_some_iff.mp hf
    exact h.exec hI hp hr
  | grow i size =>
    obtain ⟨p, hp, hf⟩ := Option.bind_eq_some_iff.mp hf
    obtain ⟨r, hr, rfl⟩ := Option.map_eq_some_iff.mp hf
    exact h.grow hI hp (of_toOption hr) (hgrow i p size _ _ rfl hp (of_toOption hr))
  | store i va b =>
    obtain ⟨p, hp, hf⟩ := Option.bind_eq_some_iff.mp hf
    obtain ⟨t, ht, rfl⟩ := Option.map_eq_some_iff.mp hf
    exact h.wrote hI (Process.store_wrote hs (h.mem p (List.mem_of_getElem? hp)) ht)
  | copyout i dst src =>
    obtain ⟨p, hp, hf⟩ := Option.bind_eq_some_iff.mp hf
    obtain ⟨r, hr, rfl⟩ := Option.map_eq_some_iff.mp hf
    have hmem := h.mem p (List.mem_of_getElem? hp)
    exact h.wrote hI ((PageTable.copyoutFrom_wrote hs hmem).of_ok (of_toOption hr))
  | take =>
    obtain ⟨r, hr, rfl⟩ := Option.map_eq_some_iff.mp hf
    obtain ⟨-, -, hsince⟩ := (Page.allocate_since hs).of_ok (of_toOption hr)
    exact h.since hI hsince rfl rfl
  | write page c =>
    cases hf
    obtain ⟨hspace, hraw⟩ := hs.write (t := k.pages.setPage page c) (.inl hown) rfl fun m hm ↦ by
      rw [State.setPage_memory, Function.update_of_ne hm]
    exact ⟨⟨free, hspace⟩, h.mem, fun p hp ↦ hI.congr (h.image p hp) (hraw _ (h.mem p hp)), h.apart⟩

end

end Orfos.Memory
