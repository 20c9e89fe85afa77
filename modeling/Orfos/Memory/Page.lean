import Mathlib.Data.List.Nodup
import Orfos.Base.Ends
import Orfos.Base.Words

/-!
# Physical pages

`kernel/memory/page.h` and `kernel/memory/page.cpp`. Physical memory is a map from the address
of a page to its bytes. The free list runs through the free pages: the first word of each is
the address of the next. Every critical section of the mutex of the list is one step.
-/

namespace Orfos.Memory

open Orfos.Base

/-- Why the kernel stops: a failed assertion, or a call of `lib::panic`. -/
inductive Halt where
  | assert (condition : String)
  | panic (message : String)
  deriving DecidableEq

/-- `PAGE_SIZE`. -/
abbrev PAGE_SIZE : UInt64 := 4096

/-- `KERNEL_BASE` of `kernel/arch/config.h`. -/
abbrev KERNEL_BASE : UInt64 := 0x80000000

/-- `Page::physicalAddressStop`. -/
abbrev physicalAddressStop : UInt64 := KERNEL_BASE + 128 * 1024 * 1024

/-- The bytes of a page. -/
abbrev Contents := Fin 4096 → UInt8

/-- A page of zero bytes. -/
def zeros : Contents := fun _ ↦ 0

/-- `memset` of `n > 0` bytes of a page, `kernel/lib/string.cpp`: `while (--n)` ends one byte
early. -/
def memset (c : Contents) (ch : UInt8) (n : Nat) : Contents := putBytes c 0 (n - 1) fun _ ↦ ch

/-- Physical memory and the variables of `Page`. `kernelPages` is the symbol of the linker
script where the free pages start. -/
structure State where
  memory : UInt64 → Contents
  freeList : UInt64
  lastPage : UInt64
  kernelPages : UInt64

namespace State

/-- Replace the bytes of a page. -/
def setPage (s : State) (page : UInt64) (c : Contents) : State :=
  { s with memory := Function.update s.memory page c }

/-- The word at an aligned physical address. -/
def load (s : State) (address : UInt64) : UInt64 :=
  getU64 (s.memory (address &&& ~~~ (PAGE_SIZE - 1))) (address.toNat % 4096)

/-- Store a word at an aligned physical address. -/
def store (s : State) (address value : UInt64) : State :=
  s.setPage (address &&& ~~~ (PAGE_SIZE - 1))
    (putU64 (s.memory (address &&& ~~~ (PAGE_SIZE - 1))) (address.toNat % 4096) value)

/-- Clear a page and put it in front of the free list. -/
def push (s : State) (page : UInt64) : State :=
  { s.setPage page (putU64 (memset (s.memory page) 0 4096) 0 s.freeList) with freeList := page }

end State

namespace Page

/-- The loop of `Page::initialize` from a page. The fuel bounds the number of its rounds. -/
def initializeFrom : Nat → UInt64 → State → State
  | 0, _, s => s
  | fuel + 1, page, s =>
    if page < s.lastPage then initializeFrom fuel (page + PAGE_SIZE) (s.push page) else s

/-- `Page::initialize`. -/
def initializePages (s : State) : State :=
  initializeFrom (physicalAddressStop / PAGE_SIZE).toNat s.kernelPages
    { s with lastPage := physicalAddressStop }

/-- The `panic` of `Page::allocate`. -/
abbrev outOfMemory : Halt := .panic "Page not allocated. Out of memory."

/-- `Page::allocate`. -/
def allocate (s : State) : Except Halt (UInt64 × State) :=
  let page := s.freeList
  if page ≠ 0 then
    .ok (page, { s.setPage page (memset (s.memory page) 0 4096) with
      freeList := getU64 (s.memory page) 0 })
  else
    .error outOfMemory

/-- `Page::free`. -/
def free (page : UInt64) (s : State) : Except Halt State :=
  if page % PAGE_SIZE ≠ 0 then .error (.assert "reinterpret_cast<uint64_t>(this) % PAGE_SIZE == 0")
  else if page < s.kernelPages then .error (.assert "this >= kernelPages")
  else if ¬ page < s.lastPage then .error (.assert "this < lastPage")
  else .ok (s.push page)

end Page

/-- The pages of the free list that starts at a page. -/
def Linked (memory : UInt64 → Contents) : UInt64 → List UInt64 → Prop
  | head, [] => head = 0
  | head, p :: ps => head = p ∧ p ≠ 0 ∧ Linked memory (getU64 (memory p) 0) ps

/-- The free list holds the pages `free`, each of them once. -/
structure State.Free (s : State) (free : List UInt64) : Prop where
  linked : Linked s.memory s.freeList free
  nodup : free.Nodup
  aligned : ∀ p ∈ free, p.toNat % 4096 = 0

section

variable {s : State} {free : List UInt64} {p q : UInt64} {c : Contents}

@[simp] theorem State.setPage_memory (s : State) (p : UInt64) (c : Contents) :
    (s.setPage p c).memory = Function.update s.memory p c := rfl

@[simp] theorem State.setPage_freeList (s : State) (p : UInt64) (c : Contents) :
    (s.setPage p c).freeList = s.freeList := rfl

/-- The free list depends on the bytes of its pages only. -/
theorem Linked.congr {memory memory' : UInt64 → Contents} {head : UInt64}
    (h : Linked memory head free) (hm : ∀ p ∈ free, memory' p = memory p) :
    Linked memory' head free := by
  induction free generalizing head with
  | nil => exact h
  | cons p ps ih =>
    obtain ⟨hp, h0, hr⟩ := h
    refine ⟨hp, h0, ?_⟩
    rw [hm p (by simp)]
    exact ih hr fun q hq ↦ hm q (by simp [hq])

theorem Linked.ne_zero {memory : UInt64 → Contents} {head : UInt64}
    (h : Linked memory head free) (hp : p ∈ free) : p ≠ 0 := by
  induction free generalizing head with
  | nil => cases hp
  | cons q ps ih =>
    obtain ⟨-, h0, hr⟩ := h
    rcases List.mem_cons.mp hp with rfl | hp
    · exact h0
    · exact ih hr hp

/-- A change of other pages leaves the free list alone. -/
theorem State.Free.congr {s' : State} (h : s.Free free) (hl : s'.freeList = s.freeList)
    (hm : ∀ p ∈ free, s'.memory p = s.memory p) : s'.Free free :=
  ⟨by rw [hl]; exact h.linked.congr hm, h.nodup, h.aligned⟩

/-- The result of `Page::allocate` on a free list that is not empty. -/
theorem Page.allocate_cons (h : s.Free (p :: free)) :
    ∃ s', Page.allocate s = .ok (p, s') ∧ s'.Free free ∧ p ∉ free ∧
      s'.memory = Function.update s.memory p (memset (s.memory p) 0 4096) ∧
      s'.lastPage = s.lastPage ∧ s'.kernelPages = s.kernelPages := by
  obtain ⟨hp, h0, hr⟩ := h.linked
  obtain ⟨hnot, hnodup⟩ := List.nodup_cons.mp h.nodup
  refine ⟨{ s.setPage p (memset (s.memory p) 0 4096) with freeList := getU64 (s.memory p) 0 },
    by rw [Page.allocate, hp, if_pos h0], ⟨?_, hnodup, ?_⟩, hnot, rfl, rfl, rfl⟩
  · refine hr.congr fun q hq ↦ Function.update_of_ne ?_ _ _
    rintro rfl
    exact hnot hq
  · exact fun q hq ↦ h.aligned q (by simp [hq])

theorem Page.allocate_nil (h : s.Free []) : Page.allocate s = .error outOfMemory := by
  have h0 : s.freeList = 0 := h.linked
  rw [Page.allocate, h0]
  rfl

/-- `memset` clears a page that ends in a zero byte. -/
theorem memset_eq_zeros {c : Contents} (h : byteAt c 4095 = 0) : memset c 0 4096 = zeros := by
  funext k
  have hk := k.isLt
  by_cases hlast : k.val = 4095
  · have hbyte : c k = 0 := by
      rw [← h, byteAt, dif_pos (by omega)]
      exact congrArg c (Fin.ext hlast)
    rw [memset, putBytes, if_neg (by omega), hbyte]
    rfl
  · rw [memset, putBytes, if_pos (by omega)]
    rfl

/-- `memset` leaves the last byte of a page as it is. -/
theorem byteAt_memset (c : Contents) (ch : UInt8) :
    byteAt (memset c ch 4096) 4095 = byteAt c 4095 := by
  rw [memset, byteAt_putBytes _ _ _ _ _ (by decide), if_neg (by decide)]

/-- The last bytes of the free pages are zero, as memory is when the machine is switched on:
`memset` does not clear them. -/
structure State.Blank (s : State) (free : List UInt64) : Prop extends s.Free free where
  clean : ∀ p ∈ free, byteAt (s.memory p) 4095 = 0

theorem State.Blank.congr {s' : State} (h : s.Blank free) (hl : s'.freeList = s.freeList)
    (hm : ∀ p ∈ free, s'.memory p = s.memory p) : s'.Blank free :=
  ⟨h.toFree.congr hl hm, fun p hp ↦ by rw [hm p hp, h.clean p hp]⟩

/-- The result of `Page::allocate` where the free pages are blank. -/
theorem Page.allocate_blank (h : s.Blank (p :: free)) :
    ∃ s', Page.allocate s = .ok (p, s') ∧ s'.Blank free ∧ p ∉ free ∧
      s'.memory = Function.update s.memory p zeros := by
  obtain ⟨s', hs, hfree, hnot, hm, -⟩ := Page.allocate_cons h.toFree
  rw [memset_eq_zeros (h.clean p (by simp))] at hm
  refine ⟨s', hs, ⟨hfree, fun q hq ↦ ?_⟩, hnot, hm⟩
  have hne : q ≠ p := fun he ↦ hnot (he ▸ hq)
  rw [hm, Function.update_of_ne hne, h.clean q (by simp [hq])]

/-- `Page::allocate` takes the first free page. -/
theorem Page.allocate_ends (h : s.Blank free) :
    Ends (· = Page.outOfMemory)
      (fun w ↦ ∃ free', free = w.1 :: free' ∧ w.2.Blank free' ∧ w.1 ∉ free' ∧
        w.2.memory = Function.update s.memory w.1 zeros)
      (Page.allocate s) := by
  cases free with
  | nil =>
    rw [Page.allocate_nil h.toFree]
    rfl
  | cons q free =>
    obtain ⟨t, ht, hfree, hnot, hmem⟩ := Page.allocate_blank h
    rw [ht]
    exact ⟨free, rfl, hfree, hnot, hmem⟩

/-- A page that is not on the free list may be pushed. -/
theorem State.Free.push (h : s.Free free) (h0 : p ≠ 0) (hp : p.toNat % 4096 = 0)
    (hnot : p ∉ free) : (s.push p).Free (p :: free) := by
  refine ⟨⟨rfl, h0, ?_⟩, List.nodup_cons.mpr ⟨hnot, h.nodup⟩, ?_⟩
  · have hnext : getU64 ((s.push p).memory p) 0 = s.freeList := by
      rw [State.push, State.setPage_memory, Function.update_self]
      exact getU64_putU64_same _ _ (by decide)
    rw [hnext]
    refine h.linked.congr fun q hq ↦ Function.update_of_ne ?_ _ _
    rintro rfl
    exact hnot hq
  · intro q hq
    rcases List.mem_cons.mp hq with rfl | hq
    · exact hp
    · exact h.aligned q hq

end

end Orfos.Memory
