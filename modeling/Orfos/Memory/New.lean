import Orfos.Base.Guarded
import Orfos.Memory.Page

/-!
# The kernel heap

`allocate` of `kernel/lib/new.cpp`, which `operator new` and `operator new[]` call. A request
is served from whole pages. `Page::initialize` leaves the highest page in front of the free
list, so the pages of one request come in descending order, while the address that is
returned is that of the first one.

The requests served are kept as a history.
-/

namespace Orfos.Memory

open Orfos.Base

namespace New

/-- The loop of `allocate` from an offset. The fuel bounds the number of its rounds. -/
def allocateFrom (limit : UInt64) : Nat → UInt64 → State → Except Halt State
  | 0, _, s => .ok s
  | fuel + 1, offset, s =>
    if offset < limit then
      (Page.allocate s).bind fun r ↦ allocateFrom limit fuel (offset + PAGE_SIZE) r.2
    else .ok s

/-- `allocate`. -/
def allocate (size : UInt64) (s : State) : Except Halt (UInt64 × State) :=
  if ¬ size > 0 then .error (.assert "size > 0")
  else if size ≤ PAGE_SIZE then Page.allocate s
  else
    (Page.allocate s).bind fun r ↦
      let limit := (size + PAGE_SIZE - 1) / PAGE_SIZE * PAGE_SIZE
      (allocateFrom limit (limit / PAGE_SIZE).toNat PAGE_SIZE r.2).map fun t ↦ (r.1, t)

end New

/-- A page on the free list. -/
def State.IsFree (s : State) (page : UInt64) : Prop := ∃ free, s.Free free ∧ page ∈ free

/-- A request that was served: the range it was given, and the states around it. -/
structure Request where
  address : UInt64
  size : UInt64
  before : State
  after : State

namespace Request

/-- The request took a page off the free list. -/
def Took (r : Request) (page : UInt64) : Prop := r.before.IsFree page ∧ ¬ r.after.IsFree page

/-- Every byte of the range lies in a page that the request took. -/
def Inside (r : Request) : Prop :=
  ∀ a, r.address.toNat ≤ a → a < r.address.toNat + r.size.toNat →
    ∃ page, r.Took page ∧ page.toNat ≤ a ∧ a < page.toNat + 4096

/-- Two ranges have no byte in common. -/
def Apart (r r' : Request) : Prop :=
  r.address.toNat + r.size.toNat ≤ r'.address.toNat ∨
    r'.address.toNat + r'.size.toNat ≤ r.address.toNat

end Request

/-- The allocator and the requests that it has served. -/
structure Heap where
  pages : State
  requests : List Request

/-- A request of the kernel heap, or a page taken by another part of the kernel. -/
inductive Event where
  | new (size : UInt64)
  | page
  deriving DecidableEq

namespace Heap

/-- One request. The kernel stops if there is no page left or the size is 0. -/
def step (h : Heap) : Event → Option Heap
  | .new size =>
    match New.allocate size h.pages with
    | .ok (address, t) => some ⟨t, h.requests ++ [⟨address, size, h.pages, t⟩]⟩
    | .error _ => none
  | .page =>
    match Page.allocate h.pages with
    | .ok (_, t) => some { h with pages := t }
    | .error _ => none

/-- The heap after `Page::initialize`. -/
def boot (s : State) : Heap := ⟨Page.initializePages s, []⟩

/-- Each range lies inside the pages of its request and meets no earlier one. -/
def Disjoint (h : Heap) : Prop :=
  (∀ r ∈ h.requests, r.Inside) ∧ h.requests.Pairwise Request.Apart

end Heap

/-- Where the linker script puts the free pages. -/
def State.Placed (s : State) : Prop :=
  s.kernelPages.toNat % 4096 = 0 ∧ KERNEL_BASE ≤ s.kernelPages

section

variable {s t : State} {free free' : List UInt64} {p q size : UInt64}

theorem Linked.unique {memory : UInt64 → Contents} {head : UInt64} (h : Linked memory head free)
    (h' : Linked memory head free') : free = free' := by
  induction free generalizing head free' with
  | nil =>
    cases free' with
    | nil => rfl
    | cons p ps =>
      obtain ⟨hp, h0, -⟩ := h'
      exact absurd (hp.symm.trans h) h0
  | cons p ps ih =>
    obtain ⟨hp, h0, hr⟩ := h
    cases free' with
    | nil => exact absurd (hp.symm.trans h') h0
    | cons q qs =>
      obtain ⟨hq, -, hr'⟩ := h'
      have hpq : p = q := hp.symm.trans hq
      subst hpq
      rw [ih hr hr']

theorem State.Free.isFree_iff (h : s.Free free) : s.IsFree p ↔ p ∈ free :=
  ⟨fun ⟨_, hf, hp⟩ ↦ h.linked.unique hf.linked ▸ hp, fun hp ↦ ⟨free, h, hp⟩⟩

/-- A free list in descending order. -/
structure State.Descending (s : State) (free : List UInt64) : Prop extends s.Free free where
  sorted : free.Pairwise (· > ·)

theorem Page.allocate_descending (h : s.Descending free) :
    Ends (· = Page.outOfMemory)
      (fun r ↦ ∃ rest, free = r.1 :: rest ∧ r.2.Descending rest) (Page.allocate s) := by
  cases free with
  | nil =>
    rw [Page.allocate_nil h.toFree]
    rfl
  | cons p rest =>
    obtain ⟨t, ht, hfree, -⟩ := Page.allocate_cons h.toFree
    rw [ht]
    exact ⟨rest, rfl, hfree, (List.pairwise_cons.mp h.sorted).2⟩

theorem New.allocateFrom_descending (limit offset : UInt64) (fuel : Nat) (h : s.Descending free) :
    Ends (· = Page.outOfMemory) (fun t ↦ ∃ rest, rest <:+ free ∧ t.Descending rest)
      (New.allocateFrom limit fuel offset s) := by
  induction fuel generalizing offset s free with
  | zero => exact ⟨free, List.suffix_refl _, h⟩
  | succ fuel ih =>
    unfold New.allocateFrom
    split
    · refine ends_bind (Page.allocate_descending h) ?_
      rintro ⟨p, t⟩ ⟨rest, rfl, ht⟩
      refine (ih _ ht).imp ?_
      rintro u ⟨rest', hs, hu⟩
      exact ⟨rest', hs.trans (List.suffix_cons p rest), hu⟩
    · exact ⟨free, List.suffix_refl _, h⟩

/-- What a request gets: the page in front of the free list, and only that page if the size
fits into it. -/
theorem New.allocate_descending (h : s.Descending free) :
    Ends (fun _ ↦ True)
      (fun r ↦ ∃ rest rest', free = r.1 :: rest ∧ rest' <:+ rest ∧ r.2.Descending rest' ∧
        (size ≤ PAGE_SIZE → rest' = rest)) (New.allocate size s) := by
  have hfirst : Ends (fun _ ↦ True) _ _ := (Page.allocate_descending h).mono fun _ _ ↦ trivial
  unfold New.allocate
  split
  · trivial
  · split
    · refine hfirst.imp ?_
      rintro ⟨p, t⟩ ⟨rest, rfl, ht⟩
      exact ⟨rest, rest, rfl, List.suffix_refl _, ht, fun _ ↦ rfl⟩
    · next hsize =>
      refine ends_bind hfirst ?_
      rintro ⟨p, t⟩ ⟨rest, rfl, ht⟩
      have hmore := New.allocateFrom_descending ((size + PAGE_SIZE - 1) / PAGE_SIZE * PAGE_SIZE)
        PAGE_SIZE ((size + PAGE_SIZE - 1) / PAGE_SIZE * PAGE_SIZE / PAGE_SIZE).toNat ht
      change Ends _ _ (Except.map _ (New.allocateFrom _ _ _ t))
      cases hc : New.allocateFrom _ _ _ t with
      | error e => trivial
      | ok u =>
        obtain ⟨rest', hs, hu⟩ := hmore.of_ok hc
        exact ⟨rest, rest', rfl, hs, hu, fun hle ↦ absurd hle hsize⟩

theorem State.Descending.push (h : s.Descending free) (h0 : p ≠ 0) (hp : p.toNat % 4096 = 0)
    (hlt : ∀ q ∈ free, q < p) : (s.push p).Descending (p :: free) where
  toFree := h.toFree.push h0 hp fun hmem ↦ UInt64.lt_irrefl p (hlt p hmem)
  sorted := List.pairwise_cons.mpr ⟨hlt, h.sorted⟩

/-- The pages that are put on the free list: those from an address on that lie in memory. -/
def InMemory (start page : UInt64) : Prop :=
  page.toNat % 4096 = 0 ∧ start ≤ page ∧ page < physicalAddressStop

theorem inMemory_iff (hp : p.toNat % 4096 = 0) (hstop : p < physicalAddressStop) :
    InMemory p q ↔ q = p ∨ InMemory (p + PAGE_SIZE) q := by
  have hstop' : p.toNat < 0x88000000 := hstop
  have hnext : (p + PAGE_SIZE).toNat = p.toNat + 4096 := by
    rw [UInt64.toNat_add]
    exact Nat.mod_eq_of_lt (by change p.toNat + 4096 < _; omega)
  rw [InMemory, InMemory, ← UInt64.toNat_inj, UInt64.le_iff_toNat_le, UInt64.le_iff_toNat_le, hnext]
  constructor
  · rintro ⟨hal, hle, hlt⟩
    by_cases he : q.toNat = p.toNat
    · exact .inl he
    · exact .inr ⟨hal, by omega, hlt⟩
  · rintro (he | ⟨hal, hle, hlt⟩)
    · exact ⟨he ▸ hp, he.ge, by rwa [UInt64.toNat_inj.mp he]⟩
    · exact ⟨hal, by omega, hlt⟩

theorem Page.initializeFrom_descending (fuel : Nat) (h : s.Descending free)
    (hlast : s.lastPage = physicalAddressStop) (h0 : p ≠ 0) (hp : p.toNat % 4096 = 0)
    (hlt : ∀ q ∈ free, q < p) (hfuel : physicalAddressStop.toNat ≤ p.toNat + 4096 * fuel) :
    ∃ free', (Page.initializeFrom fuel p s).Descending free' ∧
      ∀ q, q ∈ free' ↔ q ∈ free ∨ InMemory p q := by
  have hend (hstop : ¬ p < physicalAddressStop) (q : UInt64) : ¬ InMemory p q :=
    fun ⟨_, hle, hq⟩ ↦ hstop (UInt64.lt_of_le_of_lt hle hq)
  induction fuel generalizing p s free with
  | zero =>
    have hstop : ¬ p < physicalAddressStop := by
      rw [UInt64.lt_iff_toNat_lt]
      omega
    exact ⟨free, h, fun q ↦ by simp [hend hstop q]⟩
  | succ fuel ih =>
    unfold Page.initializeFrom
    rw [hlast]
    split
    · next hstop =>
      have hstop' : p.toNat < 0x88000000 := hstop
      have hnext : (p + PAGE_SIZE).toNat = p.toNat + 4096 := by
        rw [UInt64.toNat_add]
        exact Nat.mod_eq_of_lt (by change p.toNat + 4096 < _; omega)
      obtain ⟨free', hfree', hmem⟩ := ih (p := p + PAGE_SIZE) (h.push h0 hp hlt) hlast
        (by
          intro hzero
          have hz := congrArg UInt64.toNat hzero
          rw [hnext] at hz
          cases hz)
        (by omega)
        (by
          intro q hq
          rw [UInt64.lt_iff_toNat_lt, hnext]
          rcases List.mem_cons.mp hq with rfl | hq
          · omega
          · have := UInt64.lt_iff_toNat_lt.mp (hlt q hq)
            omega)
        (by omega)
        (fun hs q ⟨_, hle, hq⟩ ↦ hs (UInt64.lt_of_le_of_lt hle hq))
      refine ⟨free', hfree', fun q ↦ ?_⟩
      rw [hmem, inMemory_iff hp hstop, List.mem_cons, or_assoc]
      exact or_left_comm
    · next hstop => exact ⟨free, h, fun q ↦ by simp [hend hstop q]⟩

/-- `Page::initialize` leaves the free pages in descending order, all those from `kernelPages` on. -/
theorem Page.initializePages_descending (h : s.Placed) (hempty : s.freeList = 0) :
    ∃ free, (Page.initializePages s).Descending free ∧
      ∀ q, q ∈ free ↔ InMemory s.kernelPages q := by
  obtain ⟨hp, hbase⟩ := h
  have hstart : State.Descending { s with lastPage := physicalAddressStop } [] :=
    ⟨⟨hempty, List.nodup_nil, by simp⟩, List.Pairwise.nil⟩
  obtain ⟨free, hfree, hmem⟩ := Page.initializeFrom_descending
    (physicalAddressStop / PAGE_SIZE).toNat hstart rfl
    (by
      intro hzero
      rw [hzero] at hbase
      exact absurd hbase (by decide))
    hp (by simp)
    (by
      have hstop : physicalAddressStop.toNat = 0x88000000 := rfl
      have hrounds : (physicalAddressStop / PAGE_SIZE).toNat = 0x88000 := by decide
      rw [hstop, hrounds]
      omega)
  exact ⟨free, hfree, by simpa using hmem⟩

/-- The last bytes of memory stay as they are. -/
theorem Page.initializeFrom_last (fuel : Nat) (p : UInt64) (s : State) (q : UInt64) :
    byteAt ((Page.initializeFrom fuel p s).memory q) 4095 = byteAt (s.memory q) 4095 := by
  induction fuel generalizing p s with
  | zero => rfl
  | succ fuel ih =>
    unfold Page.initializeFrom
    split
    · rw [ih, State.push, State.setPage_memory]
      by_cases hq : q = p
      · rw [hq, Function.update_self, putU64, byteAt_putLe _ _ _ _ _ (by decide),
          if_neg (by decide), byteAt_memset]
      · rw [Function.update_of_ne hq]
    · rfl

/-- `Page::initialize` in memory whose pages end in zero bytes. -/
theorem Page.initializePages_blank (h : s.Placed) (hempty : s.freeList = 0)
    (hclean : ∀ q, byteAt (s.memory q) 4095 = 0) :
    ∃ free, (Page.initializePages s).Blank free := by
  obtain ⟨free, hfree, -⟩ := Page.initializePages_descending h hempty
  refine ⟨free, hfree.toFree, fun q _ ↦ ?_⟩
  rw [Page.initializePages, Page.initializeFrom_last, hclean]

end

/-! ### Sequences of requests -/

section

variable {h h' : Heap} {free : List UInt64} {es : List Event} {r : Request}

/-- What is known about a request that was served. -/
structure Request.Served (r : Request) : Prop where
  descending : ∃ rest, r.before.Descending (r.address :: rest)
  after : ∃ rest', r.after.Free rest'

/-- The free list is in descending order and every request was served from one that was. -/
structure Heap.Inv (h : Heap) : Prop where
  free : ∃ free, h.pages.Descending free
  served : ∀ r ∈ h.requests, r.Served

/-- A step that serves a request puts it at the end of the history. -/
theorem Heap.step_new {size : UInt64} (hs : h.step (.new size) = some h') :
    ∃ address, New.allocate size h.pages = .ok (address, h'.pages) ∧
      h'.requests = h.requests ++ [⟨address, size, h.pages, h'.pages⟩] := by
  simp only [Heap.step] at hs
  split at hs
  · next address t ht =>
    cases hs
    exact ⟨address, ht, rfl⟩
  · cases hs

theorem Heap.step_page (hs : h.step .page = some h') :
    (∃ p, Page.allocate h.pages = .ok (p, h'.pages)) ∧ h'.requests = h.requests := by
  simp only [Heap.step] at hs
  split at hs
  · next p t ht =>
    cases hs
    exact ⟨⟨p, ht⟩, rfl⟩
  · cases hs

theorem Heap.Inv.step {e : Event} (hi : h.Inv) (hs : h.step e = some h') : h'.Inv := by
  obtain ⟨⟨free, hfree⟩, hserved⟩ := hi
  cases e with
  | new size =>
    obtain ⟨address, hok, hreq⟩ := Heap.step_new hs
    obtain ⟨rest, rest', hcons, -, hdesc, -⟩ := (New.allocate_descending hfree).of_ok hok
    refine ⟨⟨rest', hdesc⟩, fun r hr ↦ ?_⟩
    rw [hreq, List.mem_append, List.mem_singleton] at hr
    rcases hr with hr | rfl
    · exact hserved r hr
    · exact ⟨⟨rest, hcons ▸ hfree⟩, ⟨rest', hdesc.toFree⟩⟩
  | page =>
    obtain ⟨⟨p, hok⟩, hreq⟩ := Heap.step_page hs
    obtain ⟨rest, -, hdesc⟩ := (Page.allocate_descending hfree).of_ok hok
    exact ⟨⟨rest, hdesc⟩, fun r hr ↦ hserved r (hreq ▸ hr)⟩

/-- The range of a request above one page reaches past the highest page that was free. -/
theorem Request.Served.size_le (hr : r.Served) (hin : r.Inside) : r.size ≤ PAGE_SIZE := by
  by_contra hsize
  have hsize' : 4096 < r.size.toNat := by
    have := mt UInt64.le_iff_toNat_le.mpr hsize
    change ¬ r.size.toNat ≤ 4096 at this
    omega
  obtain ⟨rest, hdesc⟩ := hr.descending
  obtain ⟨page, ⟨hfree, -⟩, hle, hlt⟩ := hin (r.address.toNat + 4096) (by omega) (by omega)
  have hmem := hdesc.isFree_iff.mp hfree
  have hmax : page.toNat ≤ r.address.toNat := by
    rcases List.mem_cons.mp hmem with rfl | hmem
    · exact Nat.le_refl _
    · exact Nat.le_of_lt (UInt64.lt_iff_toNat_lt.mp
        ((List.pairwise_cons.mp hdesc.sorted).1 page hmem))
  have hpage : page = r.address := UInt64.toNat_inj.mp (by
    have ha := hdesc.aligned page hmem
    have hb := hdesc.aligned r.address (by simp)
    omega)
  rw [hpage] at hlt
  omega

/-- The ranges handed out lie in pages of their own that are not free any more. -/
structure Heap.Small (h : Heap) : Prop where
  inside : ∀ r ∈ h.requests, r.Inside
  size : ∀ r ∈ h.requests, r.size ≤ PAGE_SIZE ∧ r.address.toNat % 4096 = 0
  taken : ∀ r ∈ h.requests, ¬ h.pages.IsFree r.address
  distinct : h.requests.Pairwise fun r r' ↦ r.address ≠ r'.address

theorem Heap.Small.apart (hs : h.Small) : h.requests.Pairwise Request.Apart := by
  refine (List.pairwise_iff_forall_sublist.mpr fun {a b} hab ↦ ?_)
  have hne := (List.pairwise_iff_forall_sublist.mp hs.distinct) hab
  obtain ⟨hasize, haligned⟩ := hs.size a (hab.subset (by simp))
  obtain ⟨hbsize, hbligned⟩ := hs.size b (hab.subset (by simp))
  have ha : a.size.toNat ≤ 4096 := hasize
  have hb : b.size.toNat ≤ 4096 := hbsize
  have hne' : a.address.toNat ≠ b.address.toNat := fun he ↦ hne (UInt64.toNat_inj.mp he)
  unfold Request.Apart
  omega

/-- Requests of at most a page keep the ranges apart. -/
theorem Heap.Small.step {e : Event} (hi : h.Inv) (hsmall : h.Small)
    (he : ∀ size, e = .new size → size ≤ PAGE_SIZE) (hs : h.step e = some h') : h'.Small := by
  obtain ⟨free, hfree⟩ := hi.free
  cases e with
  | page =>
    obtain ⟨⟨p, hok⟩, hreq⟩ := Heap.step_page hs
    obtain ⟨rest, hcons, hdesc⟩ := (Page.allocate_descending hfree).of_ok hok
    refine ⟨hreq ▸ hsmall.inside, hreq ▸ hsmall.size, fun r hr hmem ↦ ?_, hreq ▸ hsmall.distinct⟩
    refine hsmall.taken r (hreq ▸ hr) (hfree.isFree_iff.mpr ?_)
    rw [hcons]
    exact List.mem_cons_of_mem _ (hdesc.isFree_iff.mp hmem)
  | new size =>
    have hsize := he size rfl
    obtain ⟨address, hok, hreq⟩ := Heap.step_new hs
    obtain ⟨rest, rest', hcons, -, hdesc, hrest⟩ := (New.allocate_descending hfree).of_ok hok
    obtain rfl := hrest hsize
    have hcons' : free = address :: rest' := hcons
    subst hcons'
    have hnot : ¬ h'.pages.IsFree address := fun hmem ↦
      (List.nodup_cons.mp hfree.nodup).1 (hdesc.isFree_iff.mp hmem)
    have htook : Request.Took ⟨address, size, h.pages, h'.pages⟩ address :=
      ⟨hfree.isFree_iff.mpr (by simp), hnot⟩
    have hinside : Request.Inside ⟨address, size, h.pages, h'.pages⟩ := by
      intro a hle hlt
      have hsz : size.toNat ≤ 4096 := hsize
      exact ⟨address, htook, hle, by change a < address.toNat + size.toNat at hlt; omega⟩
    refine ⟨?_, ?_, ?_, ?_⟩
    · intro r hr
      rw [hreq, List.mem_append, List.mem_singleton] at hr
      rcases hr with hr | rfl
      · exact hsmall.inside r hr
      · exact hinside
    · intro r hr
      rw [hreq, List.mem_append, List.mem_singleton] at hr
      rcases hr with hr | rfl
      · exact hsmall.size r hr
      · exact ⟨hsize, hfree.aligned _ (by simp)⟩
    · intro r hr hmem
      rw [hreq, List.mem_append, List.mem_singleton] at hr
      rcases hr with hr | rfl
      · exact hsmall.taken r hr (hfree.isFree_iff.mpr
          (List.mem_cons_of_mem _ (hdesc.isFree_iff.mp hmem)))
      · exact hnot hmem
    · rw [hreq]
      refine List.pairwise_append.mpr ⟨hsmall.distinct, List.pairwise_singleton _ _, ?_⟩
      intro r hr r' hr'
      rw [List.mem_singleton.mp hr']
      rintro rfl
      exact hsmall.taken r hr (hfree.isFree_iff.mpr (by simp))

theorem Heap.Inv.play (hi : h.Inv) (hp : play Heap.step h es = some h') : h'.Inv := by
  induction es generalizing h with
  | nil =>
    cases hp
    exact hi
  | cons e es ih =>
    obtain ⟨u, hu, hrest⟩ := Option.bind_eq_some_iff.mp hp
    exact ih (hi.step hu) hrest

theorem Heap.Small.play (hi : h.Inv) (hsmall : h.Small)
    (he : ∀ size, Event.new size ∈ es → size ≤ PAGE_SIZE)
    (hp : play Heap.step h es = some h') : h'.Small := by
  induction es generalizing h with
  | nil =>
    cases hp
    exact hsmall
  | cons e es ih =>
    obtain ⟨u, hu, hrest⟩ := Option.bind_eq_some_iff.mp hp
    have hhead : ∀ size, e = .new size → size ≤ PAGE_SIZE := fun size hsize ↦
      he size (hsize ▸ List.mem_cons_self)
    exact ih (hi.step hu) (hsmall.step hi hhead hu)
      (fun size hsize ↦ he size (List.mem_cons_of_mem _ hsize)) hrest

/-- Every request of a run is in the history. -/
theorem Heap.recorded {size : UInt64} (hp : play Heap.step h es = some h')
    (he : Event.new size ∈ es ∨ ∃ r ∈ h.requests, r.size = size) :
    ∃ r ∈ h'.requests, r.size = size := by
  induction es generalizing h with
  | nil =>
    cases hp
    simpa using he
  | cons e es ih =>
    obtain ⟨u, hu, hrest⟩ := Option.bind_eq_some_iff.mp hp
    refine ih hrest ?_
    cases e with
    | page =>
      rw [(Heap.step_page hu).2]
      simpa using he
    | new size' =>
      obtain ⟨address, -, hreq⟩ := Heap.step_new hu
      rw [hreq]
      rcases he with he | ⟨r, hr, hsize⟩
      · rcases List.mem_cons.mp he with he | he
        · cases he
          exact .inr ⟨⟨address, size, h.pages, u.pages⟩, by simp, rfl⟩
        · exact .inl he
      · exact .inr ⟨r, List.mem_append_left _ hr, hsize⟩

theorem Heap.inv_boot {s : State} (hs : s.Placed) (hempty : s.freeList = 0) :
    (Heap.boot s).Inv := by
  obtain ⟨free, hfree, -⟩ := Page.initializePages_descending hs hempty
  exact ⟨⟨free, hfree⟩, by simp [Heap.boot]⟩

end

/-- The ranges of the kernel heap are disjoint exactly as long as no request is larger than a
page. -/
theorem heap_disjoint_iff {s : State} (hs : s.Placed) (hempty : s.freeList = 0)
    {es : List Event} {h : Heap} (hp : play Heap.step (Heap.boot s) es = some h) :
    h.Disjoint ↔ ∀ size, Event.new size ∈ es → size ≤ PAGE_SIZE := by
  have hboot := Heap.inv_boot hs hempty
  have hi := hboot.play hp
  constructor
  · intro hd size he
    obtain ⟨r, hr, rfl⟩ := Heap.recorded hp (.inl he)
    exact (hi.served r hr).size_le (hd.1 r hr)
  · intro he
    have hempty' : (Heap.boot s).Small := by
      constructor <;> simp [Heap.boot]
    have hsmall := hempty'.play hboot he hp
    exact ⟨hsmall.inside, hsmall.apart⟩

/-- A machine with four pages left behind the kernel. -/
def fourPages : State := ⟨fun _ ↦ zeros, 0, 0, 0x87ffc000⟩

/-- The requests of `Process::Process` for the trap frame and the kernel stack: the range of
the second runs over the first. -/
theorem heap_overlap :
    ∃ h, play Heap.step (Heap.boot fourPages) [.new 288, .new 8192] = some h ∧ ¬ h.Disjoint := by
  refine ⟨final Heap.step (Heap.boot fourPages) [.new 288, .new 8192], rfl, fun hd ↦ ?_⟩
  have hranges : (final Heap.step (Heap.boot fourPages) [.new 288, .new 8192]).requests.map
      (fun r ↦ (r.address, r.size)) = [(0x87fff000, 288), (0x87ffe000, 8192)] := rfl
  have hpair : ((final Heap.step (Heap.boot fourPages) [.new 288, .new 8192]).requests.map
      fun r ↦ (r.address, r.size)).Pairwise fun x y ↦
        x.1.toNat + x.2.toNat ≤ y.1.toNat ∨ y.1.toNat + y.2.toNat ≤ x.1.toNat :=
    List.pairwise_map.mpr hd.2
  rw [hranges] at hpair
  exact absurd hpair (by decide)

/-- Three requests of at most a page. -/
theorem heap_disjoint_small :
    (final Heap.step (Heap.boot fourPages) [.new 288, .page, .new 4096]).Disjoint := by
  have hplaced : fourPages.Placed := ⟨rfl, by decide⟩
  have hplay : play Heap.step (Heap.boot fourPages) [.new 288, .page, .new 4096] =
    some (final Heap.step (Heap.boot fourPages) [.new 288, .page, .new 4096]) := rfl
  refine (heap_disjoint_iff hplaced rfl hplay).mpr fun size hsize ↦ ?_
  simp only [List.mem_cons, Event.new.injEq, reduceCtorEq, List.not_mem_nil, or_false,
    false_or] at hsize
  rcases hsize with rfl | rfl
  · decide
  · decide

end Orfos.Memory
