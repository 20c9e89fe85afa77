import Orfos.Base.Guarded
import Orfos.Base.Owners
import Orfos.Memory.New

/-!
# Pages on several harts

`Page::allocate` and `Page::free` of `kernel/memory/page.cpp`, statement by statement, on any number
of harts. The mutex guards the two variables `freeList` and `next`; a page is cleared outside of it.
Clients write into the pages that they have, and a page that is handed out has lost its link.
-/

namespace Orfos.Memory

open Orfos.Base

/-- The statements of `Page::allocate` and `Page::free`. The number is `n` of the loop of
`memset`. -/
inductive Pc where
  | outside
  | lockAllocate
  | load
  | advance (page : UInt64)
  | unlockAllocate (page : UInt64)
  | clearAllocated (page : UInt64) (n : Nat)
  | clearFreed (page : UInt64) (n : Nat)
  | lockFree (page : UInt64)
  | link (page : UInt64)
  | push (page : UInt64)
  | unlockFree
  | stopped (halt : Halt)
  deriving DecidableEq

/-- A page that a client has been given, or that it has given back. -/
inductive Handover where
  | allocated (page : UInt64)
  | freed (page : UInt64)
  deriving DecidableEq

/-- The pages that the clients have, the latest handover first. -/
def held : List Handover → UInt64 → Bool
  | [], _ => false
  | .allocated p :: l, q => q = p || held l q
  | .freed p :: l, q => q ≠ p && held l q

/-- Physical memory, the holder of `mutex` and what the harts are doing. -/
structure Harts where
  pages : State
  mutex : Option Nat
  pc : Nat → Pc
  handovers : List Handover

namespace Harts

/-- The harts after `Page::initialize`. -/
def boot (s : State) : Harts := ⟨Page.initializePages s, none, fun _ ↦ .outside, []⟩

/-- A hart goes on to another statement. -/
def goto (h : Harts) (a : Nat) (c : Pc) : Harts := { h with pc := Function.update h.pc a c }

/-- `freeList = page`. -/
def setHead (h : Harts) (page : UInt64) : Harts :=
  { h with pages := { h.pages with freeList := page } }

/-- Take the mutex, or wait for it. -/
def lock (h : Harts) (a : Nat) : Option Harts :=
  if h.mutex = none then some { h with mutex := some a } else none

def unlock (h : Harts) : Harts := { h with mutex := none }

/-- One round of `while (--n) *d++ = 0` on a page. -/
def clear (h : Harts) (page : UInt64) (n : Nat) : Harts :=
  { h with pages := h.pages.setPage page (putBytes (h.pages.memory page) (4096 - n) 1 fun _ ↦ 0) }

/-- The next statement of a hart. -/
def go (h : Harts) (a : Nat) : Option Harts :=
  match h.pc a with
  | .outside | .stopped _ => none
  | .lockAllocate => (h.lock a).map (·.goto a .load)
  | .load =>
    if h.pages.freeList ≠ 0 then some (h.goto a (.advance h.pages.freeList))
    else some (h.goto a (.unlockAllocate 0))
  | .advance page =>
    some ((h.setHead (getU64 (h.pages.memory page) 0)).goto a (.unlockAllocate page))
  | .unlockAllocate page =>
    if page ≠ 0 then some (h.unlock.goto a (.clearAllocated page 4096))
    else some (h.unlock.goto a (.stopped Page.outOfMemory))
  | .clearAllocated page n =>
    if n - 1 ≠ 0 then some ((h.clear page n).goto a (.clearAllocated page (n - 1)))
    else some ({ h with handovers := .allocated page :: h.handovers }.goto a .outside)
  | .clearFreed page n =>
    if n - 1 ≠ 0 then some ((h.clear page n).goto a (.clearFreed page (n - 1)))
    else some (h.goto a (.lockFree page))
  | .lockFree page => (h.lock a).map (·.goto a (.link page))
  | .link page =>
    some ({ h with pages :=
      h.pages.setPage page (putU64 (h.pages.memory page) 0 h.pages.freeList) }.goto a (.push page))
  | .push page =>
    some ((h.setHead page).goto a .unlockFree)
  | .unlockFree => some (h.unlock.goto a .outside)

/-- What can happen: a hart calls, a client writes a byte into a page that it has, a hart goes on. -/
inductive Event where
  | allocate (a : Nat)
  | free (a : Nat) (page : UInt64)
  | write (page : UInt64) (offset : Fin 4096) (byte : UInt8)
  | go (a : Nat)

/-- `Page::free` begins with its assertions. -/
def callFree (h : Harts) (a : Nat) (page : UInt64) : Harts :=
  match Page.free page h.pages with
  | .error halt => h.goto a (.stopped halt)
  | .ok _ => { h with handovers := .freed page :: h.handovers }.goto a (.clearFreed page 4096)

def step (h : Harts) : Event → Option Harts
  | .allocate a => if h.pc a = .outside then some (h.goto a .lockAllocate) else none
  | .free a page =>
    if h.pc a = .outside ∧ held h.handovers page then some (h.callFree a page) else none
  | .write page offset byte =>
    if held h.handovers page then
      some { h with pages := h.pages.setPage page (Function.update (h.pages.memory page) offset byte) }
    else none
  | .go a => h.go a

end Harts

/-- The page that a hart has taken from the list and not handed out, or got back and not yet put on
the list. -/
def Pc.page : Pc → Option UInt64
  | .unlockAllocate page => if page = 0 then none else some page
  | .clearAllocated page _ | .clearFreed page _ | .lockFree page | .link page | .push page =>
    some page
  | .outside | .lockAllocate | .load | .advance _ | .unlockFree | .stopped _ => none

/-- The statements in the critical sections. -/
def Pc.Locked : Pc → Prop
  | .load | .advance _ | .unlockAllocate _ | .link _ | .push _ | .unlockFree => True
  | .outside | .lockAllocate | .clearAllocated _ _ | .clearFreed _ _ | .lockFree _ | .stopped _ =>
    False

namespace Harts

/-- A client has the page, or a hart is about to hand it out or to put it back. -/
def Allocated (h : Harts) (page : UInt64) : Prop :=
  held h.handovers page ∨ ∃ a, (h.pc a).page = some page

/-- The page-aligned range from `kernelPages` to `lastPage`. -/
def Manages (h : Harts) (page : UInt64) : Prop :=
  page.toNat % 4096 = 0 ∧ h.pages.kernelPages ≤ page ∧ page < h.pages.lastPage

/-- The free list as it should be. -/
structure Sound (h : Harts) : Prop where
  /-- It ends and has no page twice; a page of the range is on it or allocated. -/
  partition : ∃ free, Linked h.pages.memory h.pages.freeList free ∧ free.Nodup ∧
    (∀ p, h.Manages p ↔ p ∈ free ∨ h.Allocated p) ∧ ∀ p ∈ free, ¬ h.Allocated p
  /-- A page that a hart has taken is no client's and no other hart's. -/
  taken : ∀ a p, (h.pc a).page = some p → ¬ held h.handovers p ∧ ∀ b, (h.pc b).page = some p → b = a
  /-- Between two handouts of a page it has been given back. -/
  once : ∀ l l' l'' p, h.handovers = l ++ .allocated p :: l' ++ .allocated p :: l'' →
    .freed p ∈ l'
  /-- A hart that finds the list empty does so while every page is allocated. -/
  exhausted : ∀ a, h.pc a = .unlockAllocate 0 → ∀ p, h.Manages p → h.Allocated p
  /-- A hart stops for nothing else. -/
  stopped : ∀ a halt, h.pc a = .stopped halt → halt = Page.outOfMemory

/-! ### Owners -/

/-- Who has a page. -/
inductive Owner where
  | list
  | client
  | hart (a : Nat)

/-- The owner has the page. -/
def Owns (h : Harts) (free : List UInt64) : Owner → UInt64 → Prop
  | .list, p => p ∈ free
  | .client, p => held h.handovers p
  | .hart a, p => (h.pc a).page = some p

/-- What a hart knows at a statement. -/
def At (s : State) : Pc → Prop
  | .advance page => s.freeList = page ∧ page ≠ 0
  | .unlockAllocate page => page = 0 → s.freeList = 0
  | .push page => getU64 (s.memory page) 0 = s.freeList
  | .stopped halt => halt = Page.outOfMemory
  | .outside | .lockAllocate | .load | .clearAllocated _ _ | .clearFreed _ _ | .lockFree _
  | .link _ | .unlockFree => True

/-- The handovers of each page take turns. -/
def Alternate : List Handover → Prop
  | [] => True
  | .allocated p :: l => held l p = false ∧ Alternate l
  | .freed p :: l => held l p = true ∧ Alternate l

/-- The pages on the free list are `free`, and all that is known about the harts. -/
structure Inv (h : Harts) (free : List UInt64) : Prop where
  listed : h.pages.Free free
  owners : SolelyOwned h.Manages (h.Owns free)
  mutex : ∀ a, (h.pc a).Locked ↔ h.mutex = some a
  at_pc : ∀ a, At h.pages (h.pc a)
  handovers : Alternate h.handovers
  start : h.pages.kernelPages ≠ 0

variable {h : Harts} {free : List UInt64} {a : Nat} {c : Pc} {p : UInt64}

/-- Outside of the critical sections nothing is known about the pages. -/
theorem At.of_not_locked {s s' : State} (h : At s c) (hc : ¬ c.Locked) : At s' c := by
  cases c with
  | stopped halt => exact h
  | load | advance | unlockAllocate | link | push | unlockFree => exact absurd True.intro hc
  | outside | lockAllocate | clearAllocated | clearFreed | lockFree => exact True.intro

/-- Otherwise only the list and the page in hand matter. -/
theorem At.congr {s s' : State} (h : At s c) (hlist : s'.freeList = s.freeList)
    (hmem : ∀ p, c.page = some p → s'.memory p = s.memory p) : At s' c := by
  cases c with
  | advance page => exact ⟨hlist.trans h.1, h.2⟩
  | unlockAllocate page => exact fun h0 ↦ hlist.trans (h h0)
  | push page =>
    change getU64 _ _ = _
    rw [hmem page rfl, hlist]
    exact h
  | stopped halt => exact h
  | outside | lockAllocate | load | clearAllocated | clearFreed | lockFree | link | unlockFree =>
    exact True.intro

/-- What a hart owns depends on its statement. -/
theorem owns_hart_iff {b : Nat} {q : UInt64}
    (hq : b = a → (c.page = some q ↔ (h.pc a).page = some q)) :
    (Function.update h.pc a c b).page = some q ↔ (h.pc b).page = some q := by
  by_cases hb : b = a
  · rw [hb, Function.update_self]
    exact hq hb
  · rw [Function.update_of_ne hb]

namespace Inv

/-- One hart at most is in a critical section. -/
theorem not_locked (hi : Inv h free) (ha : (h.pc a).Locked) {b : Nat} (hb : b ≠ a) :
    ¬ (h.pc b).Locked := by
  intro hlocked
  have hma := (hi.mutex a).mp ha
  rw [(hi.mutex b).mp hlocked] at hma
  exact hb (Option.some.inj hma)

/-- The mutex stays with the hart, or away from it. -/
theorem mutex_same (hi : Inv h free) (hc : c.Locked ↔ (h.pc a).Locked) (b : Nat) :
    (Function.update h.pc a c b).Locked ↔ h.mutex = some b := by
  by_cases hb : b = a
  · subst hb
    rw [Function.update_self, hc, hi.mutex]
  · rw [Function.update_of_ne hb, hi.mutex]

/-- The hart takes the mutex. -/
theorem mutex_lock (hi : Inv h free) (hm : h.mutex = none) (hc : c.Locked) (b : Nat) :
    (Function.update h.pc a c b).Locked ↔ some a = some b := by
  by_cases hb : b = a
  · subst hb
    simp [hc]
  · rw [Function.update_of_ne hb, hi.mutex, hm]
    simp [Ne.symm hb]

/-- The hart gives the mutex back. -/
theorem mutex_unlock (hi : Inv h free) (ha : (h.pc a).Locked) (hc : ¬ c.Locked) (b : Nat) :
    (Function.update h.pc a c b).Locked ↔ none = some b := by
  by_cases hb : b = a
  · subst hb
    simp [hc]
  · rw [Function.update_of_ne hb]
    simp [hi.not_locked ha hb]

/-- A statement that hands no page over. It may change the page that the hart has in hand. -/
theorem keep (hi : Inv h free) {s : State} {m : Option Nat} (hpage : c.page = (h.pc a).page)
    (hlist : s.freeList = h.pages.freeList) (hstart : s.kernelPages = h.pages.kernelPages)
    (hlast : s.lastPage = h.pages.lastPage)
    (hmem : ∀ p, (h.pc a).page ≠ some p → s.memory p = h.pages.memory p)
    (hm : ∀ b, (Function.update h.pc a c b).Locked ↔ m = some b) (hat : At s c) :
    Inv ⟨s, m, Function.update h.pc a c, h.handovers⟩ free where
  listed := by
    apply hi.listed.congr hlist
    intro p hp
    apply hmem
    intro hin
    have ho := hi.owners.sole (o := .list) (r := .hart a) hp hin
    cases ho
  owners := by
    have hrange : Manages ⟨s, m, Function.update h.pc a c, h.handovers⟩ = h.Manages := by
      unfold Manages
      rw [hstart, hlast]
    rw [hrange]
    apply hi.owners.congr
    intro o p
    cases o with
    | list | client => rfl
    | hart b => exact owns_hart_iff fun _ ↦ by rw [hpage]
  mutex := hm
  at_pc b := by
    change At s (Function.update h.pc a c b)
    by_cases hb : b = a
    · rw [hb, Function.update_self]
      exact hat
    · rw [Function.update_of_ne hb]
      apply (hi.at_pc b).congr hlist
      intro p hp
      apply hmem
      intro hin
      have ho := hi.owners.sole (o := .hart b) (r := .hart a) hp hin
      exact hb (Owner.hart.inj ho)
  handovers := hi.handovers
  start := hstart ▸ hi.start

/-- The statements of the other harts, where this one is in a critical section. -/
theorem at_others (hi : Inv h free) (ha : (h.pc a).Locked) {s : State} (hat : At s c) (b : Nat) :
    At s (Function.update h.pc a c b) := by
  by_cases hb : b = a
  · rw [hb, Function.update_self]
    exact hat
  · rw [Function.update_of_ne hb]
    exact (hi.at_pc b).of_not_locked (hi.not_locked ha hb)

/-- `freeList = page->next` takes the page from the list. -/
theorem advance (hi : Inv h free) (hpc : h.pc a = .advance p) :
    ∃ free', Inv ((h.setHead (getU64 (h.pages.memory p) 0)).goto a (.unlockAllocate p)) free' := by
  generalize hnext : getU64 (h.pages.memory p) 0 = next
  have hlocked : (h.pc a).Locked := by rw [hpc]; exact True.intro
  have hat := hi.at_pc a
  rw [hpc] at hat
  obtain ⟨hhead, h0⟩ := hat
  cases free with
  | nil =>
    have hnull : h.pages.freeList = 0 := hi.listed.linked
    exact absurd (hhead.symm.trans hnull) h0
  | cons q rest =>
    obtain ⟨hq, -, hrest⟩ := hi.listed.linked
    obtain rfl : p = q := hhead.symm.trans hq
    rw [hnext] at hrest
    obtain ⟨hnot, hnodup⟩ := List.nodup_cons.mp hi.listed.nodup
    refine ⟨rest, ?_, ?_, ?_, ?_, hi.handovers, hi.start⟩
    · exact ⟨hrest, hnodup, fun q hq ↦ hi.listed.aligned q (List.mem_cons_of_mem _ hq)⟩
    · apply hi.owners.hand (o := .list) (r := .hart a) (p := p) (List.mem_cons_self ..)
      · simp [Owns, goto, Pc.page, h0]
      · exact hnot
      · intro x q hx
        cases x with
        | list =>
          have hne : q ≠ p := hx.resolve_right (fun h ↦ h.1 rfl)
          simp [Owns, hne]
        | client => rfl
        | hart b =>
          apply owns_hart_iff (h := h)
          intro hb
          have hne : q ≠ p := hx.resolve_right (fun h ↦ h.2 (by rw [hb]))
          simp [hpc, Pc.page, h0, hne.symm]
    · exact hi.mutex_same (by simp [hpc, Pc.Locked])
    · exact hi.at_others hlocked fun h ↦ absurd h h0

/-- `freeList = this` puts the page on the list. -/
theorem push (hi : Inv h free) (hpc : h.pc a = .push p) :
    Inv ((h.setHead p).goto a .unlockFree) (p :: free) := by
  have hlocked : (h.pc a).Locked := by rw [hpc]; exact True.intro
  have hin : h.Owns free (.hart a) p := by
    change (h.pc a).page = some p
    rw [hpc]
    rfl
  have hnext : getU64 (h.pages.memory p) 0 = h.pages.freeList := by
    have hat := hi.at_pc a
    rw [hpc] at hat
    exact hat
  have hnot : p ∉ free := by
    intro hmem
    have ho := hi.owners.sole (o := .list) hmem hin
    cases ho
  obtain ⟨haligned, hstart, -⟩ := hi.owners.inside hin
  have h0 : p ≠ 0 := by
    rintro rfl
    exact hi.start (UInt64.le_zero_iff.mp hstart)
  refine ⟨?_, ?_, ?_, ?_, hi.handovers, hi.start⟩
  · refine ⟨⟨rfl, h0, ?_⟩, List.nodup_cons.mpr ⟨hnot, hi.listed.nodup⟩, ?_⟩
    · change Linked h.pages.memory (getU64 (h.pages.memory p) 0) free
      rw [hnext]
      exact hi.listed.linked
    · intro q hq
      rcases List.mem_cons.mp hq with rfl | hq
      · exact haligned
      · exact hi.listed.aligned q hq
  · apply hi.owners.hand (o := .hart a) (r := .list) (p := p) hin (List.mem_cons_self ..)
    · simp [Owns, goto, Pc.page]
    · intro x q hx
      cases x with
      | list =>
        have hne : q ≠ p := hx.resolve_right (fun h ↦ h.2 rfl)
        simp [Owns, hne]
      | client => rfl
      | hart b =>
        apply owns_hart_iff (h := h)
        intro hb
        have hne : q ≠ p := hx.resolve_right (fun h ↦ h.1 (by rw [hb]))
        simp [hpc, Pc.page, hne.symm]
  · exact hi.mutex_same (by simp [hpc, Pc.Locked])
  · exact hi.at_others hlocked True.intro

/-- The statement after a handover: the same hart, outside of the critical sections. -/
theorem at_handover (hi : Inv h free) (hat : At h.pages c) (b : Nat) :
    At h.pages (Function.update h.pc a c b) := by
  by_cases hb : b = a
  · rw [hb, Function.update_self]
    exact hat
  · rw [Function.update_of_ne hb]
    exact hi.at_pc b

/-- A cleared page is handed out. -/
theorem handOut (hi : Inv h free) {n : Nat} (hpc : h.pc a = .clearAllocated p n) :
    Inv ({ h with handovers := .allocated p :: h.handovers }.goto a .outside) free := by
  have hin : h.Owns free (.hart a) p := by
    change (h.pc a).page = some p
    rw [hpc]
    rfl
  have hheld : held h.handovers p = false := by
    by_contra hheld
    have ho := hi.owners.sole (o := .client) (Bool.eq_true_of_not_eq_false hheld) hin
    cases ho
  refine ⟨hi.listed, ?_, hi.mutex_same (by simp [hpc, Pc.Locked]), hi.at_handover True.intro,
    ⟨hheld, hi.handovers⟩, hi.start⟩
  apply hi.owners.hand (o := .hart a) (r := .client) (p := p) hin
  · simp [Owns, goto, held]
  · simp [Owns, goto, Pc.page]
  · intro x q hx
    cases x with
    | list => rfl
    | client =>
      have hne : q ≠ p := hx.resolve_right (fun h ↦ h.2 rfl)
      simp [Owns, goto, held, hne]
    | hart b =>
      apply owns_hart_iff (h := h)
      intro hb
      have hne : q ≠ p := hx.resolve_right (fun h ↦ h.1 (by rw [hb]))
      simp [hpc, Pc.page, hne.symm]

/-- A client gives a page back. -/
theorem handBack (hi : Inv h free) {n : Nat} (hpc : h.pc a = .outside)
    (hheld : held h.handovers p) :
    Inv ({ h with handovers := .freed p :: h.handovers }.goto a (.clearFreed p n)) free := by
  refine ⟨hi.listed, ?_, hi.mutex_same (by simp [hpc, Pc.Locked]), hi.at_handover True.intro,
    ⟨hheld, hi.handovers⟩, hi.start⟩
  have hin : h.Owns free .client p := hheld
  apply hi.owners.hand (o := .client) (r := .hart a) (p := p) hin
  · simp [Owns, goto, Pc.page]
  · simp [Owns, goto, held]
  · intro x q hx
    cases x with
    | list => rfl
    | client =>
      have hne : q ≠ p := hx.resolve_right (fun h ↦ h.1 rfl)
      simp [Owns, goto, held, hne]
    | hart b =>
      apply owns_hart_iff (h := h)
      intro hb
      have hne : q ≠ p := hx.resolve_right (fun h ↦ h.2 (by rw [hb]))
      simp [hpc, Pc.page, hne.symm]

/-- A client writes into its page. -/
theorem write (hi : Inv h free) {contents : Contents} (hheld : held h.handovers p) :
    Inv { h with pages := h.pages.setPage p contents } free := by
  have hfree {q : UInt64} (hq : q ∈ free) : q ≠ p := by
    rintro rfl
    have ho := hi.owners.sole (o := .list) (r := .client) hq hheld
    cases ho
  refine ⟨?_, hi.owners.congr fun o p ↦ ?_, hi.mutex, fun b ↦ ?_, hi.handovers, hi.start⟩
  · exact hi.listed.congr rfl fun q hq ↦ Function.update_of_ne (hfree hq) _ _
  · cases o <;> rfl
  · refine (hi.at_pc b).congr rfl fun q hq ↦ ?_
    have hne : q ≠ p := by
      rintro rfl
      have ho := hi.owners.sole (o := .hart b) (r := .client) hq hheld
      cases ho
    exact Function.update_of_ne hne _ _

/-- A hart that takes the mutex. -/
theorem lock (hi : Inv h free) {h₁ h' : Harts} (hl : h.lock a = some h₁) (hh : h₁.goto a c = h')
    (hpage : c.page = (h.pc a).page) (hc : c.Locked) (hat : At h.pages c) : Inv h' free := by
  unfold Harts.lock at hl
  split at hl
  · next hm =>
    cases hl
    subst hh
    exact hi.keep hpage rfl rfl rfl (fun _ _ ↦ rfl) (hi.mutex_lock hm hc) hat
  · cases hl

/-- A round of `memset`. -/
theorem clear (hi : Inv h free) {n : Nat} (hpage : c.page = some p)
    (hin : (h.pc a).page = some p) (hc : c.Locked ↔ (h.pc a).Locked) (hat : ∀ s, At s c) :
    Inv ((h.clear p n).goto a c) free := by
  refine hi.keep (hpage.trans hin.symm) rfl rfl rfl (fun q hq ↦ ?_) (hi.mutex_same hc) (hat _)
  have hne : q ≠ p := by
    rintro rfl
    exact hq hin
  exact Function.update_of_ne hne _ _

/-- A hart goes on. -/
theorem go (hi : Inv h free) {h' : Harts} (hg : h.go a = some h') : ∃ free', Inv h' free' := by
  have hat := hi.at_pc a
  cases hpc : h.pc a with
  | outside | stopped => simp [Harts.go, hpc] at hg
  | lockAllocate =>
    simp only [Harts.go, hpc] at hg
    obtain ⟨h₁, hl, hh⟩ := Option.map_eq_some_iff.mp hg
    exact ⟨free, hi.lock hl hh (by rw [hpc]; rfl) True.intro True.intro⟩
  | load =>
    simp only [Harts.go, hpc] at hg
    have hlocked : (h.pc a).Locked := by rw [hpc]; exact True.intro
    split at hg
    · next hne =>
      cases hg
      exact ⟨free, hi.keep (by rw [hpc]; rfl) rfl rfl rfl (fun _ _ ↦ rfl)
        (hi.mutex_same (by simp [hpc, Pc.Locked])) ⟨rfl, hne⟩⟩
    · next hnull =>
      cases hg
      exact ⟨free, hi.keep (by rw [hpc]; rfl) rfl rfl rfl (fun _ _ ↦ rfl)
        (hi.mutex_same (by simp [hpc, Pc.Locked])) fun _ ↦ not_not.mp hnull⟩
  | advance page =>
    simp only [Harts.go, hpc, Option.some.injEq] at hg
    subst hg
    exact hi.advance hpc
  | unlockAllocate page =>
    simp only [Harts.go, hpc] at hg
    have hlocked : (h.pc a).Locked := by rw [hpc]; exact True.intro
    split at hg
    · next hne =>
      cases hg
      exact ⟨free, hi.keep (by rw [hpc]; simp [Pc.page, hne]) rfl rfl rfl (fun _ _ ↦ rfl)
        (hi.mutex_unlock hlocked id) True.intro⟩
    · next hnull =>
      cases hg
      exact ⟨free, hi.keep (by rw [hpc]; simp [Pc.page, not_not.mp hnull]) rfl rfl rfl
        (fun _ _ ↦ rfl) (hi.mutex_unlock hlocked id) rfl⟩
  | clearAllocated page n =>
    simp only [Harts.go, hpc] at hg
    split at hg
    · cases hg
      exact ⟨free, hi.clear rfl (by rw [hpc]; rfl) (by rw [hpc]; exact Iff.rfl) fun _ ↦ True.intro⟩
    · cases hg
      exact ⟨free, hi.handOut hpc⟩
  | clearFreed page n =>
    simp only [Harts.go, hpc] at hg
    split at hg
    · cases hg
      exact ⟨free, hi.clear rfl (by rw [hpc]; rfl) (by rw [hpc]; exact Iff.rfl) fun _ ↦ True.intro⟩
    · cases hg
      exact ⟨free, hi.keep (by rw [hpc]; rfl) rfl rfl rfl (fun _ _ ↦ rfl)
        (hi.mutex_same (by rw [hpc]; exact Iff.rfl)) True.intro⟩
  | lockFree page =>
    simp only [Harts.go, hpc] at hg
    obtain ⟨h₁, hl, hh⟩ := Option.map_eq_some_iff.mp hg
    exact ⟨free, hi.lock hl hh (by rw [hpc]; rfl) True.intro True.intro⟩
  | link page =>
    simp only [Harts.go, hpc, Option.some.injEq] at hg
    subst hg
    refine ⟨free, hi.keep (by rw [hpc]; rfl) rfl rfl rfl (fun q hq ↦ ?_)
      (hi.mutex_same (by simp [hpc, Pc.Locked])) ?_⟩
    · have hne : q ≠ page := by
        rintro rfl
        exact hq (by rw [hpc]; rfl)
      exact Function.update_of_ne hne _ _
    · change getU64 (Function.update h.pages.memory page _ page) 0 = h.pages.freeList
      rw [Function.update_self, getU64_putU64_same _ _ (by decide)]
  | push page =>
    simp only [Harts.go, hpc, Option.some.injEq] at hg
    subst hg
    exact ⟨_, hi.push hpc⟩
  | unlockFree =>
    simp only [Harts.go, hpc, Option.some.injEq] at hg
    subst hg
    have hlocked : (h.pc a).Locked := by rw [hpc]; exact True.intro
    exact ⟨free, hi.keep (by rw [hpc]; rfl) rfl rfl rfl (fun _ _ ↦ rfl)
      (hi.mutex_unlock hlocked id) True.intro⟩

/-- The assertions of `Page::free` hold for a page that a client has. -/
theorem callFree (hi : Inv h free) (hheld : held h.handovers p) :
    h.callFree a p =
      { h with handovers := .freed p :: h.handovers }.goto a (.clearFreed p 4096) := by
  obtain ⟨haligned, hstart, hlast⟩ := hi.owners.inside (o := .client) hheld
  have hmod : p % PAGE_SIZE = 0 := by
    rw [← UInt64.toNat_inj, UInt64.toNat_mod]
    exact haligned
  have hok : Page.free p h.pages = .ok (h.pages.push p) := by
    rw [Page.free, if_neg (not_not.mpr hmod), if_neg (UInt64.not_lt.mpr hstart),
      if_neg (not_not.mpr hlast)]
  rw [Harts.callFree, hok]

/-- One event. -/
theorem step (hi : Inv h free) {e : Event} {h' : Harts} (hs : h.step e = some h') :
    ∃ free', Inv h' free' := by
  cases e with
  | allocate a =>
    simp only [Harts.step] at hs
    split at hs
    · next hpc =>
      cases hs
      exact ⟨free, hi.keep (by rw [hpc]; rfl) rfl rfl rfl (fun _ _ ↦ rfl)
        (hi.mutex_same (by rw [hpc]; exact Iff.rfl)) True.intro⟩
    · cases hs
  | free a page =>
    simp only [Harts.step] at hs
    split at hs
    · next hc =>
      cases hs
      rw [hi.callFree hc.2]
      exact ⟨free, hi.handBack hc.1 hc.2⟩
    · cases hs
  | write page offset byte =>
    simp only [Harts.step] at hs
    split at hs
    · next hheld =>
      cases hs
      exact ⟨free, hi.write hheld⟩
    · cases hs
  | go a => exact hi.go hs

end Inv

/-- Two states with the same range where a hart that has stopped did so before or has just found the
list empty. -/
structure Follows (h h' : Harts) : Prop where
  start : h'.pages.kernelPages = h.pages.kernelPages
  last : h'.pages.lastPage = h.pages.lastPage
  stops : ∀ a halt, h'.pc a = .stopped halt → h.pc a = .stopped halt ∨ h.pc a = .unlockAllocate 0

/-- A hart that goes on to a statement where it has not stopped. -/
theorem follows_goto {h₁ : Harts} (hstart : h₁.pages.kernelPages = h.pages.kernelPages)
    (hlast : h₁.pages.lastPage = h.pages.lastPage) (hpc : h₁.pc = h.pc)
    (hc : ∀ halt, c = .stopped halt → h.pc a = .unlockAllocate 0) : Follows h (h₁.goto a c) where
  start := hstart
  last := hlast
  stops b halt hb := by
    change Function.update h₁.pc a c b = .stopped halt at hb
    by_cases he : b = a
    · subst he
      rw [Function.update_self] at hb
      exact .inr (hc halt hb)
    · rw [Function.update_of_ne he, hpc] at hb
      exact .inl hb

theorem follows_setHead (hc : ∀ halt, c ≠ .stopped halt) : Follows h ((h.setHead p).goto a c) :=
  follows_goto rfl rfl rfl fun halt he ↦ absurd he (hc halt)

theorem follows_lock {h₁ h' : Harts} (hl : h.lock a = some h₁) (hh : h₁.goto a c = h')
    (hc : ∀ halt, c ≠ .stopped halt) : Follows h h' := by
  unfold lock at hl
  split at hl
  · cases hl
    subst hh
    exact follows_goto rfl rfl rfl fun halt he ↦ absurd he (hc halt)
  · cases hl

theorem follows_go {h' : Harts} (hg : h.go a = some h') : Follows h h' := by
  cases hpc : h.pc a with
  | outside | stopped => simp [go, hpc] at hg
  | lockAllocate | lockFree =>
    simp only [go, hpc] at hg
    obtain ⟨h₁, hl, hh⟩ := Option.map_eq_some_iff.mp hg
    exact follows_lock hl hh nofun
  | load | clearAllocated | clearFreed =>
    simp only [go, hpc] at hg
    split at hg
    · cases hg
      exact follows_goto rfl rfl rfl nofun
    · cases hg
      exact follows_goto rfl rfl rfl nofun
  | unlockAllocate page =>
    simp only [go, hpc] at hg
    split at hg
    · cases hg
      exact follows_goto rfl rfl rfl nofun
    · next hnull =>
      cases hg
      exact follows_goto rfl rfl rfl fun _ _ ↦ by rw [hpc, not_not.mp hnull]
  | advance | push =>
    simp only [go, hpc, Option.some.injEq] at hg
    subst hg
    exact follows_setHead nofun
  | link page =>
    simp only [go, hpc, Option.some.injEq] at hg
    subst hg
    exact follows_goto rfl rfl (show { h with pages := h.pages.setPage page _ }.pc = h.pc from rfl) nofun
  | unlockFree =>
    simp only [go, hpc, Option.some.injEq] at hg
    subst hg
    exact follows_goto rfl rfl (show h.unlock.pc = h.pc from rfl) nofun

theorem Inv.follows (hi : Inv h free) {e : Event} {h' : Harts} (hs : h.step e = some h') :
    Follows h h' := by
  cases e with
  | allocate a =>
    simp only [Harts.step, Option.ite_none_right_eq_some, Option.some.injEq] at hs
    obtain ⟨-, rfl⟩ := hs
    exact follows_goto rfl rfl rfl nofun
  | free a page =>
    simp only [Harts.step, Option.ite_none_right_eq_some, Option.some.injEq] at hs
    obtain ⟨⟨-, hheld⟩, rfl⟩ := hs
    rw [hi.callFree hheld]
    exact follows_goto rfl rfl rfl nofun
  | write page offset byte =>
    simp only [Harts.step, Option.ite_none_right_eq_some, Option.some.injEq] at hs
    obtain ⟨-, rfl⟩ := hs
    exact ⟨rfl, rfl, fun a halt ha ↦ .inl ha⟩
  | go a => exact follows_go hs

/-! ### Runs -/

theorem initializeFrom_bounds (fuel : Nat) (page : UInt64) (s : State) :
    (Page.initializeFrom fuel page s).kernelPages = s.kernelPages ∧
      (Page.initializeFrom fuel page s).lastPage = s.lastPage := by
  induction fuel generalizing page s with
  | zero => exact ⟨rfl, rfl⟩
  | succ fuel ih =>
    unfold Page.initializeFrom
    split
    · exact ih _ _
    · exact ⟨rfl, rfl⟩

theorem bounds_boot (s : State) :
    (boot s).pages.kernelPages = s.kernelPages ∧ (boot s).pages.lastPage = physicalAddressStop :=
  initializeFrom_bounds _ _ _

/-- The range after `Page::initialize`. -/
theorem manages_boot (s : State) : (boot s).Manages p ↔ InMemory s.kernelPages p := by
  rw [Manages, InMemory, (bounds_boot s).1, (bounds_boot s).2]

theorem inv_boot {s : State} (hs : s.Placed) (hempty : s.freeList = 0) :
    ∃ free, (boot s).Inv free := by
  obtain ⟨free, hfree, hmem⟩ := Page.initializePages_descending hs hempty
  have howners : SolelyOwned (boot s).Manages ((boot s).Owns free) := by
    apply SolelyOwned.of_one (o := .list)
    · intro p
      rw [manages_boot]
      exact hmem p
    · intro o p ho
      cases o with
      | list => exact absurd rfl ho
      | client => exact Bool.false_ne_true
      | hart a => exact nofun
  have hstart : (boot s).pages.kernelPages ≠ 0 := by
    rw [(bounds_boot s).1]
    intro h0
    have hbase := hs.2
    rw [h0] at hbase
    exact absurd hbase (by decide)
  have hmutex (a : Nat) : ((boot s).pc a).Locked ↔ (boot s).mutex = some a :=
    ⟨False.elim, nofun⟩
  exact ⟨free, hfree.toFree, howners, hmutex, fun _ ↦ True.intro, True.intro, hstart⟩

/-- Between two handouts of a page that alternate it has been given back. -/
theorem Alternate.once {l l' l'' : List Handover} (ha : Alternate (l ++ .allocated p :: l' ++
    .allocated p :: l'')) : Handover.freed p ∈ l' := by
  have hsuffix : Alternate (.allocated p :: (l' ++ .allocated p :: l'')) := by
    rw [List.append_assoc] at ha
    induction l with
    | nil => exact ha
    | cons e l ih =>
      cases e with
      | allocated q => exact ih ha.2
      | freed q => exact ih ha.2
  have hfree := hsuffix.1
  clear ha hsuffix
  induction l' with
  | nil => simp [held] at hfree
  | cons e l' ih =>
    cases e with
    | allocated q =>
      simp only [List.cons_append, held, Bool.or_eq_false_iff] at hfree
      exact List.mem_cons_of_mem _ (ih hfree.2)
    | freed q =>
      by_cases hq : q = p
      · exact hq ▸ List.mem_cons_self ..
      · have hne : p ≠ q := fun he ↦ hq he.symm
        simp only [List.cons_append, held, hne, ne_eq, not_false_eq_true, decide_true,
          Bool.true_and] at hfree
        exact List.mem_cons_of_mem _ (ih hfree)

/-- What the invariant says of the free list. -/
theorem Inv.sound (hi : Inv h free) : h.Sound where
  partition := by
    refine ⟨free, hi.listed.linked, hi.listed.nodup, fun p ↦ ⟨fun hp ↦ ?_, ?_⟩, ?_⟩
    · obtain ⟨o, ho⟩ := hi.owners.owned hp
      cases o with
      | list => exact .inl ho
      | client => exact .inr (.inl ho)
      | hart a => exact .inr (.inr ⟨a, ho⟩)
    · rintro (hp | hp | ⟨a, hp⟩)
      · exact hi.owners.inside (o := .list) hp
      · exact hi.owners.inside (o := .client) hp
      · exact hi.owners.inside (o := .hart a) hp
    · rintro p hp (hheld | ⟨a, ha⟩)
      · cases hi.owners.sole (o := .list) (r := .client) hp hheld
      · cases hi.owners.sole (o := .list) (r := .hart a) hp ha
  taken a p hp := by
    constructor
    · intro hheld
      cases hi.owners.sole (o := .hart a) (r := .client) hp hheld
    · intro b hb
      exact Owner.hart.inj (hi.owners.sole (o := .hart b) (r := .hart a) hb hp)
  once l l' l'' p he := (he ▸ hi.handovers : Alternate _).once
  exhausted a ha p hp := by
    have hat := hi.at_pc a
    rw [ha] at hat
    have hnil : free = [] := by
      cases free with
      | nil => rfl
      | cons q rest =>
        obtain ⟨hq, h0, -⟩ := hi.listed.linked
        exact absurd (hq.symm.trans (hat rfl)) h0
    obtain ⟨o, ho⟩ := hi.owners.owned hp
    cases o with
    | list =>
      rw [hnil] at ho
      cases ho
    | client => exact .inl ho
    | hart b => exact .inr ⟨b, ho⟩
  stopped a halt ha := by
    have hat := hi.at_pc a
    rw [ha] at hat
    exact hat

/-- In a run the invariant stays and the range is the same. -/
theorem Inv.after (hi : Inv h free) {es : List Event} {h' : Harts} (hp : play Harts.step h es = some h') :
    ∃ free', Inv h' free' ∧ ∀ p, h'.Manages p ↔ h.Manages p := by
  induction es generalizing h free with
  | nil =>
    cases hp
    exact ⟨free, hi, fun _ ↦ Iff.rfl⟩
  | cons e es ih =>
    obtain ⟨h₁, hs, hp⟩ := Option.bind_eq_some_iff.mp hp
    obtain ⟨free₁, hi₁⟩ := hi.step hs
    obtain ⟨free', hi', hm⟩ := ih hi₁ hp
    have hf := hi.follows hs
    refine ⟨free', hi', fun p ↦ (hm p).trans ?_⟩
    rw [Manages, Manages, hf.start, hf.last]

/-- A hart that has stopped in a run found the list empty in it. -/
theorem Inv.stopped_cut (hi : Inv h free) {es : List Event} {h' : Harts}
    (hp : play Harts.step h es = some h') {halt : Halt} (hnot : ∀ halt, h.pc a ≠ .stopped halt)
    (ha : h'.pc a = .stopped halt) :
    ∃ es₁ es₂ h₁, es = es₁ ++ es₂ ∧ play Harts.step h es₁ = some h₁ ∧
      h₁.pc a = .unlockAllocate 0 := by
  induction es generalizing h free with
  | nil =>
    cases hp
    exact absurd ha (hnot halt)
  | cons e es ih =>
    by_cases he : h.pc a = .unlockAllocate 0
    · exact ⟨[], e :: es, h, rfl, rfl, he⟩
    · obtain ⟨h₁, hs, hp⟩ := Option.bind_eq_some_iff.mp hp
      obtain ⟨free₁, hi₁⟩ := hi.step hs
      have hnot₁ (halt : Halt) : h₁.pc a ≠ .stopped halt := by
        intro hstop
        rcases (hi.follows hs).stops a halt hstop with hb | hb
        · exact hnot halt hb
        · exact he hb
      obtain ⟨es₁, es₂, h₂, rfl, hp₂, ha₂⟩ := ih hi₁ hp hnot₁
      exact ⟨e :: es₁, es₂, h₂, rfl, by rw [play, hs]; exact hp₂, ha₂⟩

/-- The free list on any number of harts: in every run the pages of the range are on the list or
allocated, none of them is handed out twice, and a hart panics only where it has found every page
allocated. -/
theorem freeList_sound {s : State} (hs : s.Placed) (hempty : s.freeList = 0) {es : List Event}
    {h : Harts} (hp : play step (boot s) es = some h) :
    h.Sound ∧ (∀ p, h.Manages p ↔ InMemory s.kernelPages p) ∧
      ∀ a halt, h.pc a = .stopped halt → ∃ es₁ es₂ h₁, es = es₁ ++ es₂ ∧
        play step (boot s) es₁ = some h₁ ∧ h₁.pc a = .unlockAllocate 0 ∧
        ∀ p, InMemory s.kernelPages p → h₁.Allocated p := by
  obtain ⟨free, hi⟩ := inv_boot hs hempty
  obtain ⟨free', hi', hm⟩ := hi.after hp
  refine ⟨hi'.sound, fun p ↦ (hm p).trans (manages_boot s), fun a halt ha ↦ ?_⟩
  obtain ⟨es₁, es₂, h₁, he, hp₁, ha₁⟩ := hi.stopped_cut hp nofun ha
  obtain ⟨free₁, hi₁, hm₁⟩ := hi.after hp₁
  refine ⟨es₁, es₂, h₁, he, hp₁, ha₁, fun p hin ↦ hi₁.sound.exhausted a ha₁ p ?_⟩
  rw [hm₁, manages_boot]
  exact hin

/-- Two harts call, the first one takes the mutex. -/
theorem freeList_sound_two :
    ∃ s h, play step (boot s) [.allocate 0, .allocate 1, .go 0] = some h ∧ h.Sound := by
  let s : State := ⟨fun _ ↦ zeros, 0, 0, 0x80010000⟩
  have hp : play step (boot s) [.allocate 0, .allocate 1, .go 0] = some _ := rfl
  exact ⟨s, _, hp, (freeList_sound (s := s) ⟨by decide, by decide⟩ rfl hp).1⟩

end Harts

end Orfos.Memory
