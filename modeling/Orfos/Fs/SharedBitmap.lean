import Orfos.Base.Guarded
import Orfos.Fs.Bitmap

/-!
# The bitmap among threads

`allocateBlock`, `freeBlock` and `fillBlock` of `kernel/fs/block.cpp` for any number of threads, one
step for each call into the buffer cache. `get` waits until no other thread has the buffer, and
`data` is what the cache and the disk together show. Apart from what the threads see stand a history
of the marks that were set and cleared, and the allocations that have returned with the contents
that they saw.

The marks are a set: an allocation adds a block that was not in it, a `freeBlock` takes one out.
This needs the marks of block 0 and of the bitmap itself, which `allocateBlock` would hand out and
fill otherwise.
-/

namespace Orfos.Fs

open Orfos.Base

/-- What a thread does with a buffer: `allocateBlock` looks for a clear bit from `block` on, or has
marked `b`; `fillBlock`; `freeBlock`. -/
inductive Task where
  | scan (block : UInt32)
  | mark (b : UInt32)
  | fill (b : UInt32)
  | free (b : UInt32)

/-- The block whose buffer it is. -/
def Task.target (sb : SuperBlock) : Task → UInt32
  | .scan block => bblock block sb
  | .mark b => bblock b sb
  | .fill b => b
  | .free b => bblock b sb

/-- Where a thread is: at the head of the outer loop of `allocateBlock`, before `get`, with the
buffer `bp`, before `writeLog`, or before `release`. -/
inductive Place where
  | idle
  | next (block : UInt32)
  | get (task : Task)
  | work (bp : UInt32) (task : Task)
  | log (bp : UInt32) (task : Task)
  | release (bp : UInt32) (task : Task)

/-- A bitmap block that `allocateBlock` has read, and the contents at that time. -/
structure Scan where
  block : UInt32
  data : UInt32 → Block

/-- A call of `allocateBlock` that has returned. -/
structure Allocation where
  thread : Nat
  scans : List Scan
  ret : UInt32

/-- A mark was set for a thread, or cleared. -/
inductive Note where
  | gave (t : Nat) (b : UInt32)
  | took (b : UInt32)

structure Allocator where
  superBlock : SuperBlock
  data : UInt32 → Block
  owner : UInt32 → Option Nat
  unlogged : Finset UInt32
  place : Nat → Place
  seen : Nat → List Scan
  history : List Note
  done : List Allocation

/-- A thread calls `allocateBlock` or `freeBlock`, or goes on. -/
inductive Request where
  | allocate (t : Nat)
  | free (t : Nat) (b : UInt32)
  | go (t : Nat)

namespace Allocator

def goto (s : Allocator) (t : Nat) (p : Place) : Allocator :=
  { s with place := Function.update s.place t p }

/-- `allocateBlock` returns. -/
def finish (s : Allocator) (t : Nat) (ret : UInt32) : Allocator :=
  { s.goto t .idle with done := s.done ++ [⟨t, s.seen t, ret⟩] }

/-- Change the bytes of a buffer. -/
def write (s : Allocator) (t : Nat) (bp : UInt32) (data : Block) (task : Task) : Allocator :=
  { s.goto t (.log bp task) with
    data := Function.update s.data bp data
    unlogged := insert bp s.unlogged }

/-- Between `get` and `release`, up to `writeLog`. -/
def work (s : Allocator) (t : Nat) (bp : UInt32) : Task → Option Allocator
  | .scan block =>
    let s := { s with seen := Function.update s.seen t (s.seen t ++ [Scan.mk block s.data]) }
    match findClear (s.data bp) block s.superBlock.size BITS_PER_BLOCK 0 with
    | some bit =>
      let b := block + UInt32.ofNat bit
      some { s.write t bp (setBit (s.data bp) bit) (.mark b) with
        history := s.history ++ [.gave t b] }
    | none => some (s.goto t (.release bp (.scan block)))
  | .mark _ => none
  | .fill b => some (s.write t bp (memset (s.data bp) 0 0 BLOCK_SIZE) (.fill b))
  | .free b =>
    let bit := b.toNat % BITS_PER_BLOCK
    if bitAt (s.data bp) bit then
      some { s.write t bp (clearBit (s.data bp) bit) (.free b) with
        history := s.history ++ [.took b] }
    else none

/-- After `release`. -/
def leave (s : Allocator) (t : Nat) : Task → Allocator
  | .scan block => s.goto t (.next (block + UInt32.ofNat BITS_PER_BLOCK))
  | .mark b => s.goto t (.get (.fill b))
  | .fill b => s.finish t b
  | .free _ => s.goto t .idle

/-- A thread goes on. -/
def go (s : Allocator) (t : Nat) : Option Allocator :=
  match s.place t with
  | .idle => none
  | .next block =>
    if block < s.superBlock.size then some (s.goto t (.get (.scan block)))
    else some (s.finish t 0)
  | .get task =>
    let bp := task.target s.superBlock
    if s.owner bp = none then
      some { s.goto t (.work bp task) with owner := Function.update s.owner bp (some t) }
    else none
  | .work bp task => s.work t bp task
  | .log bp task => some { s.goto t (.release bp task) with unlogged := s.unlogged.erase bp }
  | .release bp task => some { s.leave t task with owner := Function.update s.owner bp none }

/-- One step. -/
def step (s : Allocator) : Request → Option Allocator
  | .allocate t =>
    match s.place t with
    | .idle => some { s.goto t (.next 0) with seen := Function.update s.seen t [] }
    | _ => none
  | .free t b =>
    match s.place t with
    | .idle => some (s.goto t (.get (.free b)))
    | _ => none
  | .go t => s.go t

/-- The blocks that are marked. -/
def marks (s : Allocator) (b : UInt32) : Bool := bitOf s.superBlock s.data b

/-- No call has begun. -/
structure Begins (s : Allocator) : Prop where
  size : s.superBlock.size.toNat < 2 ^ 32 - BITS_PER_BLOCK
  zero : s.marks 0 = true
  owner : ∀ bp, s.owner bp = none
  unlogged : s.unlogged = ∅
  place : ∀ t, s.place t = .idle
  history : s.history = []
  done : s.done = []

/-- Block 0 and the blocks of the bitmap. -/
def Reserved (sb : SuperBlock) (b : UInt32) : Prop := b = 0 ∨ ∃ c < sb.size, bblock c sb = b

/-- The set of marked blocks stays as it is, or it changes with the history: a block that was not in
it is added, or a block that was in it is taken out. -/
def Refines (s s' : Allocator) : Prop :=
  (s'.history = s.history ∧ ∀ c < s.superBlock.size, s'.marks c = s.marks c) ∨
    (∃ t b, s'.history = s.history ++ [.gave t b] ∧ b < s.superBlock.size ∧ s.marks b = false ∧
      ∀ c < s.superBlock.size, s'.marks c = (s.marks c || decide (c = b))) ∨
    ∃ b, s'.history = s.history ++ [.took b] ∧ s.marks b = true ∧
      ∀ c < s.superBlock.size, s'.marks c = (s.marks c && !decide (c = b))

/-- Some scan has read the mark of a block. -/
def Read (sb : SuperBlock) (scans : List Scan) (c : UInt32) (m : Bool) : Prop :=
  ∃ p ∈ scans, bblock c sb = bblock p.block sb ∧ bitOf sb p.data c = m

/-- An allocation returns 0 if it saw all blocks marked. Otherwise it returns a block that it saw
unmarked and has marked, and it saw all blocks before it marked. -/
def Sound (s : Allocator) (a : Allocation) : Prop :=
  (a.ret = 0 ∧ ∀ c < s.superBlock.size, Read s.superBlock a.scans c true) ∨
    (a.ret ≠ 0 ∧ a.ret < s.superBlock.size ∧ Note.gave a.thread a.ret ∈ s.history ∧
      Read s.superBlock a.scans a.ret false ∧
      ∀ c < a.ret, Read s.superBlock a.scans c true)

end Allocator

/-- A thread outside of the buffers. -/
def Place.Free : Place → Prop
  | .idle => True
  | .next _ => True
  | .get _ => True
  | _ => False

namespace Allocator

variable {s s' u : Allocator} {t : Nat} {b c : UInt32}

/-- All blocks below `n` were seen marked. -/
def Passed (s : Allocator) (t n : Nat) : Prop :=
  ∀ c < s.superBlock.size, c.toNat < n → Read s.superBlock (s.seen t) c true

/-- A block that a thread has marked for itself. -/
structure Chosen (s : Allocator) (t : Nat) (b : UInt32) : Prop where
  lt : b < s.superBlock.size
  apart : ¬ Reserved s.superBlock b
  gave : Note.gave t b ∈ s.history
  clear : Read s.superBlock (s.seen t) b false
  least : ∀ c < b, Read s.superBlock (s.seen t) c true

/-- What a thread knows before it works on a buffer. -/
def Ready (s : Allocator) (t : Nat) : Task → Prop
  | .scan block =>
    block < s.superBlock.size ∧ ∃ k, block.toNat = 8192 * k ∧ s.Passed t (8192 * k)
  | .mark _ => False
  | .fill b => s.Chosen t b
  | .free b => ¬ Reserved s.superBlock b

/-- What a thread knows after it has worked on a buffer. -/
def Worked (s : Allocator) (t : Nat) : Task → Prop
  | .scan block =>
    block < s.superBlock.size ∧ ∃ k, block.toNat = 8192 * k ∧ s.Passed t (8192 * (k + 1))
  | .mark b => s.Chosen t b
  | .fill b => s.Chosen t b
  | .free _ => True

/-- What a thread knows where it is. -/
def Knows (s : Allocator) (t : Nat) : Place → Prop
  | .idle => True
  | .next block => ∃ k, block.toNat = 8192 * k ∧ s.Passed t (8192 * k)
  | .get task => s.Ready t task
  | .work bp task => bp = task.target s.superBlock ∧ s.owner bp = some t ∧ s.Ready t task
  | .log bp task => s.owner bp = some t ∧ s.Worked t task
  | .release bp task => s.owner bp = some t ∧ s.Worked t task

/-- What holds in every state. -/
structure Inv (s : Allocator) : Prop where
  size : s.superBlock.size.toNat < 2 ^ 32 - BITS_PER_BLOCK
  kept : ∀ b < s.superBlock.size, Reserved s.superBlock b → s.marks b = true
  knows : ∀ t, s.Knows t (s.place t)
  unlogged : ∀ bp ∈ s.unlogged, ∃ t task, s.place t = .log bp task ∧ s.owner bp = some t
  out : ∀ t b p m, s.history = p ++ .gave t b :: m → Note.took b ∉ m →
    b < s.superBlock.size ∧ s.marks b = true
  once : ∀ t t' b p m q, s.history = p ++ .gave t b :: (m ++ .gave t' b :: q) → Note.took b ∈ m
  done : ∀ a ∈ s.done, s.Sound a

/-! ### Steps -/

/-- What a thread knows depends on the scans of the thread and grows with the history. -/
theorem Chosen.of_grows (h : s.Chosen t b) (hsb : u.superBlock = s.superBlock)
    (hseen : u.seen t = s.seen t) (hh : ∀ n ∈ s.history, n ∈ u.history) : u.Chosen t b := by
  refine ⟨?_, ?_, hh _ h.gave, ?_, ?_⟩
  · rw [hsb]
    exact h.lt
  · rw [hsb]
    exact h.apart
  · rw [hsb, hseen]
    exact h.clear
  · rw [hsb, hseen]
    exact h.least

theorem Passed.of_same {n : Nat} (h : s.Passed t n) (hsb : u.superBlock = s.superBlock)
    (hseen : u.seen t = s.seen t) : u.Passed t n := by
  unfold Passed at *
  rwa [hsb, hseen]

theorem Ready.of_grows {task : Task} (h : s.Ready t task) (hsb : u.superBlock = s.superBlock)
    (hseen : u.seen t = s.seen t) (hh : ∀ n ∈ s.history, n ∈ u.history) : u.Ready t task := by
  cases task with
  | scan block =>
    obtain ⟨hlt, k, hk, hp⟩ := h
    exact ⟨hsb ▸ hlt, k, hk, hp.of_same hsb hseen⟩
  | mark b => exact h
  | fill b => exact Chosen.of_grows h hsb hseen hh
  | free b =>
    unfold Ready at *
    rwa [hsb]

theorem Worked.of_grows {task : Task} (h : s.Worked t task) (hsb : u.superBlock = s.superBlock)
    (hseen : u.seen t = s.seen t) (hh : ∀ n ∈ s.history, n ∈ u.history) : u.Worked t task := by
  cases task with
  | scan block =>
    obtain ⟨hlt, k, hk, hp⟩ := h
    exact ⟨hsb ▸ hlt, k, hk, hp.of_same hsb hseen⟩
  | mark b => exact Chosen.of_grows h hsb hseen hh
  | fill b => exact Chosen.of_grows h hsb hseen hh
  | free b => trivial

/-- What a thread knows stays while it keeps its buffers. -/
theorem Knows.of_grows {p : Place} (h : s.Knows t p) (hsb : u.superBlock = s.superBlock)
    (hseen : u.seen t = s.seen t) (hh : ∀ n ∈ s.history, n ∈ u.history)
    (ho : ∀ bp, s.owner bp = some t → u.owner bp = some t) : u.Knows t p := by
  cases p with
  | idle => trivial
  | next block =>
    obtain ⟨k, hk, hp⟩ := h
    exact ⟨k, hk, hp.of_same hsb hseen⟩
  | get task => exact Ready.of_grows h hsb hseen hh
  | work bp task =>
    obtain ⟨hbp, hown, hr⟩ := h
    exact ⟨hsb ▸ hbp, ho bp hown, Ready.of_grows hr hsb hseen hh⟩
  | log bp task =>
    obtain ⟨hown, hw⟩ := h
    exact ⟨ho bp hown, Worked.of_grows hw hsb hseen hh⟩
  | release bp task =>
    obtain ⟨hown, hw⟩ := h
    exact ⟨ho bp hown, Worked.of_grows hw hsb hseen hh⟩

theorem Sound.of_grows {a : Allocation} (h : s.Sound a) (hsb : u.superBlock = s.superBlock)
    (hh : ∀ n ∈ s.history, n ∈ u.history) : u.Sound a := by
  unfold Sound at *
  rw [hsb]
  rcases h with h | ⟨hne, hlt, hg, hrest⟩
  · exact .inl h
  · exact .inr ⟨hne, hlt, hh _ hg, hrest⟩

/-! ### The history -/

/-- Where an entry stands in a list with one more entry. -/
private theorem split_concat {α : Type} {l p m : List α} {x n : α} (h : l ++ [n] = p ++ x :: m) :
    (m = [] ∧ l = p ∧ n = x) ∨ ∃ m', m = m' ++ [n] ∧ l = p ++ x :: m' := by
  rcases List.eq_nil_or_concat m with rfl | ⟨m', n', rfl⟩
  · have := List.append_inj' h rfl
    exact .inl ⟨rfl, this.1, List.singleton_inj.mp this.2⟩
  · rw [List.concat_eq_append, ← List.cons_append, ← List.append_assoc] at h
    obtain ⟨hl, hn⟩ := List.append_inj' h rfl
    refine .inr ⟨m', ?_, hl⟩
    rw [List.concat_eq_append, List.singleton_inj.mp hn]

theorem Refines.grows (h : Refines s u) : ∀ n ∈ s.history, n ∈ u.history := by
  intro n hn
  rcases h with ⟨hh, -⟩ | ⟨t, b, hh, -⟩ | ⟨b, hh, -⟩
  · rwa [hh]
  · rw [hh]
    exact List.mem_append_left _ hn
  · rw [hh]
    exact List.mem_append_left _ hn

/-- A block that was given and not taken back stays marked. -/
theorem Refines.out (h : Refines s u) (hsb : u.superBlock = s.superBlock) (hi : Inv s) :
    ∀ t b p m, u.history = p ++ .gave t b :: m → Note.took b ∉ m →
      b < u.superBlock.size ∧ u.marks b = true := by
  rw [hsb]
  intro t b p m he hm
  rcases h with ⟨hh, hmarks⟩ | ⟨t', b', hh, hlt, -, hmarks⟩ | ⟨b', hh, -, hmarks⟩
  · rw [hh] at he
    obtain ⟨hb, hset⟩ := hi.out t b p m he hm
    exact ⟨hb, by rw [hmarks b hb, hset]⟩
  · rw [hh] at he
    rcases split_concat he with ⟨-, -, hn⟩ | ⟨m', rfl, hs⟩
    · cases hn
      exact ⟨hlt, by simp [hmarks b hlt]⟩
    · obtain ⟨hb, hset⟩ := hi.out t b p m' hs fun hmem ↦ hm (List.mem_append_left _ hmem)
      exact ⟨hb, by simp [hmarks b hb, hset]⟩
  · rw [hh] at he
    rcases split_concat he with ⟨-, -, hn⟩ | ⟨m', rfl, hs⟩
    · cases hn
    · obtain ⟨hb, hset⟩ := hi.out t b p m' hs fun hmem ↦ hm (List.mem_append_left _ hmem)
      have hne : b ≠ b' := by
        rintro rfl
        exact hm (List.mem_append_right _ (List.mem_singleton_self _))
      exact ⟨hb, by simp [hmarks b hb, hset, hne]⟩

/-- Between two times that a block is given it is taken back. -/
theorem Refines.once (h : Refines s u) (hi : Inv s) :
    ∀ t t' b p m q, u.history = p ++ .gave t b :: (m ++ .gave t' b :: q) → Note.took b ∈ m := by
  intro t t' b p m q he
  rcases h with ⟨hh, -⟩ | ⟨t₁, b₁, hh, -, hfree, -⟩ | ⟨b₁, hh, -⟩
  · rw [hh] at he
    exact hi.once t t' b p m q he
  · rw [hh, ← List.cons_append, ← List.append_assoc] at he
    rcases split_concat he with ⟨-, hs, hn⟩ | ⟨q', -, hs⟩
    · cases hn
      by_contra hm
      have hset := (hi.out t b p m hs hm).2
      rw [hfree] at hset
      cases hset
    · rw [List.append_assoc, List.cons_append] at hs
      exact hi.once t t' b p m q' hs
  · rw [hh, ← List.cons_append, ← List.append_assoc] at he
    rcases split_concat he with ⟨-, -, hn⟩ | ⟨q', -, hs⟩
    · cases hn
    · rw [List.append_assoc, List.cons_append] at hs
      exact hi.once t t' b p m q' hs

/-- What a step of thread `t` does. -/
structure Moved (s : Allocator) (t : Nat) (u : Allocator) : Prop where
  superBlock : u.superBlock = s.superBlock
  refines : Refines s u
  apart : ∀ b, u.history = s.history ++ [.took b] → ¬ Reserved s.superBlock b
  place : ∀ t', t' ≠ t → u.place t' = s.place t'
  seen : ∀ t', t' ≠ t → u.seen t' = s.seen t'
  owner : ∀ t' bp, t' ≠ t → s.owner bp = some t' → u.owner bp = some t'
  knows : u.Knows t (u.place t)
  unlogged : ∀ bp ∈ u.unlogged,
    (bp ∈ s.unlogged ∧ ∀ task, s.place t ≠ .log bp task) ∨
      ∃ task, u.place t = .log bp task ∧ u.owner bp = some t
  done : ∀ a ∈ u.done, a ∈ s.done ∨ s.Sound a

/-- The invariant is kept. -/
theorem Moved.inv (h : Inv s) (hu : Moved s t u) : Inv u := by
  have hgrows := hu.refines.grows
  refine ⟨hu.superBlock ▸ h.size, ?_, ?_, ?_, hu.refines.out hu.superBlock h, hu.refines.once h, ?_⟩
  · rw [hu.superBlock]
    intro b hb hr
    have hset := h.kept b hb hr
    rcases hu.refines with ⟨-, hmarks⟩ | ⟨t', b', -, -, -, hmarks⟩ | ⟨b', hh, -, hmarks⟩
    · rw [hmarks b hb, hset]
    · simp [hmarks b hb, hset]
    · have hne : b ≠ b' := by
        rintro rfl
        exact hu.apart b hh hr
      simp [hmarks b hb, hset, hne]
  · intro t'
    by_cases ht : t' = t
    · exact ht ▸ hu.knows
    · rw [hu.place t' ht]
      exact (h.knows t').of_grows hu.superBlock (hu.seen t' ht) hgrows fun bp ↦ hu.owner t' bp ht
  · intro bp hbp
    rcases hu.unlogged bp hbp with ⟨hmem, hnot⟩ | ⟨task, hp, ho⟩
    · obtain ⟨t', task, hp, ho⟩ := h.unlogged bp hmem
      have ht : t' ≠ t := by
        rintro rfl
        exact hnot task hp
      exact ⟨t', task, by rw [hu.place t' ht, hp], hu.owner t' bp ht ho⟩
    · exact ⟨t, task, hp, ho⟩
  · intro a ha
    rcases hu.done a ha with ha | ha
    · exact (h.done a ha).of_grows hu.superBlock hgrows
    · exact ha.of_grows hu.superBlock hgrows

/-! ### Single steps -/

/-- A buffer is released. -/
theorem Moved.drop {bp : UInt32} (h : Moved s t u) (ho : s.owner bp = some t)
    (hou : u.owner = s.owner) (hfree : (u.place t).Free) :
    Moved s t { u with owner := Function.update u.owner bp none } := by
  refine ⟨h.superBlock, h.refines, h.apart, h.place, h.seen, fun t' bp' ht hbp ↦ ?_, ?_,
    fun bp' hbp ↦ ?_, h.done⟩
  · have hne : bp' ≠ bp := by
      rintro rfl
      rw [ho] at hbp
      exact ht (Option.some.inj hbp).symm
    change Function.update u.owner bp none bp' = _
    rw [Function.update_of_ne hne, hou, hbp]
  · have hk := h.knows
    change Knows _ t (u.place t)
    cases hp : u.place t with
    | idle => trivial
    | next block =>
      rw [hp] at hk
      obtain ⟨k, hk, hpass⟩ := hk
      exact ⟨k, hk, hpass.of_same rfl rfl⟩
    | get task =>
      rw [hp] at hk
      exact Ready.of_grows hk rfl rfl fun _ hn ↦ hn
    | work bp task =>
      rw [hp] at hfree
      cases hfree
    | log bp task =>
      rw [hp] at hfree
      cases hfree
    | release bp task =>
      rw [hp] at hfree
      cases hfree
  · rcases h.unlogged bp' hbp with hun | ⟨task, hp, -⟩
    · exact .inl hun
    · rw [hp] at hfree
      cases hfree

/-- A scan is added to those of a thread. -/
theorem Read.concat {sb : SuperBlock} {scans : List Scan} {p : Scan} {m : Bool}
    (h : Read sb scans c m) : Read sb (scans ++ [p]) c m := by
  obtain ⟨q, hq, hrest⟩ := h
  exact ⟨q, List.mem_append_left _ hq, hrest⟩

theorem Begins.inv (h : s.Begins) (hkept : ∀ b < s.superBlock.size, Reserved s.superBlock b →
    s.marks b = true) : Inv s := by
  refine ⟨h.size, hkept, fun t ↦ ?_, ?_, ?_, ?_, ?_⟩
  · rw [h.place]
    trivial
  · rw [h.unlogged]
    exact fun bp hbp ↦ absurd hbp (Finset.notMem_empty bp)
  · rw [h.history]
    intro t b p m he
    exact absurd he (by simp)
  · rw [h.history]
    intro t t' b p m q he
    exact absurd he (by simp)
  · rw [h.done]
    nofun

/-- A disk of 2000 blocks with its bitmap in block 46, of which the first `n` are marked. -/
def partly (n : Nat) : Allocator where
  superBlock := ⟨2000, 200, 31, 2, 33, 46⟩
  data b := if b = 46 then fun k ↦
    if k.val < n / 8 then 0xff else if k.val = n / 8 then UInt8.ofNat (2 ^ (n % 8) - 1) else 0
    else Block.zero
  owner _ := none
  unlogged := ∅
  place _ := .idle
  seen _ := []
  history := []
  done := []

end Allocator
end Orfos.Fs
