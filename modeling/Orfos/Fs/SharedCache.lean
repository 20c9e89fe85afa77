import Mathlib.Data.Finset.Card
import Orfos.Base.Guarded
import Orfos.Fs.State

/-!
# The buffer cache shared by processes

`BufferCache::get`, `release`, `pin` and `unpin` (`kernel/fs/buffer.cpp`) called by any number
of processes, over the table that `HashMap` implements. A step is one access to shared data:
`++refCount` and `--refCount` are a load and a store. `get`, `pin` and the second half of
`release` run under the spin lock of the cache, `unpin` runs without it. A process that uses
several buffers at a time counts as one process for each. Buffers are numbered, as
`operator delete` never gives memory back; reference counts do not wrap around. What
`Buffer::read` gets from the disk is part of the event, and the contents of a buffer are one number.

A process reads, pins, unpins and changes only the buffer whose lock it holds, and takes back only
pins that exist, as the log does. The pins of a buffer and the last change made to a block since
it came into the cache are kept beside the code's own data.
-/

namespace Orfos.Fs

open Orfos.Base Orfos.Lib

/-- The function that changes a reference count. -/
inductive Site where
  | get
  | pin
  | unpin
  | release
  deriving DecidableEq, Repr

/-- The next step of a process; `i` is its buffer. -/
inductive Pc where
  | outside
  | lockGet (device block : UInt32)
  | lockPin (i : Nat)
  | lockRelease (i : Nat)
  | find (device block : UInt32)
  | load (site : Site) (i : Nat)
  | store (site : Site) (i n : Nat)
  | test (i : Nat)
  | unlockGet (i : Nat)
  | unlockPin (i : Nat)
  | unlockRelease
  | wait (i : Nat)
  | holding (i : Nat)
  | check (i : Nat)
  | drop (i : Nat)
  deriving DecidableEq, Repr

/-- `Buffer`, `kernel/fs/buffer.h`; `holder` is the process that has its sleep lock. -/
structure SharedBuffer where
  device : UInt32
  block : UInt32
  refCount : Nat
  holder : Option Nat
  data : Nat
  valid : Bool
  deleted : Bool

/-- The cache and the processes. `mutex` is the process that has the spin lock. -/
structure Shared where
  mutex : Option Nat
  table : Table UInt64 Nat
  buffer : Nat → SharedBuffer
  next : Nat
  pc : Nat → Pc
  pins : Nat → Nat
  latest : UInt64 → Option Nat

/-- What a process does next: call a function, change its buffer, or go on in the code. -/
inductive Use where
  | get (device block : UInt32)
  | pin
  | unpin
  | release
  | read (disk : Nat)
  | modify (data : Nat)
  | go
  deriving DecidableEq, Repr

namespace SharedBuffer

/-- The table key of a buffer. -/
def key (b : SharedBuffer) : UInt64 := Fs.key b.device b.block

end SharedBuffer

namespace Shared

/-- Move a process on. -/
def goto (s : Shared) (a : Nat) (l : Pc) : Shared := { s with pc := Function.update s.pc a l }

/-- Change the fields of a buffer. -/
def setBuffer (s : Shared) (i : Nat) (f : SharedBuffer → SharedBuffer) : Shared :=
  { s with buffer := Function.update s.buffer i (f (s.buffer i)) }

/-- Change the fields of a buffer, and the pins. -/
def adjust (s : Shared) (i : Nat) (f : SharedBuffer → SharedBuffer) (pins : Nat → Nat) : Shared :=
  { s.setBuffer i f with pins := pins }

/-- The branch of `get` on whether the table has the block. -/
def find (s : Shared) (a : Nat) (device block : UInt32) : Shared :=
  match s.table.lookup (key device block) with
  | some i => s.goto a (.load .get i)
  | none =>
    { s with
      table := (s.table.touch (key device block)).update (key device block) fun _ ↦ s.next
      buffer := Function.update s.buffer s.next ⟨device, block, 0, none, 0, false, false⟩
      next := s.next + 1 }.goto a (.load .get s.next)

/-- The store of `++refCount` or `--refCount`, after a load of `n`. -/
def store (s : Shared) (a : Nat) (i n : Nat) : Site → Shared
  | .get => (s.setBuffer i fun b ↦ { b with refCount := n + 1 }).goto a (.unlockGet i)
  | .pin =>
    (s.adjust i (fun b ↦ { b with refCount := n + 1 })
      (Function.update s.pins i (s.pins i + 1))).goto a (.unlockPin i)
  | .unpin =>
    (s.adjust i (fun b ↦ { b with refCount := n - 1 })
      (Function.update s.pins i (s.pins i - 1))).goto a (.holding i)
  | .release => (s.setBuffer i fun b ↦ { b with refCount := n - 1 }).goto a (.test i)

/-- The end of `release`: `erase` and `delete` if nobody refers to the buffer. -/
def test (s : Shared) (a : Nat) (i : Nat) : Shared :=
  if (s.buffer i).refCount = 0 then
    { s.setBuffer i fun b ↦ { b with deleted := true } with
      table := s.table.erase (s.buffer i).key
      latest := Function.update s.latest (s.buffer i).key none }.goto a .unlockRelease
  else s.goto a .unlockRelease

/-- `SpinMutex::lock`, once the lock is free. -/
def lock (s : Shared) (a : Nat) (l : Pc) : Option Shared :=
  if s.mutex = none then some ({ s with mutex := some a }.goto a l) else none

/-- `SpinMutex::unlock`. -/
def unlock (s : Shared) (a : Nat) (l : Pc) : Shared := { s with mutex := none }.goto a l

/-- The next step of the code. -/
def go (s : Shared) (a : Nat) : Option Shared :=
  match s.pc a with
  | .outside | .holding _ => none
  | .lockGet device block => s.lock a (.find device block)
  | .lockPin i => s.lock a (.load .pin i)
  | .lockRelease i => s.lock a (.load .release i)
  | .find device block => some (s.find a device block)
  | .load site i => some (s.goto a (.store site i (s.buffer i).refCount))
  | .store site i n => some (s.store a i n site)
  | .test i => some (s.test a i)
  | .unlockGet i => some (s.unlock a (.wait i))
  | .unlockPin i => some (s.unlock a (.holding i))
  | .unlockRelease => some (s.unlock a .outside)
  | .wait i =>
    if (s.buffer i).holder = none then
      some ((s.setBuffer i fun b ↦ { b with holder := some a }).goto a (.holding i))
    else none
  | .check i => if 1 ≤ (s.buffer i).refCount then some (s.goto a (.load .unpin i)) else none
  | .drop i =>
    if (s.buffer i).holder = some a then
      some ((s.setBuffer i fun b ↦ { b with holder := none }).goto a (.lockRelease i))
    else none

/-- One step of a process. -/
def step (s : Shared) (e : Nat × Use) : Option Shared :=
  match s.pc e.1, e.2 with
  | .outside, .get device block => some (s.goto e.1 (.lockGet device block))
  | .holding i, .pin => some (s.goto e.1 (.lockPin i))
  | .holding i, .unpin => if 0 < s.pins i then some (s.goto e.1 (.check i)) else none
  | .holding i, .release => some (s.goto e.1 (.drop i))
  | .holding i, .read disk =>
    if (s.buffer i).valid then some s
    else some (s.setBuffer i fun b ↦ { b with data := disk, valid := true })
  | .holding i, .modify data =>
    some { s.setBuffer i fun b ↦ { b with data := data } with
      latest := Function.update s.latest (s.buffer i).key (some data) }
  | _, .go => s.go e.1
  | _, _ => none

/-- An empty cache that nobody uses. -/
def initial (bucket : UInt64 → Nat) : Shared where
  mutex := none
  table := Table.empty bucket
  buffer _ := ⟨0, 0, 0, none, 0, false, false⟩
  next := 0
  pc _ := .outside
  pins _ := 0
  latest _ := none

end Shared

namespace Pc

/-- The process holds the buffer or waits for it. -/
@[simp] def Uses (i : Nat) : Pc → Prop
  | .lockPin j | .lockRelease j | .unlockGet j | .unlockPin j | .wait j | .holding j | .check j
  | .drop j => j = i
  | .load site j | .store site j _ => site ≠ .get ∧ j = i
  | _ => False

/-- The process has the sleep lock of the buffer. -/
@[simp] def Owns (i : Nat) : Pc → Prop
  | .lockPin j | .unlockPin j | .holding j | .check j | .drop j => j = i
  | .load site j | .store site j _ => (site = .pin ∨ site = .unpin) ∧ j = i
  | _ => False

/-- The process has the spin lock of the cache. -/
@[simp] def InMutex : Pc → Prop
  | .find _ _ | .test _ | .unlockGet _ | .unlockPin _ | .unlockRelease => True
  | .load site _ | .store site _ _ => site ≠ .unpin
  | .outside | .lockGet _ _ | .lockPin _ | .lockRelease _ | .wait _ | .holding _ | .check _
  | .drop _ => False

/-- The process is about to access the buffer. -/
@[simp] def Refers (i : Nat) : Pc → Prop
  | .lockPin j | .lockRelease j | .load _ j | .store _ j _ | .test j | .unlockGet j
  | .unlockPin j | .wait j | .holding j | .check j | .drop j => j = i
  | _ => False

/-- The process is about to take a pin back. -/
@[simp] def Unpins (i : Nat) : Pc → Prop
  | .check j => j = i
  | .load site j | .store site j _ => site = .unpin ∧ j = i
  | _ => False

/-- The process has loaded the reference count and is about to store it. -/
@[simp] def Counts (i : Nat) : Pc → Prop
  | .store _ j _ => j = i
  | _ => False

end Pc

namespace Shared

/-- A buffer that was made and not deleted. -/
def Live (s : Shared) (i : Nat) : Prop := i < s.next ∧ (s.buffer i).deleted = false

/-- There is at most one buffer for a block, and `get` finds it. Its reference count is the
number of processes that hold it or wait for it and of its pins, and a deleted buffer has none.
The last change made to the block is in it. -/
structure Coherent (s : Shared) : Prop where
  unique : ∀ i j, s.Live i → s.Live j → (s.buffer i).key = (s.buffer j).key → i = j
  found : ∀ i, s.Live i → s.table.lookup (s.buffer i).key = some i
  counted : ∀ i, s.Live i → ∃ users : Finset Nat, (∀ a, a ∈ users ↔ (s.pc a).Uses i) ∧
    (s.buffer i).refCount = users.card + s.pins i
  deleted : ∀ i, (s.buffer i).deleted = true →
    (s.buffer i).refCount = 0 ∧ s.pins i = 0 ∧ ∀ a, ¬ (s.pc a).Uses i
  latest : ∀ i data, s.Live i → s.latest (s.buffer i).key = some data →
    (s.buffer i).data = data

/-- `get` inserts only into a bucket with room, the change of a reference count starts only
where no other change of the same count is between its load and its store, and a process changes
a buffer only after `read`. -/
structure Spaced (s : Shared) (e : Nat × Use) : Prop where
  room : ∀ device block, s.pc e.1 = .find device block → s.table.HasRoom (key device block)
  alone : ∀ site i, s.pc e.1 = .load site i → ∀ b, ¬ (s.pc b).Counts i
  valid : ∀ i data, s.pc e.1 = .holding i → e.2 = .modify data → (s.buffer i).valid = true

/-- What is known of the buffers. -/
structure Tidy (s : Shared) : Prop where
  found : ∀ i, s.Live i → s.table.lookup (s.buffer i).key = some i
  live : ∀ k i, s.table.lookup k = some i → s.Live i ∧ (s.buffer i).key = k
  gone : ∀ i, (s.buffer i).deleted = true → (s.buffer i).refCount = 0 ∧ s.pins i = 0
  fresh : ∀ i, s.next ≤ i → s.pins i = 0
  latest : ∀ k data, s.latest k = some data →
    ∃ i, s.table.lookup k = some i ∧ (s.buffer i).valid = true ∧ (s.buffer i).data = data

/-- What is known of process `a` at the place `l`. -/
structure Local (s : Shared) (a : Nat) (l : Pc) : Prop where
  refs : ∀ i, l.Refers i → s.Live i
  own : ∀ i, l.Owns i → (s.buffer i).holder = some a
  window : ∀ site i n, l = .store site i n → (s.buffer i).refCount = n
  pinned : ∀ i, l.Unpins i → 0 < s.pins i
  mutex : l.InMutex ↔ s.mutex = some a

/-- The users and the pins of a buffer add up to its reference count. -/
def Counted (s : Shared) (pc : Nat → Pc) (i : Nat) : Prop :=
  ∃ users : Finset Nat, (∀ a, a ∈ users ↔ (pc a).Uses i) ∧
    (s.buffer i).refCount = users.card + s.pins i

/-- The invariant of the cache and the processes. -/
structure Inv (s : Shared) : Prop extends Tidy s where
  proc : ∀ a, s.Local a (s.pc a)
  alone : ∀ a b i, (s.pc a).Counts i → (s.pc b).Counts i → a = b
  counted : ∀ i, s.Live i → s.Counted s.pc i

variable {s u : Shared} {a b i n : Nat} {l l' : Pc} {site : Site} {device block : UInt32}

/-- The invariant after a step of process `a`, from what the step did to the data. -/
theorem Inv.goto (hs : Inv s) (hpc : u.pc = s.pc) (htidy : Tidy u) (hmine : u.Local a l)
    (hothers : ∀ b, b ≠ a → u.Local b (s.pc b))
    (halone : ∀ i, l.Counts i → ∀ b, b ≠ a → ¬ (s.pc b).Counts i)
    (hcounted : ∀ i, u.Live i → u.Counted (Function.update s.pc a l) i) : Inv (u.goto a l) := by
  have hplace : ∀ b, (u.goto a l).pc b = if b = a then l else s.pc b := by
    intro b
    rw [Shared.goto, hpc]
    exact Function.update_apply ..
  refine ⟨⟨htidy.found, htidy.live, htidy.gone, htidy.fresh, htidy.latest⟩, fun b ↦ ?_,
    fun b c i hb hc ↦ ?_, fun i hi ↦ ?_⟩
  · rw [hplace]
    by_cases hb : b = a
    · subst hb
      rw [if_pos rfl]
      obtain ⟨h₁, h₂, h₃, h₄, h₅⟩ := hmine
      exact ⟨h₁, h₂, h₃, h₄, h₅⟩
    · rw [if_neg hb]
      obtain ⟨h₁, h₂, h₃, h₄, h₅⟩ := hothers b hb
      exact ⟨h₁, h₂, h₃, h₄, h₅⟩
  · rw [hplace] at hb hc
    split at hb <;> split at hc
    · next h h' => rw [h, h']
    · next h h' => exact absurd hc (halone i hb c h')
    · next h h' => exact absurd hb (halone i hc b h)
    · exact hs.alone b c i hb hc
  · obtain ⟨users, hm, hc⟩ := hcounted i hi
    refine ⟨users, fun b ↦ ?_, hc⟩
    rw [hm, Shared.goto, hpc]

section Counting

/-- A process that uses as much as before leaves the count to the pins. -/
theorem Counted.same (hc : s.Counted s.pc i) (hl : l.Uses i ↔ (s.pc a).Uses i)
    (hu : (u.buffer i).refCount + s.pins i = (s.buffer i).refCount + u.pins i) :
    u.Counted (Function.update s.pc a l) i := by
  obtain ⟨users, hm, hc⟩ := hc
  refine ⟨users, fun b ↦ ?_, by omega⟩
  rw [hm, Function.update_apply]
  split
  · next h => rw [h, hl]
  · rfl

/-- A new user counts. -/
theorem Counted.gain (hc : s.Counted s.pc i) (hl : l.Uses i) (ha : ¬ (s.pc a).Uses i)
    (hu : (u.buffer i).refCount = (s.buffer i).refCount + 1) (hpins : u.pins i = s.pins i) :
    u.Counted (Function.update s.pc a l) i := by
  obtain ⟨users, hm, hc⟩ := hc
  refine ⟨insert a users, fun b ↦ ?_, ?_⟩
  · rw [Finset.mem_insert, hm, Function.update_apply]
    split
    · next h => exact iff_of_true (.inl h) hl
    · next h => exact or_iff_right h
  · rw [Finset.card_insert_of_notMem fun h ↦ ha ((hm a).mp h), hu, hpins]
    omega

/-- A user that leaves does not count any more. -/
theorem Counted.loss (hc : s.Counted s.pc i) (hl : ¬ l.Uses i) (ha : (s.pc a).Uses i)
    (hu : (u.buffer i).refCount = (s.buffer i).refCount - 1) (hpins : u.pins i = s.pins i) :
    u.Counted (Function.update s.pc a l) i := by
  obtain ⟨users, hm, hc⟩ := hc
  refine ⟨users.erase a, fun b ↦ ?_, ?_⟩
  · rw [Finset.mem_erase, hm, Function.update_apply]
    split
    · next h => exact iff_of_false (fun h' ↦ h'.1 h) hl
    · next h => exact and_iff_right h
  · have hmem := (hm a).mpr ha
    have hpos := Finset.card_pos.mpr ⟨a, hmem⟩
    rw [Finset.card_erase_of_mem hmem, hu, hpins]
    omega

end Counting

/-- A step that changes nothing but the spin lock and the place of the process. -/
theorem Inv.walk (hs : Inv s) {m : Option Nat} (hm : ∀ b, b ≠ a → (s.mutex = some b ↔ m = some b))
    (hmine : { s with mutex := m }.Local a l)
    (halone : ∀ i, l.Counts i → ∀ b, b ≠ a → ¬ (s.pc b).Counts i)
    (huses : ∀ i, l.Uses i ↔ (s.pc a).Uses i) : Inv ({ s with mutex := m }.goto a l) := by
  have htidy : Tidy { s with mutex := m } := ⟨hs.found, hs.live, hs.gone, hs.fresh, hs.latest⟩
  refine hs.goto rfl htidy hmine (fun b hb ↦ ?_) halone fun i hi ↦
    (hs.counted i hi).same (huses i) rfl
  obtain ⟨h₁, h₂, h₃, h₄, h₅⟩ := hs.proc b
  exact ⟨h₁, h₂, h₃, h₄, h₅.trans (hm b hb)⟩

/-- A call of one of the functions. -/
theorem Inv.call (hs : Inv s) (hcall : (s.pc a = .outside ∧ ∃ d b, l = .lockGet d b) ∨
    ∃ i, s.pc a = .holding i ∧
      (l = .lockPin i ∨ l = .drop i ∨ 0 < s.pins i ∧ l = .check i)) :
    Inv (s.goto a l) := by
  refine hs.walk (m := s.mutex) (fun _ _ ↦ Iff.rfl) ?_ ?_ ?_
  · obtain ⟨hrefs, hown, -, -, hmutex⟩ := hs.proc a
    rcases hcall with ⟨hp, d, b, rfl⟩ | ⟨i, hp, hl⟩
    · simp only [hp, Pc.InMutex] at hmutex
      exact ⟨by simp, by simp, by simp, by simp, hmutex⟩
    · simp only [hp, Pc.Refers, Pc.Owns, Pc.InMutex, forall_eq'] at hrefs hown hmutex
      rcases hl with rfl | rfl | ⟨hpins, rfl⟩
      · exact ⟨fun _ hj ↦ hj ▸ hrefs, by simpa using hown, by simp, by simp, hmutex⟩
      · exact ⟨fun _ hj ↦ hj ▸ hrefs, by simpa using hown, by simp, by simp, hmutex⟩
      · exact ⟨fun _ hj ↦ hj ▸ hrefs, by simpa using hown, by simp, by simpa using hpins, hmutex⟩
  · rcases hcall with ⟨-, d, b, rfl⟩ | ⟨i, -, rfl | rfl | ⟨-, rfl⟩⟩ <;> simp
  · rcases hcall with ⟨hp, d, b, rfl⟩ | ⟨i, hp, rfl | rfl | ⟨-, rfl⟩⟩ <;> simp [hp]

/-- A process takes the spin lock. -/
theorem Inv.lock (hs : Inv s) (hu : s.lock a l = some u)
    (hp : (∃ d b, s.pc a = .lockGet d b ∧ l = .find d b) ∨
      (∃ i, s.pc a = .lockPin i ∧ l = .load .pin i) ∨
      ∃ i, s.pc a = .lockRelease i ∧ l = .load .release i) : Inv u := by
  unfold Shared.lock at hu
  split at hu
  · next hfree =>
    cases hu
    refine hs.walk (fun b hb ↦ ?_) ?_ ?_ ?_
    · rw [hfree]
      exact iff_of_false (by simp) fun h ↦ hb (Option.some.inj h).symm
    · obtain ⟨hrefs, hown, -, -, -⟩ := hs.proc a
      rcases hp with ⟨d, b, hp, rfl⟩ | ⟨i, hp, rfl⟩ | ⟨i, hp, rfl⟩
      · exact ⟨by simp, by simp, by simp, by simp, by simp⟩
      · simp only [hp, Pc.Refers, Pc.Owns, forall_eq'] at hrefs hown
        exact ⟨fun _ hj ↦ hj ▸ hrefs, by simpa using hown, by simp, by simp, by simp⟩
      · simp only [hp, Pc.Refers, forall_eq'] at hrefs
        exact ⟨fun _ hj ↦ hj ▸ hrefs, by simp, by simp, by simp, by simp⟩
    · rcases hp with ⟨d, b, -, rfl⟩ | ⟨i, -, rfl⟩ | ⟨i, -, rfl⟩ <;> simp
    · rcases hp with ⟨d, b, hp, rfl⟩ | ⟨i, hp, rfl⟩ | ⟨i, hp, rfl⟩ <;> simp [hp]
  · cases hu

/-- A process gives the spin lock back. -/
theorem Inv.unlock (hs : Inv s) (hp : (∃ i, s.pc a = .unlockGet i ∧ l = .wait i) ∨
      (∃ i, s.pc a = .unlockPin i ∧ l = .holding i) ∨
      s.pc a = .unlockRelease ∧ l = .outside) : Inv (s.unlock a l) := by
  obtain ⟨hrefs, hown, -, -, hmutex⟩ := hs.proc a
  refine hs.walk (fun b hb ↦ ?_) ?_ ?_ ?_
  · have ha : s.mutex = some a := by
      refine hmutex.mp ?_
      rcases hp with ⟨i, hp, -⟩ | ⟨i, hp, -⟩ | ⟨hp, -⟩ <;> simp [hp]
    rw [ha]
    exact iff_of_false (fun h ↦ hb (Option.some.inj h).symm) (by simp)
  · rcases hp with ⟨i, hp, rfl⟩ | ⟨i, hp, rfl⟩ | ⟨hp, rfl⟩
    · simp only [hp, Pc.Refers, forall_eq'] at hrefs
      exact ⟨fun _ hj ↦ hj ▸ hrefs, by simp, by simp, by simp, by simp⟩
    · simp only [hp, Pc.Refers, Pc.Owns, forall_eq'] at hrefs hown
      exact ⟨fun _ hj ↦ hj ▸ hrefs, by simpa using hown, by simp, by simp, by simp⟩
    · exact ⟨by simp, by simp, by simp, by simp, by simp⟩
  · rcases hp with ⟨i, -, rfl⟩ | ⟨i, -, rfl⟩ | ⟨-, rfl⟩ <;> simp
  · rcases hp with ⟨i, hp, rfl⟩ | ⟨i, hp, rfl⟩ | ⟨hp, rfl⟩ <;> simp [hp]

/-- A load of a reference count that nobody else is about to store. -/
theorem Inv.load (hs : Inv s) (hp : s.pc a = .load site i) (hspaced : ∀ b, ¬ (s.pc b).Counts i) :
    Inv (s.goto a (.store site i (s.buffer i).refCount)) := by
  obtain ⟨hrefs, hown, -, hpinned, hmutex⟩ := hs.proc a
  simp only [hp, Pc.Refers, Pc.Owns, Pc.Unpins, Pc.InMutex, forall_eq'] at hrefs hown hpinned hmutex
  refine hs.walk (m := s.mutex) (fun _ _ ↦ Iff.rfl) ?_ ?_ fun j ↦ by simp [hp]
  · refine ⟨fun _ hj ↦ hj ▸ hrefs, hown, ?_, hpinned, hmutex⟩
    intro site' j n h
    cases h
    rfl
  · intro j hj b _
    cases hj
    exact hspaced b

/-- `assert(refCount >= 1)` in `unpin`. -/
theorem Inv.check (hs : Inv s) (hp : s.pc a = .check i) : Inv (s.goto a (.load .unpin i)) := by
  obtain ⟨hrefs, hown, -, hpinned, hmutex⟩ := hs.proc a
  simp only [hp, Pc.Refers, Pc.Owns, Pc.Unpins, Pc.InMutex, forall_eq'] at hrefs hown hpinned hmutex
  refine hs.walk (m := s.mutex) (fun _ _ ↦ Iff.rfl) ?_ (by simp) fun j ↦ by simp [hp]
  exact ⟨fun _ hj ↦ hj ▸ hrefs, by simpa using hown, by simp, by simpa using hpinned,
    by simpa using hmutex⟩

section Buffers

theorem adjust_self (s : Shared) (i : Nat) (f : SharedBuffer → SharedBuffer) :
    s.adjust i f s.pins = s.setBuffer i f := rfl

theorem buffer_adjust (s : Shared) (i j : Nat) (f : SharedBuffer → SharedBuffer)
    (pins : Nat → Nat) :
    (s.adjust i f pins).buffer j = if j = i then f (s.buffer i) else s.buffer j :=
  Function.update_apply ..

/-- The buffers stay tidy if their blocks, their contents and the table stay. -/
theorem Tidy.of_same (hs : Tidy s) (htable : u.table = s.table) (hnext : u.next = s.next)
    (hlatest : u.latest = s.latest)
    (hbuf : ∀ j, (u.buffer j).key = (s.buffer j).key ∧
      (u.buffer j).deleted = (s.buffer j).deleted ∧ (u.buffer j).valid = (s.buffer j).valid ∧
      (u.buffer j).data = (s.buffer j).data)
    (hgone : ∀ j, (s.buffer j).deleted = true → (u.buffer j).refCount = 0 ∧ u.pins j = 0)
    (hfresh : ∀ j, s.next ≤ j → u.pins j = 0) : Tidy u := by
  have hlive : ∀ j, u.Live j ↔ s.Live j := by
    intro j
    rw [Live, Live, hnext, (hbuf j).2.1]
  refine ⟨fun j hj ↦ ?_, fun k j hj ↦ ?_, fun j hj ↦ ?_, fun j hj ↦ ?_, fun k data hk ↦ ?_⟩
  · rw [htable, (hbuf j).1]
    exact hs.found j ((hlive j).mp hj)
  · rw [hlive, (hbuf j).1]
    exact hs.live k j (htable ▸ hj)
  · exact hgone j ((hbuf j).2.1 ▸ hj)
  · exact hfresh j (hnext ▸ hj)
  · obtain ⟨j, hj, hv, hd⟩ := hs.latest k data (hlatest ▸ hk)
    obtain ⟨-, -, hvalid, hdata⟩ := hbuf j
    exact ⟨j, htable ▸ hj, hvalid ▸ hv, hdata ▸ hd⟩

/-- What is known of a process outlives a step of another one. -/
theorem Local.of_same (hb : s.Local b l) (hlive : ∀ j, s.Live j → l.Refers j → u.Live j)
    (hmutex : u.mutex = s.mutex)
    (hholder : ∀ j, l.Owns j → (u.buffer j).holder = (s.buffer j).holder)
    (hcount : ∀ j, l.Counts j → (u.buffer j).refCount = (s.buffer j).refCount)
    (hpins : ∀ j, l.Unpins j → 0 < u.pins j) : u.Local b l := by
  refine ⟨fun j hj ↦ hlive j (hb.refs j hj) hj, fun j hj ↦ ?_, fun site j n hl ↦ ?_, hpins, ?_⟩
  · rw [hholder j hj]
    exact hb.own j hj
  · rw [hcount j (by rw [hl]; rfl)]
    exact hb.window site j n hl
  · rw [hmutex]
    exact hb.mutex

/-- A step that changes the lock, the count or the pins of one buffer. -/
theorem Inv.change (hs : Inv s) {f : SharedBuffer → SharedBuffer} {pins : Nat → Nat}
    (hlive : s.Live i) (hkey : (f (s.buffer i)).key = (s.buffer i).key)
    (hdeleted : (f (s.buffer i)).deleted = (s.buffer i).deleted)
    (hvalid : (f (s.buffer i)).valid = (s.buffer i).valid)
    (hdata : (f (s.buffer i)).data = (s.buffer i).data)
    (hpins : ∀ j, j ≠ i → pins j = s.pins j)
    (hmine : (s.adjust i f pins).Local a l)
    (hown : ∀ b, b ≠ a → (s.pc b).Owns i → (f (s.buffer i)).holder = (s.buffer i).holder)
    (hwindow : ∀ b, b ≠ a → (s.pc b).Counts i →
      (f (s.buffer i)).refCount = (s.buffer i).refCount)
    (hunpins : ∀ b, b ≠ a → (s.pc b).Unpins i → 0 < pins i)
    (halone : ∀ j, l.Counts j → ∀ b, b ≠ a → ¬ (s.pc b).Counts j)
    (huses : ∀ j, j ≠ i → (l.Uses j ↔ (s.pc a).Uses j))
    (hcounted : (s.adjust i f pins).Counted (Function.update s.pc a l) i) :
    Inv ((s.adjust i f pins).goto a l) := by
  have hbuf : ∀ j, ((s.adjust i f pins).buffer j) = if j = i then f (s.buffer i) else s.buffer j :=
    fun j ↦ buffer_adjust s i j f pins
  have hsame : ∀ j, ((s.adjust i f pins).buffer j).key = (s.buffer j).key ∧
      ((s.adjust i f pins).buffer j).deleted = (s.buffer j).deleted ∧
      ((s.adjust i f pins).buffer j).valid = (s.buffer j).valid ∧
      ((s.adjust i f pins).buffer j).data = (s.buffer j).data := by
    intro j
    rw [hbuf]
    split
    · next h =>
      subst h
      exact ⟨hkey, hdeleted, hvalid, hdata⟩
    · exact ⟨rfl, rfl, rfl, rfl⟩
  have hne : ∀ j, j ≠ i → (s.adjust i f pins).buffer j = s.buffer j := fun j hj ↦ by
    rw [hbuf, if_neg hj]
  have halive : ∀ j, (s.adjust i f pins).Live j ↔ s.Live j := by
    intro j
    exact and_congr_right fun _ ↦ by rw [(hsame j).2.1]
  refine hs.goto rfl ?_ hmine (fun b hb ↦ ?_) halone fun j hj ↦ ?_
  · refine hs.toTidy.of_same rfl rfl rfl hsame (fun j hj ↦ ?_) fun j hj ↦ ?_
    · have hji : j ≠ i := by
        rintro rfl
        rw [hlive.2] at hj
        cases hj
      change ((s.adjust i f pins).buffer j).refCount = 0 ∧ pins j = 0
      rw [hne j hji, hpins j hji]
      exact hs.gone j hj
    · have hji : j ≠ i := fun h ↦ absurd hlive.1 (Nat.not_lt.mpr (h ▸ hj))
      change pins j = 0
      rw [hpins j hji]
      exact hs.fresh j hj
  · have hb' := hs.proc b
    refine hb'.of_same (fun j hj _ ↦ (halive j).mpr hj) rfl (fun j hj ↦ ?_) (fun j hj ↦ ?_)
      fun j hj ↦ ?_
    · rw [hbuf]
      split
      · next h =>
        subst h
        exact hown b hb hj
      · rfl
    · rw [hbuf]
      split
      · next h =>
        subst h
        exact hwindow b hb hj
      · rfl
    · by_cases h : j = i
      · subst h
        exact hunpins b hb hj
      · change 0 < pins j
        rw [hpins j h]
        exact hb'.pinned j hj
  · by_cases h : j = i
    · subst h
      exact hcounted
    · refine (hs.counted j ((halive j).mp hj)).same (huses j h) ?_
      change _ = (s.buffer j).refCount + pins j
      rw [hne j h, hpins j h]

/-- Two processes do not have the sleep lock of one buffer. -/
theorem Inv.owner (hs : Inv s) (ha : (s.pc a).Owns i) (hb : (s.pc b).Owns i) : b = a := by
  have h := (hs.proc b).own i hb
  rw [(hs.proc a).own i ha] at h
  exact (Option.some.inj h).symm

/-- The sleep lock of a buffer goes to a process that waits for it. -/
theorem Inv.wait (hs : Inv s) (hp : s.pc a = .wait i) (hfree : (s.buffer i).holder = none) :
    Inv ((s.setBuffer i fun b ↦ { b with holder := some a }).goto a (.holding i)) := by
  obtain ⟨hrefs, -, -, -, hmutex⟩ := hs.proc a
  simp only [hp, Pc.Refers, Pc.InMutex, forall_eq'] at hrefs hmutex
  rw [← adjust_self]
  refine hs.change hrefs rfl rfl rfl rfl (fun _ _ ↦ rfl) ?_ (fun b _ hb ↦ ?_)
    (fun _ _ _ ↦ rfl) (fun b _ hb ↦ (hs.proc b).pinned i hb) (by simp) (fun j hj ↦ by simp [hp])
    ((hs.counted i hrefs).same (by simp [hp]) ?_)
  · refine ⟨fun j hj ↦ ?_, fun j hj ↦ ?_, by simp, by simp, hmutex⟩
    · cases hj
      exact ⟨hrefs.1, by simp [adjust, setBuffer, hrefs.2]⟩
    · cases hj
      simp [adjust, setBuffer]
  · have h := (hs.proc b).own i hb
    rw [hfree] at h
    cases h
  · simp [adjust, setBuffer]

/-- `release` gives the sleep lock back. -/
theorem Inv.drop (hs : Inv s) (hp : s.pc a = .drop i) :
    Inv ((s.setBuffer i fun b ↦ { b with holder := none }).goto a (.lockRelease i)) := by
  obtain ⟨hrefs, hown, -, -, hmutex⟩ := hs.proc a
  have howns : (s.pc a).Owns i := by simp [hp]
  simp only [hp, Pc.Refers, Pc.InMutex, forall_eq'] at hrefs hmutex
  rw [← adjust_self]
  refine hs.change hrefs rfl rfl rfl rfl (fun _ _ ↦ rfl) ?_ (fun b hb hb' ↦ ?_)
    (fun _ _ _ ↦ rfl) (fun b _ hb ↦ (hs.proc b).pinned i hb) (by simp) (fun j hj ↦ by simp [hp])
    ((hs.counted i hrefs).same (by simp [hp]) ?_)
  · refine ⟨fun j hj ↦ ?_, by simp, by simp, by simp, hmutex⟩
    cases hj
    exact ⟨hrefs.1, by simp [adjust, setBuffer, hrefs.2]⟩
  · exact absurd (hs.owner howns hb') hb
  · simp [adjust, setBuffer]

/-- Only the process that has the sleep lock of a buffer unpins it. -/
theorem unpins_owns (h : l.Unpins i) : l.Owns i := by
  cases l <;> simp_all only [Pc.Unpins, Pc.Owns, or_true, and_self]

/-- The store of a reference count. Nobody else is between a load and a store of it. -/
theorem Inv.store (hs : Inv s) (hp : s.pc a = .store site i n) : Inv (s.store a i n site) := by
  obtain ⟨hrefs, hown, hwindow, hpinned, hmutex⟩ := hs.proc a
  obtain rfl : (s.buffer i).refCount = n := hwindow site i n hp
  have hcounts : (s.pc a).Counts i := by simp [hp]
  have halone : ∀ b, b ≠ a → ¬ (s.pc b).Counts i := fun b hb hc ↦ hb (hs.alone b a i hc hcounts)
  simp only [hp, Pc.Refers, Pc.Owns, Pc.Unpins, Pc.InMutex, forall_eq'] at hrefs hown hpinned hmutex
  have hcounted := hs.counted i hrefs
  have halive : ∀ (m : Nat) (pins : Nat → Nat),
      (s.adjust i (fun b ↦ { b with refCount := m }) pins).Live i :=
    fun m pins ↦ ⟨hrefs.1, by simp [adjust, setBuffer, hrefs.2]⟩
  have hholder : ∀ (m : Nat) (pins : Nat → Nat),
      ((s.adjust i (fun b ↦ { b with refCount := m }) pins).buffer i).holder =
        (s.buffer i).holder := fun m pins ↦ by simp [adjust, setBuffer]
  have hcount : ∀ (m : Nat) (pins : Nat → Nat),
      ((s.adjust i (fun b ↦ { b with refCount := m }) pins).buffer i).refCount = m :=
    fun m pins ↦ by simp [adjust, setBuffer]
  cases site with
  | get =>
    rw [Shared.store, ← adjust_self]
    refine hs.change hrefs rfl rfl rfl rfl (fun _ _ ↦ rfl) ?_ (fun _ _ _ ↦ rfl)
      (fun b hb hc ↦ absurd hc (halone b hb)) (fun b _ hb ↦ (hs.proc b).pinned i hb) (by simp)
      (fun j hj ↦ by simp [hp, Ne.symm hj])
      (hcounted.gain (by simp) (by simp [hp]) (hcount _ _) rfl)
    exact ⟨fun _ hj ↦ hj ▸ halive _ _, by simp, by simp, by simp,
      by simpa [adjust, setBuffer] using hmutex⟩
  | pin =>
    refine hs.change hrefs rfl rfl rfl rfl (fun _ hj ↦ Function.update_of_ne hj _ _) ?_
      (fun _ _ _ ↦ rfl) (fun b hb hc ↦ absurd hc (halone b hb)) (fun b _ hb ↦ by simp) (by simp)
      (fun j hj ↦ by simp [hp]) (hcounted.same (by simp [hp]) ?_)
    · refine ⟨fun _ hj ↦ hj ▸ halive _ _, fun j hj ↦ ?_, by simp, by simp,
        by simpa [adjust, setBuffer] using hmutex⟩
      cases hj
      rw [hholder]
      exact hown i ⟨.inl rfl, rfl⟩
    · rw [hcount]
      simp only [adjust, Function.update_self]
      omega
  | unpin =>
    have hpos : 0 < s.pins i := hpinned i ⟨rfl, rfl⟩
    have howns : (s.pc a).Owns i := by simp [hp]
    refine hs.change hrefs rfl rfl rfl rfl (fun _ hj ↦ Function.update_of_ne hj _ _) ?_
      (fun _ _ _ ↦ rfl) (fun b hb hc ↦ absurd hc (halone b hb)) (fun b hb hb' ↦ ?_) (by simp)
      (fun j hj ↦ by simp [hp]) (hcounted.same (by simp [hp]) ?_)
    · refine ⟨fun _ hj ↦ hj ▸ halive _ _, fun j hj ↦ ?_, by simp, by simp,
        by simpa [adjust, setBuffer] using hmutex⟩
      cases hj
      rw [hholder]
      exact hown i ⟨.inr rfl, rfl⟩
    · exact absurd (hs.owner howns (unpins_owns hb')) hb
    · obtain ⟨users, -, hc⟩ := hcounted
      rw [hcount]
      simp only [adjust, Function.update_self]
      omega
  | release =>
    rw [Shared.store, ← adjust_self]
    refine hs.change hrefs rfl rfl rfl rfl (fun _ _ ↦ rfl) ?_ (fun _ _ _ ↦ rfl)
      (fun b hb hc ↦ absurd hc (halone b hb)) (fun b _ hb ↦ (hs.proc b).pinned i hb) (by simp)
      (fun j hj ↦ by simp [hp, Ne.symm hj])
      (hcounted.loss (by simp) (by simp [hp]) (hcount _ _) rfl)
    exact ⟨fun _ hj ↦ hj ▸ halive _ _, by simp, by simp, by simp,
      by simpa [adjust, setBuffer] using hmutex⟩

/-- A user of a buffer is about to access it. -/
theorem uses_refers (h : l.Uses i) : l.Refers i := by
  cases l <;> simp_all only [Pc.Uses, Pc.Refers]

/-- So is the process that has its sleep lock. -/
theorem owns_refers (h : l.Owns i) : l.Refers i := by
  cases l <;> simp_all only [Pc.Owns, Pc.Refers]

/-- So is the process that changes its reference count. -/
theorem counts_refers (h : l.Counts i) : l.Refers i := by
  cases l <;> simp_all only [Pc.Counts, Pc.Refers]

/-- A process that refers to a buffer without using it has the spin lock. -/
theorem inMutex_of_refers (h : l.Refers i) (hl : ¬ l.Uses i) : l.InMutex := by
  cases l <;> simp_all

/-- Only the process in the spin lock refers to a buffer that it does not use. -/
theorem Inv.refers (hs : Inv s) (ha : (s.pc a).InMutex) (hb : (s.pc b).Refers i)
    (huses : ¬ (s.pc b).Uses i) : b = a := by
  have h := (hs.proc b).mutex.mp (inMutex_of_refers hb huses)
  rw [(hs.proc a).mutex.mp ha] at h
  exact (Option.some.inj h).symm

/-- The end of `release`. A buffer whose reference count is zero has no users, so it may go. -/
theorem Inv.test (hs : Inv s) (hp : s.pc a = .test i) : Inv (s.test a i) := by
  obtain ⟨hrefs, -, -, -, hmutex⟩ := hs.proc a
  have hin : (s.pc a).InMutex := by simp [hp]
  have hlive : s.Live i := hrefs i (by simp [hp])
  replace hmutex := hmutex.mp hin
  unfold Shared.test
  split
  · next hzero =>
    obtain ⟨users, hm, hc⟩ := hs.counted i hlive
    have hnone : ∀ b, ¬ (s.pc b).Uses i := by
      intro b hb
      have := Finset.card_pos.mpr ⟨b, (hm b).mpr hb⟩
      omega
    have hbuf : ∀ j, j ≠ i → Function.update s.buffer i
        { s.buffer i with deleted := true } j = s.buffer j :=
      fun j hj ↦ Function.update_of_ne hj _ _
    have hkeys : ∀ j, s.Live j → j ≠ i → (s.buffer j).key ≠ (s.buffer i).key := by
      intro j hj hne he
      have h := hs.found j hj
      rw [he, hs.found i hlive] at h
      exact hne (Option.some.inj h).symm
    have hother : ∀ j, j < s.next ∧ (Function.update s.buffer i
        { s.buffer i with deleted := true } j).deleted = false → j ≠ i ∧ s.Live j := by
      rintro j ⟨hj, hd⟩
      have hne : j ≠ i := by
        rintro rfl
        simp at hd
      exact ⟨hne, hj, by rwa [hbuf j hne] at hd⟩
    refine hs.goto rfl ⟨fun j hj ↦ ?_, fun k j hk ↦ ?_, fun j hj ↦ ?_, hs.fresh, fun k data hk ↦ ?_⟩
      ⟨by simp, by simp, by simp, by simp, by simpa [setBuffer] using hmutex⟩ (fun b hb ↦ ?_)
      (by simp) fun j hj ↦ ?_
    · obtain ⟨hne, hj⟩ := hother j hj
      simp only [setBuffer, hbuf j hne, Table.lookup_erase, if_neg (hkeys j hj hne)]
      exact hs.found j hj
    · simp only [setBuffer, Table.lookup_erase] at hk ⊢
      split at hk
      · cases hk
      · next hkey =>
        obtain ⟨⟨hlt, hd⟩, rfl⟩ := hs.live k j hk
        have hne : j ≠ i := fun h ↦ hkey (by rw [h])
        exact ⟨⟨hlt, by simpa [hbuf j hne] using hd⟩, by rw [hbuf j hne]⟩
    · by_cases hne : j = i
      · subst hne
        simp only [setBuffer, Function.update_self]
        exact ⟨hzero, by omega⟩
      · simp only [setBuffer, hbuf j hne] at hj ⊢
        exact hs.gone j hj
    · simp only [Function.update_apply] at hk
      split at hk
      · cases hk
      · next hkey =>
        obtain ⟨j, hj, hv, hd⟩ := hs.latest k data hk
        have hne : j ≠ i := fun h ↦ hkey (by rw [← h, (hs.live k j hj).2])
        refine ⟨j, ?_, ?_⟩
        · simpa [Table.lookup_erase, hkey] using hj
        · simpa [setBuffer, hbuf j hne] using ⟨hv, hd⟩
    · have hne : ∀ j, (s.pc b).Refers j → j ≠ i := by
        rintro j hj rfl
        exact hb (hs.refers hin hj (hnone b))
      refine (hs.proc b).of_same (fun j hj hr ↦ ⟨hj.1, ?_⟩) rfl (fun j hj ↦ ?_) (fun j hj ↦ ?_)
        (hs.proc b).pinned
      · simp only [setBuffer, hbuf j (hne j hr)]
        exact hj.2
      · simp only [setBuffer, hbuf j (hne j (owns_refers hj))]
      · simp only [setBuffer, hbuf j (hne j (counts_refers hj))]
    · obtain ⟨hne, hj⟩ := hother j hj
      refine (hs.counted j hj).same (by simp [hp]) ?_
      simp only [setBuffer, hbuf j hne]
  · exact hs.walk (m := s.mutex) (fun _ _ ↦ Iff.rfl)
      ⟨by simp, by simp, by simp, by simp, by simpa using hmutex⟩ (by simp) (by simp [hp])

/-- `get` finds the buffer of a block, or makes one if the table has room for it. -/
theorem Inv.find (hs : Inv s) (hp : s.pc a = .find device block)
    (hroom : s.table.HasRoom (key device block)) : Inv (s.find a device block) := by
  have hmutex : s.mutex = some a := (hs.proc a).mutex.mp (by simp [hp])
  unfold Shared.find
  split
  · next i hi =>
    obtain ⟨hlive, -⟩ := hs.live _ i hi
    exact hs.walk (m := s.mutex) (fun _ _ ↦ Iff.rfl)
      ⟨fun _ hj ↦ hj ▸ hlive, by simp, by simp, by simp, by simpa using hmutex⟩ (by simp)
      (by simp [hp])
  · next hnone =>
    have hbuf : ∀ j, j ≠ s.next → Function.update s.buffer s.next
        ⟨device, block, 0, none, 0, false, false⟩ j = s.buffer j :=
      fun j hj ↦ Function.update_of_ne hj _ _
    have hold : ∀ j, s.Live j → j ≠ s.next := fun j hj ↦ Nat.ne_of_lt hj.1
    have htable : ∀ k, ((s.table.touch (key device block)).update (key device block)
        fun _ ↦ s.next).lookup k =
          if k = key device block then some s.next else s.table.lookup k := by
      intro k
      rw [Table.lookup_update]
      split
      · next h => rw [h, Table.lookup_touch_self, Option.map_some]
      · next h => rw [Table.lookup_touch_of_room hroom h]
    have hkeys : ∀ j, s.Live j → (s.buffer j).key ≠ key device block := by
      intro j hj he
      have h := hs.found j hj
      rw [he, hnone] at h
      cases h
    have hother : ∀ j, j < s.next + 1 ∧ (Function.update s.buffer s.next
        ⟨device, block, 0, none, 0, false, false⟩ j).deleted = false → j ≠ s.next → s.Live j := by
      rintro j ⟨hj, hd⟩ hne
      rw [hbuf j hne] at hd
      exact ⟨by omega, hd⟩
    have hlive : ∀ j, s.Live j → j < s.next + 1 ∧ (Function.update s.buffer s.next
        ⟨device, block, 0, none, 0, false, false⟩ j).deleted = false := by
      intro j hj
      rw [hbuf j (hold j hj)]
      exact ⟨by have := hj.1; omega, hj.2⟩
    refine hs.goto rfl ⟨fun j hj ↦ ?_, fun k j hk ↦ ?_, fun j hj ↦ ?_, fun j hj ↦ ?_,
      fun k data hk ↦ ?_⟩ ⟨?_, by simp, by simp, by simp, by simpa using hmutex⟩ (fun b hb ↦ ?_)
      (by simp) fun j hj ↦ ?_
    · by_cases hne : j = s.next
      · subst hne
        simp [htable, SharedBuffer.key]
      · simp only [hbuf j hne, htable, if_neg (hkeys j (hother j hj hne))]
        exact hs.found j (hother j hj hne)
    · simp only [htable] at hk ⊢
      split at hk
      · next h =>
        cases hk
        exact ⟨⟨Nat.lt_succ_self _, by simp⟩, by simp [h, SharedBuffer.key]⟩
      · obtain ⟨hj, he⟩ := hs.live k j hk
        refine ⟨hlive j hj, ?_⟩
        rw [hbuf j (hold j hj)]
        exact he
    · have hne : j ≠ s.next := by
        rintro rfl
        simp at hj
      simp only [hbuf j hne] at hj ⊢
      exact hs.gone j hj
    · exact hs.fresh j (Nat.le_of_succ_le hj)
    · obtain ⟨j, hj, hv, hd⟩ := hs.latest k data hk
      obtain ⟨hlj, he⟩ := hs.live k j hj
      refine ⟨j, ?_, ?_⟩
      · simpa [htable, he ▸ hkeys j hlj] using hj
      · simpa [hbuf j (hold j hlj)] using ⟨hv, hd⟩
    · rintro j rfl
      exact ⟨Nat.lt_succ_self _, by simp⟩
    · have hne : ∀ j, (s.pc b).Refers j → j ≠ s.next :=
        fun j hj ↦ hold j ((hs.proc b).refs j hj)
      refine (hs.proc b).of_same (fun j hj _ ↦ hlive j hj) rfl (fun j hj ↦ ?_) (fun j hj ↦ ?_)
        (hs.proc b).pinned
      · simp only [hbuf j (hne j (owns_refers hj))]
      · simp only [hbuf j (hne j (counts_refers hj))]
    · by_cases hne : j = s.next
      · subst hne
        refine ⟨∅, fun b ↦ iff_of_false (Finset.notMem_empty b) fun h ↦ ?_, ?_⟩
        · rw [Function.update_apply] at h
          split at h
          · simp at h
          · exact hold _ ((hs.proc b).refs _ (uses_refers h)) rfl
        · simp [hs.fresh s.next (Nat.le_refl _)]
      · refine (hs.counted j (hother j hj hne)).same (by simp [hp]) ?_
        simp only [hbuf j hne]

/-- A step that changes the contents of a buffer, in step with what the processes wrote last. -/
theorem Inv.fill (hs : Inv s) (hlive : s.Live i) {f : SharedBuffer → SharedBuffer}
    {latest : UInt64 → Option Nat} (hkey : (f (s.buffer i)).key = (s.buffer i).key)
    (hdeleted : (f (s.buffer i)).deleted = (s.buffer i).deleted)
    (hholder : (f (s.buffer i)).holder = (s.buffer i).holder)
    (hcount : (f (s.buffer i)).refCount = (s.buffer i).refCount)
    (hvalid : (f (s.buffer i)).valid = true)
    (hother : ∀ k, k ≠ (s.buffer i).key → latest k = s.latest k)
    (hdata : ∀ data, latest (s.buffer i).key = some data → (f (s.buffer i)).data = data) :
    Inv { s.setBuffer i f with latest := latest } := by
  have hbuf : ∀ j, Function.update s.buffer i (f (s.buffer i)) j =
      if j = i then f (s.buffer i) else s.buffer j := fun j ↦ Function.update_apply ..
  have hsame : ∀ j, (Function.update s.buffer i (f (s.buffer i)) j).key = (s.buffer j).key ∧
      (Function.update s.buffer i (f (s.buffer i)) j).deleted = (s.buffer j).deleted ∧
      (Function.update s.buffer i (f (s.buffer i)) j).holder = (s.buffer j).holder ∧
      (Function.update s.buffer i (f (s.buffer i)) j).refCount = (s.buffer j).refCount := by
    intro j
    rw [hbuf]
    split
    · next h =>
      subst h
      exact ⟨hkey, hdeleted, hholder, hcount⟩
    · exact ⟨rfl, rfl, rfl, rfl⟩
  have halive : ∀ j, { s.setBuffer i f with latest := latest }.Live j ↔ s.Live j :=
    fun j ↦ and_congr_right fun _ ↦ by rw [← (hsame j).2.1]; rfl
  refine ⟨⟨fun j hj ↦ ?_, fun k j hk ↦ ?_, fun j hj ↦ ?_, hs.fresh, fun k data hk ↦ ?_⟩,
    fun b ↦ ?_, hs.alone, fun j hj ↦ ?_⟩
  · simp only [setBuffer, (hsame j).1]
    exact hs.found j ((halive j).mp hj)
  · rw [halive]
    simp only [setBuffer, (hsame j).1]
    exact hs.live k j hk
  · simp only [setBuffer, (hsame j).2.1, (hsame j).2.2.2] at hj ⊢
    exact hs.gone j hj
  · by_cases h : k = (s.buffer i).key
    · subst h
      exact ⟨i, hs.found i hlive, by simpa [setBuffer] using ⟨hvalid, hdata data hk⟩⟩
    · obtain ⟨j, hj, hd⟩ := hs.latest k data (hother k h ▸ hk)
      have hne : j ≠ i := fun he ↦ h (by rw [← he, (hs.live k j hj).2])
      exact ⟨j, hj, by simpa only [setBuffer, hbuf, if_neg hne] using hd⟩
  · refine (hs.proc b).of_same (fun j hj _ ↦ (halive j).mpr hj) rfl (fun j _ ↦ (hsame j).2.2.1)
      (fun j _ ↦ (hsame j).2.2.2) (hs.proc b).pinned
  · obtain ⟨users, hm, hc⟩ := hs.counted j ((halive j).mp hj)
    exact ⟨users, hm, (hsame j).2.2.2.trans hc⟩

end Buffers

/-- The invariant is kept by each step of the code. -/
theorem Inv.go (hs : Inv s) {e : Nat × Use} (hok : s.Spaced e) (hu : s.go e.1 = some u) :
    Inv u := by
  unfold Shared.go at hu
  split at hu
  · cases hu
  · cases hu
  · next hp => exact hs.lock hu (.inl ⟨_, _, hp, rfl⟩)
  · next hp => exact hs.lock hu (.inr (.inl ⟨_, hp, rfl⟩))
  · next hp => exact hs.lock hu (.inr (.inr ⟨_, hp, rfl⟩))
  · next hp =>
    cases hu
    exact hs.find hp (hok.room _ _ hp)
  · next hp =>
    cases hu
    exact hs.load hp (hok.alone _ _ hp)
  · next hp =>
    cases hu
    exact hs.store hp
  · next hp =>
    cases hu
    exact hs.test hp
  · next hp =>
    cases hu
    exact hs.unlock (.inl ⟨_, hp, rfl⟩)
  · next hp =>
    cases hu
    exact hs.unlock (.inr (.inl ⟨_, hp, rfl⟩))
  · next hp =>
    cases hu
    exact hs.unlock (.inr (.inr ⟨hp, rfl⟩))
  · next hp =>
    split at hu
    · next hfree =>
      cases hu
      exact hs.wait hp hfree
    · cases hu
  · next hp =>
    split at hu
    · cases hu
      exact hs.check hp
    · cases hu
  · next hp =>
    split at hu
    · cases hu
      exact hs.drop hp
    · cases hu

/-- The invariant is kept by each step that meets the condition. -/
theorem Inv.step (hs : Inv s) {e : Nat × Use} (hok : s.Spaced e) (hu : s.step e = some u) :
    Inv u := by
  unfold Shared.step at hu
  split at hu
  · next hp _ =>
    cases hu
    exact hs.call (.inl ⟨hp, _, _, rfl⟩)
  · next hp _ =>
    cases hu
    exact hs.call (.inr ⟨_, hp, .inl rfl⟩)
  · next hp _ =>
    split at hu
    · next hpins =>
      cases hu
      exact hs.call (.inr ⟨_, hp, .inr (.inr ⟨hpins, rfl⟩)⟩)
    · cases hu
  · next hp _ =>
    cases hu
    exact hs.call (.inr ⟨_, hp, .inr (.inl rfl)⟩)
  · next i disk hp _ =>
    have hlive : s.Live i := (hs.proc e.1).refs i (by simp [hp])
    split at hu
    · cases hu
      exact hs
    · next hinvalid =>
      cases hu
      have hfill := hs.fill (f := fun b ↦ { b with data := disk, valid := true }) hlive rfl rfl rfl
        rfl rfl (fun k _ ↦ rfl (a := s.latest k)) ?_
      · exact hfill
      intro data hk
      -- An invalid buffer has not been changed since it came into the cache.
      obtain ⟨j, hj, hv, -⟩ := hs.latest _ data hk
      rw [hs.found i hlive] at hj
      cases hj
      exact absurd hv hinvalid
  · next i data hp he =>
    cases hu
    have hlive : s.Live i := (hs.proc e.1).refs i (by simp [hp])
    refine hs.fill hlive rfl rfl rfl rfl (hok.valid i data hp he)
      (fun k hk ↦ Function.update_of_ne hk _ _) fun d hd ↦ ?_
    rw [Function.update_self] at hd
    exact Option.some.inj hd
  · exact hs.go hok hu
  · cases hu

theorem Inv.initial (bucket : UInt64 → Nat) : Inv (initial bucket) where
  found _ hi := absurd hi.1 (Nat.not_lt_zero _)
  live _ _ h := by cases h
  gone _ h := by cases h
  fresh _ _ := rfl
  latest _ _ h := by cases h
  proc _ := ⟨by simp [Shared.initial], by simp [Shared.initial], by simp [Shared.initial],
    by simp [Shared.initial], by simp [Shared.initial]⟩
  alone _ _ _ h := by cases h
  counted _ hi := absurd hi.1 (Nat.not_lt_zero _)

theorem Inv.coherent (hs : Inv s) : Coherent s where
  unique i j hi hj he := by
    have h := hs.found i hi
    rw [he, hs.found j hj] at h
    exact (Option.some.inj h).symm
  found := hs.found
  counted := hs.counted
  deleted i hi := by
    refine ⟨(hs.gone i hi).1, (hs.gone i hi).2, fun a ha ↦ ?_⟩
    have hlive := (hs.proc a).refs i (uses_refers ha)
    rw [hlive.2] at hi
    cases hi
  latest i data hi hk := by
    obtain ⟨j, hj, -, hd⟩ := hs.latest _ data hk
    rw [hs.found i hi] at hj
    cases hj
    exact hd

/-- In every run whose steps meet the condition, there is one buffer for a block and its
reference count is right. -/
theorem coherent_of_spaced (bucket : UInt64 → Nat) (h : Run step Spaced (initial bucket) s) :
    Coherent s :=
  (h.invariant (Inv.initial bucket) fun _ _ _ hs hok hu ↦ hs.step hok hu).coherent

section Examples

/-- The condition of a step, if only the first `m` processes take steps. -/
def Among (m : Nat) (s : Shared) (e : Nat × Use) : Prop :=
  e.1 < m ∧ match s.pc e.1, e.2 with
    | .find device block, _ => s.table.HasRoom (key device block)
    | .load _ i, _ => ∀ b < m, ¬ (s.pc b).Counts i
    | .holding i, .modify _ => (s.buffer i).valid = true
    | _, _ => True

instance (i : Nat) : DecidablePred (Pc.Counts i)
  | .store _ j _ => inferInstanceAs (Decidable (j = i))
  | .outside | .lockGet _ _ | .lockPin _ | .lockRelease _ | .find _ _ | .load _ _ | .test _
  | .unlockGet _ | .unlockPin _ | .unlockRelease | .wait _ | .holding _ | .check _ | .drop _ =>
    .isFalse id

instance (m : Nat) (s : Shared) (e : Nat × Use) : Decidable (s.Among m e) :=
  have (l : Pc) (use : Use) : Decidable (match l, use with
      | .find device block, _ => s.table.HasRoom (key device block)
      | .load _ i, _ => ∀ b < m, ¬ (s.pc b).Counts i
      | .holding i, .modify _ => (s.buffer i).valid = true
      | _, _ => True) := by
    split <;> infer_instance
  inferInstanceAs (Decidable (_ ∧ _))

/-- A step of the code moves its own process only. -/
theorem pc_go (hu : s.go a = some u) : ∃ l, u.pc = Function.update s.pc a l := by
  have hlock : ∀ l, s.lock a l = some u → ∃ l, u.pc = Function.update s.pc a l := by
    intro l h
    unfold Shared.lock at h
    split at h
    · cases h
      exact ⟨_, rfl⟩
    · cases h
  have hsome : ∀ v : Shared, (∃ l, v.pc = Function.update s.pc a l) → some v = some u →
      ∃ l, u.pc = Function.update s.pc a l := fun v hv he ↦ Option.some.inj he ▸ hv
  unfold Shared.go at hu
  split at hu
  · cases hu
  · cases hu
  · exact hlock _ hu
  · exact hlock _ hu
  · exact hlock _ hu
  · refine hsome _ ?_ hu
    unfold Shared.find
    split <;> exact ⟨_, rfl⟩
  · exact hsome _ ⟨_, rfl⟩ hu
  · refine hsome _ ?_ hu
    unfold Shared.store
    split <;> exact ⟨_, rfl⟩
  · refine hsome _ ?_ hu
    unfold Shared.test
    split <;> exact ⟨_, rfl⟩
  · exact hsome _ ⟨_, rfl⟩ hu
  · exact hsome _ ⟨_, rfl⟩ hu
  · exact hsome _ ⟨_, rfl⟩ hu
  all_goals
    split at hu
    · exact hsome _ ⟨_, rfl⟩ hu
    · cases hu

/-- The other processes stay where they are. -/
theorem pc_step {e : Nat × Use} (hu : s.step e = some u) (hb : b ≠ e.1) : u.pc b = s.pc b := by
  have hgoto : ∀ l, (s.goto e.1 l).pc b = s.pc b := fun l ↦ Function.update_of_ne hb _ _
  unfold Shared.step at hu
  split at hu
  · cases hu
    exact hgoto _
  · cases hu
    exact hgoto _
  · split at hu
    · cases hu
      exact hgoto _
    · cases hu
  · cases hu
    exact hgoto _
  · split at hu
    · cases hu
      rfl
    · cases hu
      rfl
  · cases hu
    rfl
  · obtain ⟨l, hl⟩ := pc_go hu
    rw [hl]
    exact Function.update_of_ne hb _ _
  · cases hu

/-- A run of the first `m` processes. -/
theorem run_among {m : Nat} {bucket : UInt64 → Nat}
    (h : Run step (Among m) (initial bucket) s) : Run step Spaced (initial bucket) s := by
  have hboth : (∀ b, m ≤ b → s.pc b = .outside) ∧ Run step Spaced (initial bucket) s := by
    induction h with
    | refl => exact ⟨fun _ _ ↦ rfl, .refl⟩
    | @tail t u e _ ok last ih =>
      obtain ⟨hm, hok⟩ := ok
      refine ⟨fun b hb ↦ ?_, ih.2.tail ⟨fun device block hp ↦ ?_, fun site i hp b hc ↦ ?_,
        fun i data hp he ↦ ?_⟩ last⟩
      · rw [pc_step last (by omega)]
        exact ih.1 b hb
      · rwa [hp] at hok
      · by_cases hb : b < m
        · rw [hp] at hok
          exact hok b hb hc
        · rw [ih.1 b (by omega)] at hc
          exact hc
      · rwa [hp, he] at hok
  exact hboth.2

/-- The buckets of a table of 256 with the identity as hash. -/
def identity (k : UInt64) : Nat := k.toNat % 256

/-- Process `a` calls a function and goes on `n` times. -/
def calls (a : Nat) (use : Use) (n : Nat) : List (Nat × Use) := (a, use) :: .replicate n (a, .go)

/-- A process changes and pins a block and gives it up while another one waits for it. -/
def handover : List (Nat × Use) :=
  calls 0 (.get 1 5) 6 ++ calls 0 (.read 7) 0 ++ calls 0 (.modify 9) 0 ++ calls 0 .pin 4 ++
    calls 1 (.get 1 5) 5 ++ calls 0 .unpin 3 ++ calls 0 .release 6 ++ [(1, .go)]

/-- The second process gets the change of the first one. -/
theorem coherent_after_handover : ∃ s, Run step Spaced (initial identity) s ∧
    (s.pc 1 = .holding 0 ∧ (s.buffer 0).data = 9 ∧ (s.buffer 0).refCount = 1) ∧ Coherent s := by
  have hrun : Run step Spaced (initial identity) (final step (initial identity) handover) :=
    run_among (m := 2) (run_final (by decide) (by decide))
  exact ⟨_, hrun, by decide, coherent_of_spaced identity hrun⟩

/-- A process is in `unpin` while another one gets the block. -/
def crossing : List (Nat × Use) :=
  calls 0 (.get 1 5) 6 ++ calls 0 .pin 4 ++ calls 0 .unpin 2 ++ calls 1 (.get 1 5) 5 ++
    [(0, .go)] ++ calls 0 .release 5

/-- The reference of the second process is lost, and its buffer is deleted. -/
theorem incoherent_after_crossing :
    ∃ s, Run step (fun _ _ ↦ True) (initial identity) s ∧ ¬ Coherent s := by
  have hrun : Run step (fun _ _ ↦ True) (initial identity)
      (final step (initial identity) crossing) := run_final (by decide) (by decide)
  have hp : (final step (initial identity) crossing).pc 1 = .wait 0 := by decide
  refine ⟨_, hrun, fun h ↦ (h.deleted 0 (by decide)).2.2 1 ?_⟩
  rw [hp]
  rfl

end Examples

end Shared
end Orfos.Fs
