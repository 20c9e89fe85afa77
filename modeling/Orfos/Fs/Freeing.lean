import Orfos.Fs.SharedInodes

/-!
# Freeing inodes among processes

`put` lets go of the spin lock in the middle of freeing an inode, with its reference still counted.
What it relies on: only processes with references lock an inode, and while the type on the disk is
not 0, no `allocate` takes the number. Other processes get the inode again at any time, but `put` has
its sleep lock until the inode is cleared and not valid any more.
-/

namespace Orfos.Fs.Inodes

open Orfos.Base Orfos.Lib

namespace Pc

/-- The process is in `put` with its reference. -/
def Puts (i : Nat) (l : Pc) : Prop := l.Apart i ∨ l.Clears i

/-- `put` has seen that there is one reference. -/
@[simp] def Sole (i : Nat) : Pc → Prop
  | .checkValid j | .checkLinks j | .takeLock j => j = i
  | _ => False

/-- `put` has seen that the inode is valid. -/
@[simp] def Valid (i : Nat) : Pc → Prop
  | .checkLinks j | .takeLock j | .leaveTable j | .truncate j | .updateTruncated j | .clearType j
  | .updateCleared j | .invalidate j => j = i
  | _ => False

/-- `put` has seen that the inode has no links. -/
@[simp] def Unlinked (i : Nat) : Pc → Prop
  | .takeLock j | .leaveTable j | .truncate j | .updateTruncated j | .clearType j
  | .updateCleared j | .invalidate j | .unlockInode j => j = i
  | _ => False

/-- `put` is going to clear the type on the disk. -/
@[simp] def Pending (i : Nat) : Pc → Prop
  | .takeLock j | .leaveTable j | .truncate j | .updateTruncated j | .clearType j
  | .updateCleared j => j = i
  | _ => False

/-- `put` is going to clear the type in memory. -/
@[simp] def Typed (i : Nat) : Pc → Prop
  | .takeLock j | .leaveTable j | .truncate j | .updateTruncated j | .clearType j => j = i
  | _ => False

variable {i j : Nat} {l : Pc}

theorem refers_of_puts (h : l.Puts i) : l.Refers i := by
  rcases h with h | h <;> cases l <;> simp_all only [Apart, Clears, Refers]

theorem refers_of_owns (h : l.Owns i) : l.Refers i := by
  rcases h with rfl | h
  · rfl
  · exact refers_of_puts (.inr h)

theorem puts_of_sole (h : l.Sole i) : l.Puts i ∧ l.InMutex := by
  cases l <;> simp_all [Puts]

theorem puts_of_valid (h : l.Valid i) : l.Sole i ∨ l.Clears i := by
  cases l <;> simp_all

theorem puts_of_unlinked (h : l.Unlinked i) : l.Sole i ∨ l.Clears i := by
  cases l <;> simp_all

theorem puts_of_pending (h : l.Pending i) : l.Sole i ∨ l.Clears i := by
  cases l <;> simp_all

theorem puts_of_typed (h : l.Typed i) : l.Sole i ∨ l.Clears i := by
  cases l <;> simp_all

end Pc

/-- No process got this inode from `allocate`. -/
def Unmade (made : List (Nat × UInt64 × UInt16)) (k : UInt64) : Prop := ∀ m ∈ made, m.2.1 ≠ k

/-- What is known of process `a` at the place `l`. -/
structure Local (s : Inodes) (a : Nat) (l : Pc) : Prop where
  mutex : l.InMutex ↔ s.mutex = some a
  ref : ∀ i, l.Refers i → (a, i) ∈ s.refs
  own : ∀ i, l.Owns i → (s.inode i).holder = some a
  apart : ∀ i, l.Apart i → (s.inode i).holder ≠ some a
  last : ∀ i, l.Puts i → s.refs.count (a, i) = 1 → ∀ t, (a, (s.inode i).key, t) ∉ s.made
  sole : ∀ i, l.Sole i → (s.inode i).refCount = 1
  valid : ∀ i, l.Valid i → (s.inode i).valid = true
  invalid : ∀ i, l = .unlockInode i → (s.inode i).valid = false
  links : ∀ i, l.Unlinked i → (s.inode i).dinode.numLinks = 0
  pending : ∀ i, l.Pending i → (s.disk (s.inode i).key).type ≠ 0
  unmade : ∀ i, l.Pending i → Unmade s.made (s.inode i).key
  typed : ∀ i, l.Typed i → (s.inode i).dinode.type ≠ 0
  scan : ∀ device inum type, l = .scan device inum type → type ≠ 0

/-- What is known of the table and the references. -/
structure Tidy (s : Inodes) : Prop where
  live : ∀ k i, s.table.lookup k = some i → i < s.next ∧ (s.inode i).key = k
  found : ∀ r ∈ s.refs, s.table.lookup (s.inode r.2).key = some r.2
  counted : ∀ i, (s.inode i).refCount = s.refs.countP fun r ↦ r.2 = i
  held : ∀ a i, (s.inode i).holder = some a → (a, i) ∈ s.refs

/-- The invariant of the table, the disk and the processes. -/
structure Inv (s : Inodes) : Prop extends Tidy s where
  proc : ∀ a, s.Local a (s.pc a)
  filled : ∀ a i, (s.inode i).holder = some a → ¬ (s.pc a).Owns i → (s.inode i).valid = true
  agree : ∀ i, s.table.lookup (s.inode i).key = some i → (s.inode i).valid = true →
    (∀ a, ¬ (s.pc a).Clears i) →
      (s.inode i).dinode = s.disk (s.inode i).key ∧ (s.inode i).dinode.type ≠ 0
  made : ∀ a k type, (a, k, type) ∈ s.made → type ≠ 0 ∧ (s.disk k).type = type ∧
    s.disk k = s.latest k ∧ ((s.pc a).Claims k ∨ ∃ i, (a, i) ∈ s.refs ∧ (s.inode i).key = k)

/-- What a step of process `a` leaves to the others. -/
structure Effect (s : Inodes) (a : Nat) (u : Inodes) : Prop where
  pc : ∀ b, b ≠ a → u.pc b = s.pc b
  mutex : ∀ b, b ≠ a → (u.mutex = some b ↔ s.mutex = some b)
  refs : ∀ b i, b ≠ a → u.refs.count (b, i) = s.refs.count (b, i)
  made : ∀ m ∈ u.made, m ∈ s.made ∨ m.1 = a ∧ (s.disk m.2.1).type = 0
  key : ∀ i, i < s.next → (u.inode i).key = (s.inode i).key
  holder : ∀ b i, i < s.next → b ≠ a →
    ((u.inode i).holder = some b ↔ (s.inode i).holder = some b)
  count : ∀ i, i < s.next → s.mutex ≠ some a → (u.inode i).refCount = (s.inode i).refCount
  content : ∀ i, i < s.next → (s.inode i).holder ≠ some a →
    (u.inode i).valid = (s.inode i).valid ∧ (u.inode i).dinode = (s.inode i).dinode
  disk : ∀ k, u.disk k = s.disk k ∨ (s.disk k).type = 0 ∨
    ∃ i, (s.inode i).holder = some a ∧ (s.inode i).key = k

variable {s u : Inodes} {a b i j : Nat} {l : Pc}

/-- An inode with references is in the table. -/
theorem Tidy.lookup (hs : Tidy s) (h : (a, i) ∈ s.refs) :
    s.table.lookup (s.inode i).key = some i := hs.found (a, i) h

theorem Tidy.lt (hs : Tidy s) (h : (a, i) ∈ s.refs) : i < s.next :=
  (hs.live _ i (hs.lookup h)).1

/-- There is one in-memory inode with references for a number. -/
theorem Tidy.unique (hs : Tidy s) (hi : (a, i) ∈ s.refs) (hj : (b, j) ∈ s.refs)
    (hk : (s.inode i).key = (s.inode j).key) : i = j := by
  have h := hs.lookup hi
  rw [hk, hs.lookup hj] at h
  exact (Option.some.inj h).symm

/-- The only reference is the one that is there. -/
theorem Tidy.only (hs : Tidy s) (hcount : (s.inode i).refCount = 1) (hi : (a, i) ∈ s.refs)
    (hj : (b, i) ∈ s.refs) : b = a := by
  rw [hs.counted, List.countP_eq_length_filter, List.length_eq_one_iff] at hcount
  obtain ⟨r, hr⟩ := hcount
  have hmem : ∀ c, (c, i) ∈ s.refs → (c, i) = r := by
    intro c hc
    exact List.mem_singleton.mp (hr ▸ List.mem_filter.mpr ⟨hc, by simp⟩)
  exact congrArg Prod.fst ((hmem b hj).trans (hmem a hi).symm)

/-- So it is there once. -/
theorem Tidy.once (hs : Tidy s) (hcount : (s.inode i).refCount = 1) (hi : (a, i) ∈ s.refs) :
    s.refs.count (a, i) = 1 := by
  have hpos := List.count_pos_iff.mpr hi
  have hle : s.refs.count (a, i) ≤ s.refs.countP fun r ↦ r.2 = i := by
    refine List.countP_mono_left fun r _ hr ↦ ?_
    rw [beq_iff_eq.mp hr]
    simp
  rw [← hs.counted, hcount] at hle
  omega

/-- Nobody else changes the contents of an inode that `put` is about to free or frees. -/
theorem Inv.alone (hs : Inv s) (h : (s.pc b).Sole i ∨ (s.pc b).Clears i) (hne : b ≠ a) :
    (s.inode i).holder ≠ some a := by
  intro hheld
  have hb := hs.proc b
  rcases h with h | h
  · have href := hb.ref i (Pc.refers_of_puts (Pc.puts_of_sole h).1)
    exact hne (hs.only (hb.sole i h) (hs.held a i hheld) href)
  · rw [hb.own i (.inr h)] at hheld
    exact hne (Option.some.inj hheld)

/-- What is known of a process outlives a step of another one. -/
theorem Effect.local (he : Effect s a u) (hs : Inv s) (hne : b ≠ a) : u.Local b (u.pc b) := by
  have hb := hs.proc b
  have hlt : ∀ i, (s.pc b).Refers i → i < s.next := fun i hi ↦ hs.lt (hb.ref i hi)
  have hput : ∀ i, (s.pc b).Sole i ∨ (s.pc b).Clears i → i < s.next := by
    intro i h
    rcases h with h | h
    · exact hlt i (Pc.refers_of_puts (Pc.puts_of_sole h).1)
    · exact hlt i (Pc.refers_of_puts (.inr h))
  have hcontent : ∀ i, (s.pc b).Sole i ∨ (s.pc b).Clears i →
      (u.inode i).valid = (s.inode i).valid ∧ (u.inode i).dinode = (s.inode i).dinode :=
    fun i h ↦ he.content i (hput i h) (hs.alone h hne)
  rw [he.pc b hne]
  constructor
  · exact hb.mutex.trans (he.mutex b hne).symm
  · intro i hi
    have h := List.count_pos_iff.mpr (hb.ref i hi)
    rw [← he.refs b i hne] at h
    exact List.count_pos_iff.mp h
  · intro i hi
    exact (he.holder b i (hlt i (Pc.refers_of_owns hi)) hne).mpr (hb.own i hi)
  · intro i hi h
    exact hb.apart i hi ((he.holder b i (hlt i (Pc.refers_of_puts (.inl hi))) hne).mp h)
  · intro i hi hcount t hm
    rw [he.refs b i hne] at hcount
    rw [he.key i (hlt i (Pc.refers_of_puts hi))] at hm
    rcases he.made _ hm with h | ⟨h, -⟩
    · exact hb.last i hi hcount t h
    · exact hne h
  · intro i hi
    have hmutex := hb.mutex.mp (Pc.puts_of_sole hi).2
    rw [he.count i (hput i (.inl hi)) fun h ↦ hne (Option.some.inj (hmutex.symm.trans h))]
    exact hb.sole i hi
  · intro i hi
    rw [(hcontent i (Pc.puts_of_valid hi)).1]
    exact hb.valid i hi
  · intro i hi
    rw [(hcontent i (.inr (by rw [hi]; rfl))).1]
    exact hb.invalid i hi
  · intro i hi
    rw [(hcontent i (Pc.puts_of_unlinked hi)).2]
    exact hb.links i hi
  · intro i hi
    have hput' := Pc.puts_of_pending hi
    rw [he.key i (hput i hput')]
    rcases he.disk (s.inode i).key with h | h | ⟨j, hj, hk⟩
    · rw [h]
      exact hb.pending i hi
    · exact absurd h (hb.pending i hi)
    -- The holder of the lock would have a reference to the same inode.
    · have href : (b, i) ∈ s.refs := by
        rcases hput' with h | h
        · exact hb.ref i (Pc.refers_of_puts (Pc.puts_of_sole h).1)
        · exact hb.ref i (Pc.refers_of_puts (.inr h))
      obtain rfl := hs.unique (hs.held a j hj) href hk
      exact absurd hj (hs.alone hput' hne)
  · intro i hi
    rw [he.key i (hput i (Pc.puts_of_pending hi))]
    intro m hm
    rcases he.made m hm with h | ⟨-, h⟩
    · exact hb.unmade i hi m h
    · intro hk
      rw [hk] at h
      exact hb.pending i hi h
  · intro i hi
    rw [(hcontent i (Pc.puts_of_typed hi)).2]
    exact hb.typed i hi
  · exact hb.scan

/-- The invariant after a step of process `a`, from what the step did to the data. -/
theorem Inv.of_effect (hs : Inv s) (he : Effect s a u) (htidy : Tidy u)
    (hmine : u.Local a (u.pc a))
    (hfilled : ∀ i, (u.inode i).holder = some a → ¬ (u.pc a).Owns i → (u.inode i).valid = true)
    (hagree : ∀ i, u.table.lookup (u.inode i).key = some i → (u.inode i).valid = true →
      (∀ b, ¬ (u.pc b).Clears i) →
        (u.inode i).dinode = u.disk (u.inode i).key ∧ (u.inode i).dinode.type ≠ 0)
    (hmade : ∀ b k type, (b, k, type) ∈ u.made →
      type ≠ 0 ∧ (u.disk k).type = type ∧ u.disk k = u.latest k)
    (hclaims : ∀ k type, (a, k, type) ∈ u.made →
      (u.pc a).Claims k ∨ ∃ i, (a, i) ∈ u.refs ∧ (u.inode i).key = k) : Inv u := by
  have href : ∀ b i, b ≠ a → ((b, i) ∈ u.refs ↔ (b, i) ∈ s.refs) := by
    intro b i hb
    rw [← List.count_pos_iff, he.refs b i hb, List.count_pos_iff]
  refine ⟨htidy, fun b ↦ ?_, fun b i hheld hout ↦ ?_, hagree, fun b k type hm ↦ ?_⟩
  · by_cases hb : b = a
    · rw [hb]
      exact hmine
    · exact he.local hs hb
  · by_cases hb : b = a
    · subst hb
      exact hfilled i hheld hout
    · have hlt : i < s.next := hs.lt ((href b i hb).mp (htidy.held b i hheld))
      have hold := (he.holder b i hlt hb).mp hheld
      rw [(he.content i hlt fun h ↦ hb (Option.some.inj (hold.symm.trans h))).1]
      rw [he.pc b hb] at hout
      exact hs.filled b i hold hout
  · obtain ⟨htype, hdisk, hlatest⟩ := hmade b k type hm
    refine ⟨htype, hdisk, hlatest, ?_⟩
    by_cases hb : b = a
    · subst hb
      exact hclaims k type hm
    · have hm' : (b, k, type) ∈ s.made := (he.made _ hm).resolve_right fun h ↦ hb h.1
      rw [he.pc b hb]
      rcases (hs.made b k type hm').2.2.2 with h | ⟨i, hi, hk⟩
      · exact .inl h
      · exact .inr ⟨i, (href b i hb).mpr hi, by rw [he.key i (hs.lt hi), hk]⟩

@[simp] theorem pc_goto (s : Inodes) (a : Nat) (l : Pc) :
    (s.goto a l).pc = Function.update s.pc a l := rfl

@[simp] theorem inode_goto (s : Inodes) (a : Nat) (l : Pc) : (s.goto a l).inode = s.inode := rfl

@[simp] theorem table_goto (s : Inodes) (a : Nat) (l : Pc) : (s.goto a l).table = s.table := rfl

@[simp] theorem disk_goto (s : Inodes) (a : Nat) (l : Pc) : (s.goto a l).disk = s.disk := rfl

@[simp] theorem inode_update (s : Inodes) (i : Nat) : (s.update i).inode = s.inode := rfl

@[simp] theorem table_update (s : Inodes) (i : Nat) : (s.update i).table = s.table := rfl

theorem disk_update (s : Inodes) (i : Nat) (k : UInt64) :
    (s.update i).disk k = if k = (s.inode i).key then (s.inode i).dinode else s.disk k :=
  Function.update_apply ..

/-- A step that changes nothing but the spin lock and the place of the process. -/
theorem Inv.walk (hs : Inv s) {m : Option Nat} (hm : ∀ b, b ≠ a → (m = some b ↔ s.mutex = some b))
    (hmine : ({ s with mutex := m }.goto a l).Local a l)
    (howns : ∀ i, (s.pc a).Owns i → l.Owns i ∨ (s.inode i).valid = true)
    (hclears : ∀ i, (s.pc a).Clears i → l.Clears i)
    (hclaims : ∀ k, (s.pc a).Claims k → l.Claims k) : Inv ({ s with mutex := m }.goto a l) := by
  have hl : ({ s with mutex := m }.goto a l).pc a = l := Function.update_self ..
  have hne : ∀ b, b ≠ a → ({ s with mutex := m }.goto a l).pc b = s.pc b :=
    fun b hb ↦ Function.update_of_ne hb ..
  refine hs.of_effect (a := a) ⟨hne, hm, fun _ _ _ ↦ rfl, fun _ h ↦ .inl h, fun _ _ ↦ rfl,
    fun _ _ _ _ ↦ Iff.rfl, fun _ _ _ ↦ rfl, fun _ _ _ ↦ ⟨rfl, rfl⟩, fun _ ↦ .inl rfl⟩
    ⟨hs.live, hs.found, hs.counted, hs.held⟩ (by rwa [hl]) (fun i hi hout ↦ ?_)
    (fun i hi hvalid hnone ↦ ?_) (fun b k type hm ↦ ?_) fun k type hm ↦ ?_
  · rw [hl] at hout
    by_cases h : (s.pc a).Owns i
    · exact (howns i h).resolve_left hout
    · exact hs.filled a i hi h
  · refine hs.agree i hi hvalid fun b hb ↦ ?_
    by_cases h : b = a
    · subst h
      exact hnone b (by rw [hl]; exact hclears i hb)
    · exact hnone b (by rwa [hne b h])
  · obtain ⟨h₁, h₂, h₃, -⟩ := hs.made b k type hm
    exact ⟨h₁, h₂, h₃⟩
  · rw [hl]
    exact (hs.made a k type hm).2.2.2.imp_left (hclaims k)

/-- A call of one of the functions, but for `put`. -/
theorem Inv.call (hs : Inv s) (hp : s.pc a = .outside)
    (hl : (∃ device inum, l = .lockGet device inum none) ∨
      (∃ device inum type, type ≠ 0 ∧ l = .scan device inum type) ∨
      ∃ i, (a, i) ∈ s.refs ∧ (l = .lockDup i ∨ l = .wait i)) : Inv (s.goto a l) := by
  have h := hs.proc a
  rw [hp] at h
  refine hs.walk (m := s.mutex) (fun _ _ ↦ Iff.rfl) ?_ (by simp [hp, Pc.Owns]) (by simp [hp])
    (by simp [hp])
  obtain ⟨hmutex, -⟩ := h
  rcases hl with ⟨device, inum, rfl⟩ | ⟨device, inum, type, htype, rfl⟩ | ⟨i, href, rfl | rfl⟩ <;>
    constructor <;> simp_all [Pc.Owns, Pc.Puts, goto]

/-- A process takes the spin lock. -/
theorem Inv.lock (hs : Inv s) (hu : s.lock a l = some u)
    (hp : (∃ device inum made, s.pc a = .lockGet device inum made ∧ l = .find device inum made) ∨
      ∃ i, s.pc a = .lockDup i ∧ l = .dup i ∨ s.pc a = .lockPut i ∧ l = .checkCount i ∨
        s.pc a = .relockPut i ∧ l = .drop i) : Inv u := by
  unfold Inodes.lock at hu
  split at hu
  · next hfree =>
    cases hu
    have h := hs.proc a
    refine hs.walk (fun b hb ↦ ?_) ?_ ?_ ?_ ?_
    · rw [hfree]
      exact iff_of_false (fun h ↦ hb (Option.some.inj h).symm) (by simp)
    · rcases hp with ⟨_, _, _, hp, rfl⟩ | ⟨i, ⟨hp, rfl⟩ | ⟨hp, rfl⟩ | ⟨hp, rfl⟩⟩ <;>
        obtain ⟨-, href, -, hapart, hlast, -⟩ := h <;> constructor <;>
        simp_all [Pc.Owns, Pc.Puts, goto]
    all_goals
      rcases hp with ⟨_, _, made, hp, rfl⟩ | ⟨i, ⟨hp, rfl⟩ | ⟨hp, rfl⟩ | ⟨hp, rfl⟩⟩ <;>
        simp [hp, Pc.Owns]
    cases made <;> simp
  · cases hu

/-- A process gives the spin lock back. -/
theorem Inv.unlock (hs : Inv s) (hp : (∃ i, s.pc a = .unlockGet i ∧ l = .outside ∨
      s.pc a = .unlockDup i ∧ l = .outside ∨ s.pc a = .leaveTable i ∧ l = .truncate i) ∨
      s.pc a = .unlockPut ∧ l = .outside) : Inv (s.unlock a l) := by
  have h := hs.proc a
  have hmutex : s.mutex = some a := by
    refine h.mutex.mp ?_
    rcases hp with ⟨i, ⟨hp, -⟩ | ⟨hp, -⟩ | ⟨hp, -⟩⟩ | ⟨hp, -⟩ <;> simp [hp]
  refine hs.walk (fun b hb ↦ ?_) ?_ ?_ ?_ ?_
  · rw [hmutex]
    exact iff_of_false (by simp) fun h ↦ hb (Option.some.inj h).symm
  · rcases hp with ⟨i, ⟨hp, rfl⟩ | ⟨hp, rfl⟩ | ⟨hp, rfl⟩⟩ | ⟨hp, rfl⟩ <;>
      obtain ⟨-, href, hown, -, hlast, -, hvalid, -, hlinks, hpending, hunmade, htyped, -⟩ := h <;>
      constructor <;> simp_all [Pc.Owns, Pc.Puts, goto]
  all_goals
    rcases hp with ⟨i, ⟨hp, rfl⟩ | ⟨hp, rfl⟩ | ⟨hp, rfl⟩⟩ | ⟨hp, rfl⟩ <;> simp [hp, Pc.Owns]

/-- What `put` knows when it begins to free an inode: the type on the disk is not 0, and nobody has
the inode from `allocate`. -/
theorem Inv.freed (hs : Inv s) (hp : s.pc a = .checkLinks i)
    (hspares : ∀ b, ¬ (s.pc b).Claims (s.inode i).key) :
    (s.disk (s.inode i).key).type ≠ 0 ∧ Unmade s.made (s.inode i).key ∧
      (s.inode i).dinode.type ≠ 0 := by
  have h := hs.proc a
  rw [hp] at h
  have href : (a, i) ∈ s.refs := h.ref i (by simp)
  have hcount : (s.inode i).refCount = 1 := h.sole i (by simp)
  have hvalid : (s.inode i).valid = true := h.valid i (by simp)
  have hlast := h.last i (.inl (by simp)) (hs.once hcount href)
  have hclears : ∀ b, ¬ (s.pc b).Clears i := by
    intro b hb
    have hb' := (hs.proc b).ref i (Pc.refers_of_puts (.inr hb))
    rw [hs.only hcount href hb', hp] at hb
    simp at hb
  obtain ⟨hdisk, htype⟩ := hs.agree i (hs.lookup href) hvalid hclears
  refine ⟨?_, ?_, htype⟩
  · rw [← hdisk]
    exact htype
  rintro ⟨b, k, type⟩ hm rfl
  rcases (hs.made b _ type hm).2.2.2 with hclaims | ⟨j, hj, hk⟩
  · exact hspares b hclaims
  · obtain rfl := hs.unique hj href hk
    obtain rfl := hs.only hcount href hj
    exact hlast type hm

/-- The three parts of the condition in `put`. -/
theorem Inv.check (hs : Inv s)
    (hspares : ∀ i, s.pc a = .checkLinks i → (s.inode i).dinode.numLinks = 0 →
      ∀ b, ¬ (s.pc b).Claims (s.inode i).key)
    (hp : s.pc a = .checkCount i ∧ l = (if (s.inode i).refCount = 1 then .checkValid i else .drop i) ∨
      s.pc a = .checkValid i ∧ l = (if (s.inode i).valid then .checkLinks i else .drop i) ∨
      s.pc a = .checkLinks i ∧
        l = if (s.inode i).dinode.numLinks = 0 then .takeLock i else .drop i) :
    Inv (s.goto a l) := by
  have h := hs.proc a
  refine hs.walk (m := s.mutex) (fun _ _ ↦ Iff.rfl) ?_ ?_ ?_ ?_
  · rcases hp with ⟨hp, rfl⟩ | ⟨hp, rfl⟩ | ⟨hp, rfl⟩ <;> split
    case inr.inr.isTrue hlinks =>
      obtain ⟨hpending, hunmade, htyped⟩ := hs.freed hp (hspares i hp hlinks)
      obtain ⟨hmutex, href, -, hapart, hlast, hsole, hvalid, -⟩ := h
      clear hs hspares
      constructor <;> simp_all [Pc.Owns, Pc.Puts, goto]
    all_goals
      obtain ⟨hmutex, href, -, hapart, hlast, hsole, hvalid, -⟩ := h
      clear hs hspares
      constructor <;> simp_all [Pc.Owns, Pc.Puts, goto]
  all_goals rcases hp with ⟨hp, -⟩ | ⟨hp, -⟩ | ⟨hp, -⟩ <;> simp [hp, Pc.Owns]

section Locks

theorem inode_setInode (s : Inodes) (i j : Nat) (f : SharedInode → SharedInode) :
    (s.setInode i f).inode j = if j = i then f (s.inode i) else s.inode j :=
  Function.update_apply ..

/-- A step of a process that has the lock of an inode, takes it or gives it back. -/
theorem Inv.setInode (hs : Inv s) {f : SharedInode → SharedInode} (href : (a, i) ∈ s.refs)
    (hkey : (f (s.inode i)).key = (s.inode i).key)
    (hcount : (f (s.inode i)).refCount = (s.inode i).refCount)
    (hold : (s.inode i).holder = some a ∨ (s.inode i).holder = none ∧
      (f (s.inode i)).valid = (s.inode i).valid ∧ (f (s.inode i)).dinode = (s.inode i).dinode)
    (hnew : (f (s.inode i)).holder = some a ∨ (f (s.inode i)).holder = none)
    (hpc : (∀ j, (s.pc a).Owns j → j = i) ∧ ∀ k, ¬ (s.pc a).Claims k)
    (hmine : ((s.setInode i f).goto a l).Local a l)
    (hfilled : (f (s.inode i)).holder = some a → ¬ l.Owns i → (f (s.inode i)).valid = true)
    (hagree : (f (s.inode i)).valid = true → ¬ l.Clears i →
      (∀ b, b ≠ a → ¬ (s.pc b).Clears i) →
        (f (s.inode i)).dinode = s.disk (s.inode i).key ∧ (f (s.inode i)).dinode.type ≠ 0) :
    Inv ((s.setInode i f).goto a l) := by
  have hl : ((s.setInode i f).goto a l).pc a = l := Function.update_self ..
  have hne : ∀ b, b ≠ a → ((s.setInode i f).goto a l).pc b = s.pc b :=
    fun b hb ↦ Function.update_of_ne hb ..
  have hinode : ∀ j, ((s.setInode i f).goto a l).inode j =
      if j = i then f (s.inode i) else s.inode j := fun j ↦ inode_setInode s i j f
  have hkeys : ∀ j, (((s.setInode i f).goto a l).inode j).key = (s.inode j).key := by
    intro j
    rw [hinode]
    split
    · next h => rw [h, hkey]
    · rfl
  have hcounts : ∀ j, (((s.setInode i f).goto a l).inode j).refCount = (s.inode j).refCount := by
    intro j
    rw [hinode]
    split
    · next h => rw [h, hcount]
    · rfl
  refine hs.of_effect (a := a) ⟨hne, fun _ _ ↦ Iff.rfl, fun _ _ _ ↦ rfl, fun _ h ↦ .inl h,
    fun j _ ↦ hkeys j, fun b j _ hb ↦ ?_, fun j _ _ ↦ hcounts j, fun j _ hj ↦ ?_,
    fun _ ↦ .inl rfl⟩ ⟨fun k j hj ↦ ?_, fun r hr ↦ ?_, fun j ↦ ?_, fun b j hj ↦ ?_⟩ (by rwa [hl])
    (fun j hj hout ↦ ?_) (fun j hj hvalid hnone ↦ ?_) (fun b k type hm ↦ ?_) fun k type hm ↦ ?_
  · rw [hinode]
    split
    · next h =>
      subst h
      have hother : ∀ o : Option Nat, o = some a ∨ o = none → o ≠ some b := by
        rintro o (rfl | rfl) h
        · exact hb (Option.some.inj h).symm
        · cases h
      exact iff_of_false (hother _ hnew) (hother _ (hold.imp_right And.left))
    · exact Iff.rfl
  · rw [hinode]
    split
    · next h =>
      subst h
      exact (hold.resolve_left hj).2
    · exact ⟨rfl, rfl⟩
  · rw [hkeys]
    exact hs.live k j hj
  · rw [hkeys]
    exact hs.found r hr
  · rw [hcounts]
    exact hs.counted j
  · rw [hinode] at hj
    split at hj
    · next h =>
      subst h
      rcases hnew with h | h
      · rw [h] at hj
        exact Option.some.inj hj ▸ href
      · rw [h] at hj
        cases hj
    · exact hs.held b j hj
  · rw [hl] at hout
    rw [hinode] at hj ⊢
    split at hj
    · next h =>
      subst h
      rw [if_pos rfl]
      exact hfilled hj hout
    · next h =>
      rw [if_neg h]
      exact hs.filled a j hj fun h' ↦ h (hpc.1 j h')
  · have hothers : ∀ b, b ≠ a → ¬ (s.pc b).Clears j := fun b hb ↦ hne b hb ▸ hnone b
    have hself : ¬ l.Clears j := hl ▸ hnone a
    rw [hkeys] at hj ⊢
    rw [hinode] at hvalid ⊢
    split at hvalid
    · next h =>
      subst h
      rw [if_pos rfl]
      exact hagree hvalid hself hothers
    · next h =>
      rw [if_neg h]
      refine hs.agree j hj hvalid fun b hb ↦ ?_
      by_cases hba : b = a
      · subst hba
        exact h (hpc.1 j (.inr hb))
      · exact hothers b hba hb
  · obtain ⟨h₁, h₂, h₃, -⟩ := hs.made b k type hm
    exact ⟨h₁, h₂, h₃⟩
  · obtain ⟨j, hj, hk⟩ := (hs.made a k type hm).2.2.2.resolve_left (hpc.2 k)
    exact .inr ⟨j, hj, by rw [hkeys, hk]⟩

/-- A process gets the lock of an inode. -/
theorem Inv.take (hs : Inv s) (hu : s.take a i l = some u)
    (hp : s.pc a = .wait i ∧ l = .load i ∨ s.pc a = .takeLock i ∧ l = .leaveTable i) : Inv u := by
  unfold Inodes.take at hu
  split at hu
  · next hfree =>
    cases hu
    have h := hs.proc a
    have href : (a, i) ∈ s.refs := h.ref i (by rcases hp with ⟨hp, -⟩ | ⟨hp, -⟩ <;> simp [hp])
    refine hs.setInode href rfl rfl (.inr ⟨hfree, rfl, rfl⟩) (.inl rfl) ?_ ?_ ?_ ?_
    · rcases hp with ⟨hp, -⟩ | ⟨hp, -⟩ <;> simp [hp, Pc.Owns]
    · rcases hp with ⟨hp, rfl⟩ | ⟨hp, rfl⟩ <;>
        obtain ⟨hmutex, -, -, -, hlast, -, hvalid, -, hlinks, hpending, hunmade, htyped, -⟩ := h <;>
        constructor <;> simp_all [Pc.Owns, Pc.Puts, goto, Inodes.setInode, SharedInode.key]
    · rcases hp with ⟨-, rfl⟩ | ⟨-, rfl⟩ <;> simp [Pc.Owns]
    · intro hvalid hout hothers
      refine hs.agree i (hs.lookup href) hvalid fun b hb ↦ ?_
      by_cases hba : b = a
      · subst hba
        rcases hp with ⟨hp, rfl⟩ | ⟨hp, rfl⟩ <;> simp [hp] at hb
      · exact hothers b hba hb
  · cases hu

/-- `lock` ends. -/
theorem Inv.load (hs : Inv s) (hu : s.load a i = some u) (hp : s.pc a = .load i) : Inv u := by
  have h := hs.proc a
  have href : (a, i) ∈ s.refs := h.ref i (by simp [hp])
  have hown : (s.inode i).holder = some a := h.own i (by simp [hp, Pc.Owns])
  rw [hp] at h
  obtain ⟨hmutex, -⟩ := h
  unfold Inodes.load at hu
  split at hu
  · next hvalid =>
    cases hu
    refine hs.walk (m := s.mutex) (fun _ _ ↦ Iff.rfl) ?_ ?_ (by simp [hp]) (by simp [hp])
    · constructor <;> simp_all [Pc.Owns, Pc.Puts, goto]
    · intro j hj
      right
      simp only [hp, Pc.Owns, Pc.Clears, or_false, Pc.load.injEq] at hj
      rwa [← hj]
  · split at hu
    · next htype =>
      cases hu
      refine hs.setInode href rfl rfl (.inl hown) (.inl hown) ?_ ?_ (fun _ _ ↦ rfl)
        fun _ _ _ ↦ ⟨rfl, htype⟩
      · simp only [hp, Pc.Owns, Pc.Clears, or_false, Pc.load.injEq, Pc.Claims, not_false_eq_true,
          implies_true, and_true]
        exact fun j hj ↦ hj.symm
      · constructor <;> simp_all [Pc.Owns, Pc.Puts, goto, Inodes.setInode]
    · cases hu

/-- `put` changes the inode that it frees. -/
theorem Inv.clear (hs : Inv s) {f : SharedInode → SharedInode}
    (hp : s.pc a = .truncate i ∧ l = .updateTruncated i ∧
        (f = fun x ↦ { x with dinode := emptied x.dinode }) ∨
      s.pc a = .clearType i ∧ l = .updateCleared i ∧
        (f = fun x ↦ { x with dinode := { x.dinode with type := 0 } }) ∨
      s.pc a = .invalidate i ∧ l = .unlockInode i ∧ (f = fun x ↦ { x with valid := false }) ∨
      s.pc a = .unlockInode i ∧ l = .relockPut i ∧ f = fun x ↦ { x with holder := none }) :
    Inv ((s.setInode i f).goto a l) := by
  have h := hs.proc a
  have href : (a, i) ∈ s.refs :=
    h.ref i (by rcases hp with ⟨hp, -⟩ | ⟨hp, -⟩ | ⟨hp, -⟩ | ⟨hp, -⟩ <;> simp [hp])
  have hown : (s.inode i).holder = some a :=
    h.own i (by rcases hp with ⟨hp, -⟩ | ⟨hp, -⟩ | ⟨hp, -⟩ | ⟨hp, -⟩ <;> simp [hp, Pc.Owns])
  refine hs.setInode href ?_ ?_ (.inl hown) ?_ ?_ ?_ ?_ ?_
  · rcases hp with ⟨-, -, rfl⟩ | ⟨-, -, rfl⟩ | ⟨-, -, rfl⟩ | ⟨-, -, rfl⟩ <;> rfl
  · rcases hp with ⟨-, -, rfl⟩ | ⟨-, -, rfl⟩ | ⟨-, -, rfl⟩ | ⟨-, -, rfl⟩ <;> rfl
  · rcases hp with ⟨-, -, rfl⟩ | ⟨-, -, rfl⟩ | ⟨-, -, rfl⟩ | ⟨-, -, rfl⟩ <;> simp [hown]
  · rcases hp with ⟨hp, -⟩ | ⟨hp, -⟩ | ⟨hp, -⟩ | ⟨hp, -⟩ <;> simp [hp, Pc.Owns, eq_comm]
  · rcases hp with ⟨hp, rfl, rfl⟩ | ⟨hp, rfl, rfl⟩ | ⟨hp, rfl, rfl⟩ | ⟨hp, rfl, rfl⟩ <;>
      obtain ⟨hmutex, -, -, -, hlast, -, hvalid, hinvalid, hlinks, hpending, hunmade, htyped, -⟩ := h <;>
      constructor <;> simp_all [Pc.Owns, Pc.Puts, goto, Inodes.setInode, SharedInode.key, emptied]
  · rcases hp with ⟨-, rfl, rfl⟩ | ⟨-, rfl, rfl⟩ | ⟨-, rfl, rfl⟩ | ⟨-, rfl, rfl⟩ <;>
      simp [Pc.Owns]
  · rcases hp with ⟨-, rfl, rfl⟩ | ⟨-, rfl, rfl⟩ | ⟨-, rfl, rfl⟩ | ⟨hp, rfl, rfl⟩ <;> simp
    rw [h.invalid i hp]
    simp

/-- `unlock`. -/
theorem Inv.release (hs : Inv s) (hp : s.pc a = .outside) (hown : (s.inode i).holder = some a) :
    Inv (s.setInode i fun x ↦ { x with holder := none }) := by
  have hself : (s.setInode i fun x ↦ { x with holder := none }) =
      (s.setInode i fun x ↦ { x with holder := none }).goto a .outside := by
    rw [goto, ← hp]
    exact congrArg (fun pc ↦ { s.setInode i fun x ↦ { x with holder := none } with pc := pc })
      (Function.update_eq_self a s.pc).symm
  have href := hs.held a i hown
  have hmutex := (hs.proc a).mutex
  rw [hself]
  refine hs.setInode href rfl rfl (.inl hown) (.inr rfl) (by simp [hp, Pc.Owns]) ?_
    (fun h ↦ by cases h) fun hvalid _ hothers ↦ ?_
  · constructor <;> simp_all [Pc.Owns, Pc.Puts, goto, Inodes.setInode]
  · refine hs.agree i (hs.lookup href) hvalid fun b hb ↦ ?_
    by_cases hba : b = a
    · subst hba
      simp [hp] at hb
    · exact hothers b hba hb

end Locks

section Disk

/-- `put` writes the inode that it frees. -/
theorem Inv.update (hs : Inv s) (hp : s.pc a = .updateTruncated i ∧ l = .clearType i ∨
      s.pc a = .updateCleared i ∧ l = .invalidate i) : Inv ((s.update i).goto a l) := by
  have h := hs.proc a
  have hl : ((s.update i).goto a l).pc a = l := Function.update_self ..
  have hne : ∀ b, b ≠ a → ((s.update i).goto a l).pc b = s.pc b :=
    fun b hb ↦ Function.update_of_ne hb ..
  have href : (a, i) ∈ s.refs := h.ref i (by rcases hp with ⟨hp, -⟩ | ⟨hp, -⟩ <;> simp [hp])
  have hown : (s.inode i).holder = some a :=
    h.own i (by rcases hp with ⟨hp, -⟩ | ⟨hp, -⟩ <;> simp [hp, Pc.Owns])
  have hunmade : Unmade s.made (s.inode i).key :=
    h.unmade i (by rcases hp with ⟨hp, -⟩ | ⟨hp, -⟩ <;> simp [hp])
  have hclears : l.Clears i := by rcases hp with ⟨-, rfl⟩ | ⟨-, rfl⟩ <;> rfl
  refine hs.of_effect (a := a) ⟨hne, fun _ _ ↦ Iff.rfl, fun _ _ _ ↦ rfl, fun _ h ↦ .inl h,
    fun _ _ ↦ rfl, fun _ _ _ _ ↦ Iff.rfl, fun _ _ _ ↦ rfl, fun _ _ _ ↦ ⟨rfl, rfl⟩, fun k ↦ ?_⟩
    ⟨hs.live, hs.found, hs.counted, hs.held⟩ ?_ (fun j hj hout ↦ ?_) (fun j hj hvalid hnone ↦ ?_)
    (fun b k type hm ↦ ?_) fun k type hm ↦ ?_
  · rw [disk_goto, disk_update]
    split
    · next hk => exact .inr (.inr ⟨i, hown, hk.symm⟩)
    · exact .inl rfl
  · rw [hl]
    rcases hp with ⟨hp, rfl⟩ | ⟨hp, rfl⟩ <;>
      obtain ⟨hmutex, -, -, -, hlast, -, hvalid, -, hlinks, hpending, -, htyped, -⟩ := h <;>
      constructor <;> simp_all [Pc.Owns, Pc.Puts, goto, Inodes.update]
  · refine hs.filled a j hj fun hj' ↦ hout ?_
    rw [hl]
    obtain rfl : j = i := by
      rcases hp with ⟨hp, -⟩ | ⟨hp, -⟩ <;> simpa [hp, Pc.Owns, eq_comm] using hj'
    exact .inr hclears
  · rw [inode_goto, inode_update] at hj hvalid
    rw [table_goto, table_update] at hj
    rw [inode_goto, inode_update, disk_goto, disk_update]
    have hkey : (s.inode j).key ≠ (s.inode i).key := by
      intro hk
      rw [hk, hs.lookup href] at hj
      obtain rfl : i = j := Option.some.inj hj
      exact hnone a (by rwa [hl])
    rw [if_neg hkey]
    refine hs.agree j hj hvalid fun b hb ↦ ?_
    by_cases hba : b = a
    · subst hba
      obtain rfl : j = i := by
        rcases hp with ⟨hp, -⟩ | ⟨hp, -⟩ <;> simpa [hp, eq_comm] using hb
      exact hkey rfl
    · exact hnone b (by rwa [hne b hba])
  · obtain ⟨h₁, h₂, h₃, -⟩ := hs.made b k type hm
    rw [disk_goto, disk_update, if_neg (hunmade _ hm)]
    exact ⟨h₁, h₂, h₃⟩
  · refine .inr ((hs.made a k type hm).2.2.2.resolve_left ?_)
    rcases hp with ⟨hp, -⟩ | ⟨hp, -⟩ <;> simp [hp]

theorem inode_change (s : Inodes) (i j : Nat) (d : DiskInode) :
    (s.change i d).inode j = if j = i then { s.inode i with dinode := d } else s.inode j :=
  Function.update_apply ..

/-- A change touches nothing but the copy of the disk inode. -/
theorem field_change {α : Type} (s : Inodes) (i j : Nat) (d : DiskInode) (f : SharedInode → α)
    (hf : ∀ x : SharedInode, f { x with dinode := d } = f x) :
    f ((s.change i d).inode j) = f (s.inode j) := by
  rw [inode_change]
  split
  · next h => rw [h, hf]
  · rfl

theorem key_change (s : Inodes) (i j : Nat) (d : DiskInode) :
    ((s.change i d).inode j).key = (s.inode j).key := field_change s i j d _ fun _ ↦ rfl

theorem holder_change (s : Inodes) (i j : Nat) (d : DiskInode) :
    ((s.change i d).inode j).holder = (s.inode j).holder := field_change s i j d _ fun _ ↦ rfl

theorem valid_change (s : Inodes) (i j : Nat) (d : DiskInode) :
    ((s.change i d).inode j).valid = (s.inode j).valid := field_change s i j d _ fun _ ↦ rfl

theorem refCount_change (s : Inodes) (i j : Nat) (d : DiskInode) :
    ((s.change i d).inode j).refCount = (s.inode j).refCount :=
  field_change s i j d _ fun _ ↦ rfl

theorem disk_change (s : Inodes) (i : Nat) (d : DiskInode) (k : UInt64) :
    (s.change i d).disk k = if k = (s.inode i).key then d else s.disk k := by
  have hself : (s.setInode i fun x ↦ { x with dinode := d }).inode i =
      { s.inode i with dinode := d } := Function.update_self ..
  rw [change, disk_update, hself]
  rfl

/-- The holder of the lock of an inode changes it and updates it. -/
theorem Inv.change (hs : Inv s) (hp : s.pc a = .outside) (hown : (s.inode i).holder = some a)
    {d : DiskInode} (htype : d.type = (s.inode i).dinode.type) : Inv (s.change i d) := by
  have href := hs.held a i hown
  -- Nobody frees an inode that another process has locked.
  have hclears : ∀ b, ¬ (s.pc b).Clears i := by
    intro b hb
    have hb' := (hs.proc b).own i (.inr hb)
    rw [hown] at hb'
    obtain rfl : a = b := Option.some.inj hb'
    simp [hp] at hb
  have hvalid : (s.inode i).valid = true := hs.filled a i hown (by simp [hp, Pc.Owns])
  obtain ⟨hagree, hne⟩ := hs.agree i (hs.lookup href) hvalid hclears
  refine hs.of_effect (a := a) ⟨fun _ _ ↦ rfl, fun _ _ ↦ Iff.rfl, fun _ _ _ ↦ rfl,
    fun _ h ↦ .inl h, fun j _ ↦ key_change s i j d, fun b j _ _ ↦ ?_,
    fun j _ _ ↦ refCount_change s i j d, fun j _ hj ↦ ?_, fun k ↦ ?_⟩
    ⟨fun k j hj ↦ ?_, fun r hr ↦ ?_, fun j ↦ ?_, fun b j hj ↦ ?_⟩ ?_ (fun j hj hout ↦ ?_)
    (fun j hj hvalid' hnone ↦ ?_) (fun b k type hm ↦ ?_) fun k type hm ↦ ?_
  · rw [holder_change]
  · have hji : j ≠ i := by
      rintro rfl
      exact hj hown
    rw [inode_change, if_neg hji]
    exact ⟨rfl, rfl⟩
  · rw [disk_change]
    split
    · next hk => exact .inr (.inr ⟨i, hown, hk.symm⟩)
    · exact .inl rfl
  · rw [key_change]
    exact hs.live k j hj
  · rw [key_change]
    exact hs.found r hr
  · rw [refCount_change]
    exact hs.counted j
  · rw [holder_change] at hj
    exact hs.held b j hj
  · have hpc : (s.change i d).pc a = .outside := hp
    have hmutex : Pc.outside.InMutex ↔ s.mutex = some a := hp ▸ (hs.proc a).mutex
    rw [hpc]
    exact ⟨hmutex, by simp, by simp [Pc.Owns], by simp, by simp [Pc.Puts], by simp, by simp,
      by simp, by simp, by simp, by simp, by simp, by simp⟩
  · rw [holder_change] at hj
    rw [valid_change]
    exact hs.filled a j hj hout
  · have hj' : s.table.lookup (s.inode j).key = some j := key_change s i j d ▸ hj
    rw [valid_change] at hvalid'
    rw [disk_change, key_change, inode_change]
    by_cases hji : j = i
    · rw [if_pos hji, if_pos (by rw [hji])]
      exact ⟨rfl, by rwa [htype]⟩
    · have hk : (s.inode j).key ≠ (s.inode i).key := by
        intro hk
        rw [hk, hs.lookup href] at hj'
        exact hji (Option.some.inj hj').symm
      rw [if_neg hji, if_neg hk]
      exact hs.agree j hj' hvalid' hnone
  · obtain ⟨h₁, h₂, h₃, -⟩ := hs.made b k type hm
    have hlatest : (s.change i d).latest k = if k = (s.inode i).key then d else s.latest k :=
      Function.update_apply ..
    rw [disk_change, hlatest]
    split
    · next hk => exact ⟨h₁, by rw [htype, hagree, ← hk, h₂], rfl⟩
    · exact ⟨h₁, h₂, h₃⟩
  · right
    obtain ⟨j, hj, hk⟩ := (hs.made a k type hm).2.2.2.resolve_left (by simp [hp])
    exact ⟨j, hj, (key_change s i j d).trans hk⟩

@[simp] theorem inode_claim (s : Inodes) (a : Nat) (k : UInt64) (type : UInt16) :
    (s.claim a k type).inode = s.inode := rfl

theorem disk_claim (s : Inodes) (a : Nat) (k k' : UInt64) (type : UInt16) :
    (s.claim a k type).disk k' = if k' = k then claimed (s.disk k) type else s.disk k' :=
  Function.update_apply ..

theorem latest_claim (s : Inodes) (a : Nat) (k k' : UInt64) (type : UInt16) :
    (s.claim a k type).latest k' = if k' = k then claimed (s.disk k) type else s.latest k' :=
  Function.update_apply ..

/-- `allocate` takes a free inode. Nobody has it valid in memory, and nobody has it from
`allocate`. -/
theorem Inv.claim (hs : Inv s) {device inum : UInt32} {type : UInt16}
    (hp : s.pc a = .scan device inum type) (hfree : (s.disk (key device inum)).type = 0) :
    Inv ((s.claim a (key device inum) type).goto a (.lockGet device inum (some type))) := by
  have htype : type ≠ 0 := (hs.proc a).scan device inum type hp
  have hmutex : s.mutex ≠ some a := by
    rw [Ne, ← (hs.proc a).mutex, hp]
    simp
  have hl : ((s.claim a (key device inum) type).goto a (.lockGet device inum (some type))).pc a =
      .lockGet device inum (some type) := Function.update_self ..
  have hne : ∀ b, b ≠ a →
      ((s.claim a (key device inum) type).goto a (.lockGet device inum (some type))).pc b = s.pc b :=
    fun b hb ↦ Function.update_of_ne hb ..
  have hmade : ∀ b m, (b, key device inum, m) ∉ s.made := by
    intro b m hm
    obtain ⟨hm₀, hm₁, -⟩ := hs.made b _ m hm
    exact hm₀ (hm₁.symm.trans hfree)
  refine hs.of_effect (a := a) ⟨hne, fun _ _ ↦ Iff.rfl, fun _ _ _ ↦ rfl, fun m hm ↦ ?_,
    fun _ _ ↦ rfl, fun _ _ _ _ ↦ Iff.rfl, fun _ _ _ ↦ rfl, fun _ _ _ ↦ ⟨rfl, rfl⟩, fun k ↦ ?_⟩
    ⟨hs.live, hs.found, hs.counted, hs.held⟩ ?_ (fun j hj hout ↦ ?_) (fun j hj hvalid hnone ↦ ?_)
    (fun b k m hm ↦ ?_) fun k m hm ↦ ?_
  · rcases List.mem_cons.mp hm with rfl | hm
    · exact .inr ⟨rfl, hfree⟩
    · exact .inl hm
  · rw [disk_goto, disk_claim]
    split
    · next hk =>
      rw [hk]
      exact .inr (.inl hfree)
    · exact .inl rfl
  · rw [hl]
    exact ⟨by simpa [goto, Inodes.claim] using hmutex, by simp, by simp [Pc.Owns], by simp,
      by simp [Pc.Puts], by simp, by simp, by simp, by simp, by simp, by simp, by simp, by simp⟩
  · exact hs.filled a j hj (by simp [hp, Pc.Owns])
  · have hclears : ∀ b, ¬ (s.pc b).Clears j := by
      intro b hb
      by_cases hba : b = a
      · rw [hba, hp] at hb
        simp at hb
      · exact hnone b (by rwa [hne b hba])
    have hj' : s.table.lookup (s.inode j).key = some j := hj
    have hvalid' : (s.inode j).valid = true := hvalid
    have hagree := hs.agree j hj' hvalid' hclears
    have hk : (s.inode j).key ≠ key device inum := by
      intro hk
      have htype' := hagree.2
      rw [hagree.1, hk] at htype'
      exact htype' hfree
    rw [inode_goto, disk_goto, disk_claim, inode_claim, if_neg hk]
    exact hagree
  · rw [disk_goto, disk_claim]
    change m ≠ 0 ∧ _ ∧ _ = (s.claim a (key device inum) type).latest k
    rw [latest_claim]
    rcases List.mem_cons.mp hm with he | hm
    · cases he
      rw [if_pos rfl]
      exact ⟨htype, rfl, (if_pos rfl).symm⟩
    · have hk : k ≠ key device inum := by
        rintro rfl
        exact hmade b m hm
      obtain ⟨h₁, h₂, h₃, -⟩ := hs.made b k m hm
      rw [if_neg hk, if_neg hk]
      exact ⟨h₁, h₂, h₃⟩
  · rw [hl]
    rcases List.mem_cons.mp hm with he | hm
    · cases he
      exact .inl rfl
    · exact .inr ((hs.made a k m hm).2.2.2.resolve_left (by simp [hp]))

/-- A round of the loop of `allocate`. -/
theorem Inv.scan (hs : Inv s) {device inum : UInt32} {type : UInt16}
    (hp : s.pc a = .scan device inum type) : Inv (s.scan a device inum type) := by
  have htype : type ≠ 0 := (hs.proc a).scan device inum type hp
  have hmutex : s.mutex ≠ some a := by
    rw [Ne, ← (hs.proc a).mutex, hp]
    simp
  unfold Inodes.scan
  split
  · split
    · next hfree => exact hs.claim hp hfree
    · refine hs.walk (m := s.mutex) (fun _ _ ↦ Iff.rfl) ?_ (by simp [hp, Pc.Owns]) (by simp [hp])
        (by simp [hp])
      constructor <;> simp_all [Pc.Owns, Pc.Puts, goto]
  · refine hs.walk (m := s.mutex) (fun _ _ ↦ Iff.rfl) ?_ (by simp [hp, Pc.Owns]) (by simp [hp])
      (by simp [hp])
    constructor <;> simp_all [Pc.Owns, Pc.Puts, goto]

end Disk

section References

/-- `get` puts a new inode into the table. -/
theorem Inv.insert (hs : Inv s) {device inum : UInt32} {made : Option UInt16}
    (hp : s.pc a = .find device inum made) (hnone : s.table.lookup (key device inum) = none)
    (hkeeps : ∀ i, 0 < (s.inode i).refCount → s.table.lookup (s.inode i).key = some i →
      (s.table.touch (key device inum)).lookup (s.inode i).key = some i) :
    Inv (s.insert device inum) ∧
      (s.insert device inum).table.lookup ((s.insert device inum).inode s.next).key =
        some s.next := by
  have hself : (s.insert device inum).inode s.next =
      ⟨device, inum, 0, none, false, ⟨0, 0, 0, 0, 0, fun _ ↦ 0, 0⟩⟩ := Function.update_self ..
  have hother : ∀ j, j ≠ s.next → (s.insert device inum).inode j = s.inode j :=
    fun j hj ↦ Function.update_of_ne hj ..
  have hlookup : ∀ k, (s.insert device inum).table.lookup k =
      if k = key device inum then some s.next
      else (s.table.touch (key device inum)).lookup k := by
    intro k
    have h := Table.lookup_update (s.table.touch (key device inum)) (key device inum) k
      fun _ ↦ s.next
    refine h.trans ?_
    split
    · next h => rw [h, Table.lookup_touch_self, Option.map_some]
    · rfl
  -- What is still in the table was there before.
  have hback : ∀ k j, (s.insert device inum).table.lookup k = some j → k ≠ key device inum →
      s.table.lookup k = some j := by
    intro k j hj hk
    rw [hlookup, if_neg hk] at hj
    exact Table.lookup_of_lookup_touch hk hj
  have hfresh : ∀ b, (b, s.next) ∉ s.refs := fun b hb ↦ Nat.lt_irrefl _ (hs.lt hb)
  have hrefs : ∀ b j, (b, j) ∈ s.refs → j ≠ s.next := fun b j hj ↦ Nat.ne_of_lt (hs.lt hj)
  have hown : ∀ b j, (s.inode j).holder = some b → j ≠ s.next :=
    fun b j hj ↦ hrefs b j (hs.held b j hj)
  have hmine := hs.proc a
  rw [hp] at hmine
  refine ⟨hs.of_effect (a := a) ⟨fun _ _ ↦ rfl, fun _ _ ↦ Iff.rfl, fun _ _ _ ↦ rfl,
    fun _ h ↦ .inl h, fun j hj ↦ ?_, fun b j hj _ ↦ ?_, fun j hj _ ↦ ?_, fun j hj _ ↦ ?_,
    fun _ ↦ .inl rfl⟩ ⟨fun k j hj ↦ ?_, fun r hr ↦ ?_, fun j ↦ ?_, fun b j hj ↦ ?_⟩ ?_
    (fun j hj hout ↦ ?_) (fun j hj hvalid hclears ↦ ?_) (fun b k type hm ↦ ?_)
    fun k type hm ↦ ?_, ?_⟩
  · rw [hother j (Nat.ne_of_lt hj)]
  · rw [hother j (Nat.ne_of_lt hj)]
  · rw [hother j (Nat.ne_of_lt hj)]
  · rw [hother j (Nat.ne_of_lt hj)]
    exact ⟨rfl, rfl⟩
  · by_cases hk : k = key device inum
    · rw [hlookup, if_pos hk] at hj
      obtain rfl : s.next = j := Option.some.inj hj
      rw [hself]
      exact ⟨Nat.lt_succ_self _, hk.symm⟩
    · obtain ⟨hlt, hj⟩ := hs.live k j (hback k j hj hk)
      rw [hother j (Nat.ne_of_lt hlt)]
      exact ⟨Nat.lt_succ_of_lt hlt, hj⟩
  · obtain ⟨b, j⟩ := r
    have hfound := hs.lookup hr
    have hpos : 0 < (s.inode j).refCount := by
      rw [hs.counted]
      exact List.countP_pos_iff.mpr ⟨(b, j), hr, by simp⟩
    have hk : (s.inode j).key ≠ key device inum := by
      intro hk
      rw [hk, hnone] at hfound
      cases hfound
    rw [hother j (hrefs b j hr), hlookup, if_neg hk]
    exact hkeeps j hpos hfound
  · by_cases hj : j = s.next
    · rw [hj, hself]
      refine (List.countP_eq_zero.mpr fun r hr hr' ↦ ?_).symm
      obtain ⟨b, i⟩ := r
      obtain rfl : i = s.next := by simpa using hr'
      exact hfresh b hr
    · rw [hother j hj]
      exact hs.counted j
  · by_cases hji : j = s.next
    · rw [hji, hself] at hj
      cases hj
    · rw [hother j hji] at hj
      exact hs.held b j hj
  · have hpc : (s.insert device inum).pc a = .find device inum made := hp
    rw [hpc]
    exact ⟨hmine.mutex, by simp, by simp [Pc.Owns], by simp, by simp [Pc.Puts], by simp, by simp,
      by simp, by simp, by simp, by simp, by simp, by simp⟩
  · by_cases hji : j = s.next
    · rw [hji, hself] at hj
      cases hj
    · rw [hother j hji] at hj ⊢
      exact hs.filled a j hj hout
  · by_cases hji : j = s.next
    · rw [hji, hself] at hvalid
      cases hvalid
    · rw [hother j hji] at hj hvalid ⊢
      have hk : (s.inode j).key ≠ key device inum := by
        intro hk
        rw [hlookup, if_pos hk] at hj
        exact hji (Option.some.inj hj).symm
      exact hs.agree j (hback _ j hj hk) hvalid hclears
  · obtain ⟨h₁, h₂, h₃, -⟩ := hs.made b k type hm
    exact ⟨h₁, h₂, h₃⟩
  · refine (hs.made a k type hm).2.2.2.imp_right ?_
    rintro ⟨j, hj, hk⟩
    exact ⟨j, hj, by rw [hother j (hrefs a j hj), hk]⟩
  · rw [hself, hlookup]
    exact if_pos rfl

theorem inode_recount (s : Inodes) (i j n : Nat) (refs : List (Nat × Nat)) :
    (s.recount i n refs).inode j =
      if j = i then { s.inode i with refCount := n } else s.inode j := Function.update_apply ..

/-- Only the count changes. -/
theorem field_recount {α : Type} (s : Inodes) (i j n : Nat) (refs : List (Nat × Nat))
    (f : SharedInode → α) (hf : ∀ x : SharedInode, f { x with refCount := n } = f x) :
    f ((s.recount i n refs).inode j) = f (s.inode j) := by
  rw [inode_recount]
  split
  · next h => rw [h, hf]
  · rfl

theorem key_recount (s : Inodes) (i j n : Nat) (refs : List (Nat × Nat)) :
    ((s.recount i n refs).inode j).key = (s.inode j).key :=
  field_recount s i j n refs _ fun _ ↦ rfl

theorem holder_recount (s : Inodes) (i j n : Nat) (refs : List (Nat × Nat)) :
    ((s.recount i n refs).inode j).holder = (s.inode j).holder :=
  field_recount s i j n refs _ fun _ ↦ rfl

theorem valid_recount (s : Inodes) (i j n : Nat) (refs : List (Nat × Nat)) :
    ((s.recount i n refs).inode j).valid = (s.inode j).valid :=
  field_recount s i j n refs _ fun _ ↦ rfl

theorem dinode_recount (s : Inodes) (i j n : Nat) (refs : List (Nat × Nat)) :
    ((s.recount i n refs).inode j).dinode = (s.inode j).dinode :=
  field_recount s i j n refs _ fun _ ↦ rfl

/-- A step of a process in the spin lock that changes its references. -/
theorem Inv.recount (hs : Inv s) {n : Nat} {refs : List (Nat × Nat)} (hmutex : s.mutex = some a)
    (hout : ∀ j, ¬ (s.pc a).Owns j) (hothers : ∀ b j, b ≠ a → refs.count (b, j) = s.refs.count (b, j))
    (hfound : ∀ r ∈ refs, s.table.lookup (s.inode r.2).key = some r.2)
    (hcounted : ∀ j, (if j = i then n else (s.inode j).refCount) = refs.countP fun r ↦ r.2 = j)
    (hheld : ∀ b j, (s.inode j).holder = some b → (b, j) ∈ refs)
    (hmine : ((s.recount i n refs).goto a l).Local a l)
    (hclaims : ∀ k type, (a, k, type) ∈ s.made →
      l.Claims k ∨ ∃ j, (a, j) ∈ refs ∧ (s.inode j).key = k) :
    Inv ((s.recount i n refs).goto a l) := by
  have hl : ((s.recount i n refs).goto a l).pc a = l := Function.update_self ..
  have hne : ∀ b, b ≠ a → ((s.recount i n refs).goto a l).pc b = s.pc b :=
    fun b hb ↦ Function.update_of_ne hb ..
  refine hs.of_effect (a := a) ⟨hne, fun _ _ ↦ Iff.rfl, fun b j hb ↦ hothers b j hb,
    fun _ h ↦ .inl h, fun j _ ↦ key_recount s i j n refs,
    fun b j _ _ ↦ by rw [inode_goto, holder_recount], fun _ _ h ↦ absurd hmutex h,
    fun j _ _ ↦ ⟨valid_recount s i j n refs, dinode_recount s i j n refs⟩, fun _ ↦ .inl rfl⟩
    ⟨fun k j hj ↦ ?_, fun r hr ↦ ?_, fun j ↦ ?_, fun b j hj ↦ ?_⟩ (by rwa [hl])
    (fun j hj _ ↦ ?_) (fun j hj hvalid hnone ↦ ?_) (fun b k type hm ↦ ?_) fun k type hm ↦ ?_
  · rw [inode_goto, key_recount]
    exact hs.live k j hj
  · rw [inode_goto, key_recount]
    exact hfound r hr
  · refine Eq.trans ?_ (hcounted j)
    rw [inode_goto, inode_recount]
    split
    · rfl
    · rfl
  · rw [inode_goto, holder_recount] at hj
    exact hheld b j hj
  · rw [inode_goto, holder_recount] at hj
    rw [inode_goto, valid_recount]
    exact hs.filled a j hj (hout j)
  · rw [inode_goto, key_recount] at hj
    rw [inode_goto, valid_recount] at hvalid
    rw [inode_goto, key_recount, dinode_recount]
    refine hs.agree j hj hvalid fun b hb ↦ ?_
    by_cases hba : b = a
    · rw [hba] at hb
      exact hout j (.inr hb)
    · exact hnone b (by rwa [hne b hba])
  · obtain ⟨h₁, h₂, h₃, -⟩ := hs.made b k type hm
    exact ⟨h₁, h₂, h₃⟩
  · rw [hl]
    refine (hclaims k type hm).imp_right ?_
    rintro ⟨j, hj, hk⟩
    exact ⟨j, hj, (key_recount s i j n refs).trans hk⟩

/-- `++refCount`. -/
theorem Inv.refer (hs : Inv s) (hmutex : s.mutex = some a)
    (hfound : s.table.lookup (s.inode i).key = some i)
    (hpc : (∀ j, ¬ (s.pc a).Owns j) ∧ ∀ k, (s.pc a).Claims k → (s.inode i).key = k)
    (hl : l = .unlockGet i ∨ l = .unlockDup i) : Inv (s.refer a i l) := by
  refine hs.recount hmutex hpc.1 (fun b j hb ↦ ?_) (fun r hr ↦ ?_) (fun j ↦ ?_)
    (fun b j hj ↦ List.mem_cons_of_mem _ (hs.held b j hj)) ?_ fun k type hm ↦ .inr ?_
  · refine List.count_cons_of_ne fun h ↦ hb ?_
    exact (congrArg Prod.fst h).symm
  · rcases List.mem_cons.mp hr with rfl | hr
    · exact hfound
    · exact hs.found r hr
  · rw [List.countP_cons, ← hs.counted]
    by_cases hji : j = i
    · simp [hji]
    · simp [hji, Ne.symm hji]
  · have hmem : (a, i) ∈ (a, i) :: s.refs := List.mem_cons_self
    rcases hl with rfl | rfl <;>
      exact ⟨by simpa [goto, Inodes.recount, Inodes.setInode] using hmutex, fun _ hj ↦ hj ▸ hmem,
        by simp [Pc.Owns], by simp, by simp [Pc.Puts], by simp, by simp, by simp, by simp, by simp,
        by simp, by simp, by simp⟩
  · rcases (hs.made a k type hm).2.2.2 with h | ⟨j, hj, hk⟩
    · exact ⟨i, List.mem_cons_self, hpc.2 k h⟩
    · exact ⟨j, List.mem_cons_of_mem _ hj, hk⟩

/-- `--refCount`. -/
theorem Inv.drop (hs : Inv s) (hp : s.pc a = .drop i) : Inv (s.drop a i) := by
  have h := hs.proc a
  have href : (a, i) ∈ s.refs := h.ref i (by simp [hp])
  have hmutex : s.mutex = some a := h.mutex.mp (by simp [hp])
  have hapart : (s.inode i).holder ≠ some a := h.apart i (by simp [hp])
  have hlast := h.last i (.inl (by simp [hp]))
  have hne : ∀ b j, (b, j) ≠ (a, i) → ((b, j) ∈ s.refs.erase (a, i) ↔ (b, j) ∈ s.refs) :=
    fun b j hbj ↦ List.mem_erase_of_ne hbj
  refine hs.recount hmutex (by simp [hp, Pc.Owns]) (fun b j hb ↦ ?_)
    (fun r hr ↦ hs.found r (List.mem_of_mem_erase hr)) (fun j ↦ ?_) (fun b j hj ↦ ?_) ?_
    fun k type hm ↦ .inr ?_
  · refine List.count_erase_of_ne fun h ↦ hb ?_
    exact congrArg Prod.fst h
  · have hcount := List.countP_erase (fun r : Nat × Nat ↦ decide (r.2 = j)) s.refs (a, i)
    rw [hcount, ← hs.counted]
    by_cases hji : j = i
    · simp [hji, href]
    · simp [hji, Ne.symm hji]
  · refine (hne b j ?_).mpr (hs.held b j hj)
    rintro ⟨⟩
    exact hapart hj
  · exact ⟨by simpa [goto, Inodes.recount, Inodes.setInode] using hmutex, by simp,
      by simp [Pc.Owns], by simp, by simp [Pc.Puts], by simp, by simp, by simp, by simp, by simp,
      by simp, by simp, by simp⟩
  · obtain ⟨j, hj, hk⟩ := (hs.made a k type hm).2.2.2.resolve_left (by simp [hp])
    refine ⟨j, ?_, hk⟩
    by_cases hji : j = i
    -- What the process has from `allocate` it has not put for the last time.
    · subst hji
      have hmore : s.refs.count (a, j) ≠ 1 := fun hone ↦ hlast hone type (hk ▸ hm)
      have hpos := List.count_pos_iff.mpr href
      rw [← List.count_pos_iff, List.count_erase_self]
      omega
    · refine (hne a j fun h ↦ hji ?_).mpr hj
      exact congrArg Prod.snd h

/-- `get` finds the inode or puts a new one into the table. -/
theorem Inv.find (hs : Inv s) {device inum : UInt32} {made : Option UInt16}
    (hp : s.pc a = .find device inum made)
    (hkeeps : ∀ i, 0 < (s.inode i).refCount → s.table.lookup (s.inode i).key = some i →
      (s.table.touch (key device inum)).lookup (s.inode i).key = some i) :
    Inv (s.find a device inum) := by
  have hmutex : s.mutex = some a := (hs.proc a).mutex.mp (by simp [hp])
  have hclaims : ∀ k, (Pc.find device inum made).Claims k → key device inum = k := by
    intro k hk
    cases made with
    | none => exact hk.elim
    | some type => exact hk
  unfold Inodes.find
  split
  · next i hi =>
    obtain ⟨-, hk⟩ := hs.live _ i hi
    refine hs.refer hmutex (by rw [hk, hi]) ⟨by simp [hp, Pc.Owns], fun k hk' ↦ ?_⟩ (.inl rfl)
    rw [hk]
    exact hclaims k (hp ▸ hk')
  · next hnone =>
    obtain ⟨hs', hfound⟩ := hs.insert hp hnone hkeeps
    have hpc : (s.insert device inum).pc a = .find device inum made := hp
    have hself : ((s.insert device inum).inode s.next).key = key device inum := by
      have h : (s.insert device inum).inode s.next =
        ⟨device, inum, 0, none, false, ⟨0, 0, 0, 0, 0, fun _ ↦ 0, 0⟩⟩ := Function.update_self ..
      rw [h]
      rfl
    refine hs'.refer hmutex hfound ⟨by simp [hpc, Pc.Owns], fun k hk' ↦ ?_⟩ (.inl rfl)
    rw [hself]
    exact hclaims k (hpc ▸ hk')

/-- What is left of the references to inodes from `allocate` when `put` is called. -/
theorem mem_made_callPut {m : Nat × UInt64 × UInt16} : m ∈ (s.callPut a i).made ↔
    m ∈ s.made ∧ (s.refs.count (a, i) = 1 → ¬ (m.1 = a ∧ m.2.1 = (s.inode i).key)) := by
  unfold callPut
  change m ∈ ite _ _ _ ↔ _
  split
  · next h => simp [h, imp_iff_not_or]
  · next h => simp [h]

/-- A call of `put`. -/
theorem Inv.callPut (hs : Inv s) (hp : s.pc a = .outside) (href : (a, i) ∈ s.refs)
    (hapart : (s.inode i).holder ≠ some a) : Inv (s.callPut a i) := by
  have hl : (s.callPut a i).pc a = .lockPut i := Function.update_self ..
  have hne : ∀ b, b ≠ a → (s.callPut a i).pc b = s.pc b := fun b hb ↦ Function.update_of_ne hb ..
  have hmutex := (hs.proc a).mutex
  rw [hp] at hmutex
  refine hs.of_effect (a := a) ⟨hne, fun _ _ ↦ Iff.rfl, fun _ _ _ ↦ rfl,
    fun _ h ↦ .inl (mem_made_callPut.mp h).1, fun _ _ ↦ rfl, fun _ _ _ _ ↦ Iff.rfl,
    fun _ _ _ ↦ rfl, fun _ _ _ ↦ ⟨rfl, rfl⟩, fun _ ↦ .inl rfl⟩
    ⟨hs.live, hs.found, hs.counted, hs.held⟩ ?_
    (fun j hj _ ↦ hs.filled a j hj (by simp [hp, Pc.Owns])) (fun j hj hvalid hnone ↦ ?_)
    (fun b k type hm ↦ ?_) fun k type hm ↦ ?_
  · have hlast : ∀ j, j = i → s.refs.count (a, j) = 1 →
        ∀ t, (a, (s.inode j).key, t) ∉ (s.callPut a i).made := by
      rintro j rfl hone t hm
      exact (mem_made_callPut.mp hm).2 hone ⟨rfl, rfl⟩
    rw [hl]
    exact ⟨hmutex, fun _ hj ↦ hj ▸ href, by simp [Pc.Owns], fun _ hj ↦ hj ▸ hapart,
      fun j hj ↦ hlast j (by simpa [Pc.Puts, eq_comm] using hj), by simp, by simp, by simp,
      by simp, by simp, by simp, by simp, by simp⟩
  · refine hs.agree j hj hvalid fun b hb ↦ ?_
    by_cases hba : b = a
    · rw [hba, hp] at hb
      simp at hb
    · exact hnone b (by rwa [hne b hba])
  · obtain ⟨h₁, h₂, h₃, -⟩ := hs.made b k type (mem_made_callPut.mp hm).1
    exact ⟨h₁, h₂, h₃⟩
  · right
    exact (hs.made a k type (mem_made_callPut.mp hm).1).2.2.2.resolve_left (by simp [hp])

end References

end Orfos.Fs.Inodes
