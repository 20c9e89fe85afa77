import Orfos.Fs.Freeing

/-!
# Freed inodes in use again

Every step keeps the invariant of `Fs.Freeing`, so it holds in all runs. A freed inode number is free
for `allocate` as soon as its type on the disk is 0, at which time `put` still has the lock of the
in-memory inode and a reference to it; whoever gets it then waits for the lock and reads the disk.
-/

namespace Orfos.Fs.Inodes

open Orfos.Base Orfos.Lib

variable {s u : Inodes} {a b i j : Nat} {l : Pc}

/-- The invariant is kept by each step of the code. -/
theorem Inv.go (hs : Inv s) {e : Nat × Use} (hok : s.Careful e) (hu : s.go e.1 = some u) :
    Inv u := by
  unfold Inodes.go at hu
  split at hu
  · cases hu
  · next hp => exact Option.some.inj hu ▸ hs.scan hp
  · next hp => exact hs.lock hu (.inl ⟨_, _, _, hp, rfl⟩)
  · next hp => exact Option.some.inj hu ▸ hs.find hp (hok.keeps _ _ _ hp)
  · next hp => exact Option.some.inj hu ▸ hs.unlock (.inl ⟨_, .inl ⟨hp, rfl⟩⟩)
  · next hp => exact hs.lock hu (.inr ⟨_, .inl ⟨hp, rfl⟩⟩)
  · next i hp =>
    have href := (hs.proc e.1).ref i (by simp [hp])
    exact Option.some.inj hu ▸ hs.refer ((hs.proc e.1).mutex.mp (by simp [hp])) (hs.lookup href)
      (by simp [hp, Pc.Owns]) (.inr rfl)
  · next hp => exact Option.some.inj hu ▸ hs.unlock (.inl ⟨_, .inr (.inl ⟨hp, rfl⟩)⟩)
  · next hp => exact hs.take hu (.inl ⟨hp, rfl⟩)
  · next hp => exact hs.load hu hp
  · next hp => exact hs.lock hu (.inr ⟨_, .inr (.inl ⟨hp, rfl⟩)⟩)
  · next hp => exact Option.some.inj hu ▸ hs.check hok.spares (.inl ⟨hp, rfl⟩)
  · next hp => exact Option.some.inj hu ▸ hs.check hok.spares (.inr (.inl ⟨hp, rfl⟩))
  · next hp => exact Option.some.inj hu ▸ hs.check hok.spares (.inr (.inr ⟨hp, rfl⟩))
  · next hp => exact hs.take hu (.inr ⟨hp, rfl⟩)
  · next hp => exact Option.some.inj hu ▸ hs.unlock (.inl ⟨_, .inr (.inr ⟨hp, rfl⟩)⟩)
  · next hp => exact Option.some.inj hu ▸ hs.clear (.inl ⟨hp, rfl, rfl⟩)
  · next hp => exact Option.some.inj hu ▸ hs.update (.inl ⟨hp, rfl⟩)
  · next hp => exact Option.some.inj hu ▸ hs.clear (.inr (.inl ⟨hp, rfl, rfl⟩))
  · next hp => exact Option.some.inj hu ▸ hs.update (.inr ⟨hp, rfl⟩)
  · next hp => exact Option.some.inj hu ▸ hs.clear (.inr (.inr (.inl ⟨hp, rfl, rfl⟩)))
  · next hp => exact Option.some.inj hu ▸ hs.clear (.inr (.inr (.inr ⟨hp, rfl, rfl⟩)))
  · next hp => exact hs.lock hu (.inr ⟨_, .inr (.inr ⟨hp, rfl⟩)⟩)
  · next hp => exact Option.some.inj hu ▸ hs.drop hp
  · next hp => exact Option.some.inj hu ▸ hs.unlock (.inr ⟨hp, rfl⟩)

/-- The invariant is kept by each call. -/
theorem Inv.calls (hs : Inv s) {use : Use} (hp : s.pc a = .outside)
    (htyped : ∀ device type, use = .allocate device type → type ≠ 0)
    (hu : s.call a use = some u) : Inv u := by
  cases use with
  | get device inum => exact Option.some.inj hu ▸ hs.call hp (.inl ⟨_, _, rfl⟩)
  | allocate device type =>
    exact Option.some.inj hu ▸ hs.call hp (.inr (.inl ⟨_, _, type, htyped _ _ rfl, rfl⟩))
  | dup i =>
    simp only [Inodes.call] at hu
    split at hu
    · next href => exact Option.some.inj hu ▸ hs.call hp (.inr (.inr ⟨i, href, .inl rfl⟩))
    · cases hu
  | lock i =>
    simp only [Inodes.call] at hu
    split at hu
    · next href => exact Option.some.inj hu ▸ hs.call hp (.inr (.inr ⟨i, href.1, .inr rfl⟩))
    · cases hu
  | unlock i =>
    simp only [Inodes.call] at hu
    split at hu
    · next hown => exact Option.some.inj hu ▸ hs.release hp hown.1
    · cases hu
  | put i =>
    simp only [Inodes.call] at hu
    split at hu
    · next href => exact Option.some.inj hu ▸ hs.callPut hp href.1 href.2
    · cases hu
  | change i d =>
    simp only [Inodes.call] at hu
    split at hu
    · next hown => exact Option.some.inj hu ▸ hs.change hp hown.1 hown.2
    · cases hu
  | go => cases hu

/-- The invariant is kept by each step that meets the condition. -/
theorem Inv.step (hs : Inv s) {e : Nat × Use} (hok : s.Careful e) (hu : s.step e = some u) :
    Inv u := by
  unfold Inodes.step at hu
  split at hu
  · exact hs.go hok hu
  · split at hu
    · next hp => exact hs.calls hp hok.typed hu
    · cases hu

theorem Inv.initial (bucket : UInt64 → Nat) (numInodes : UInt32) (disk : UInt64 → DiskInode) :
    Inv (initial bucket numInodes disk) where
  live _ _ h := by cases h
  found _ h := by cases h
  counted _ := rfl
  held _ _ h := by cases h
  proc a := by
    have hp : (Inodes.initial bucket numInodes disk).pc a = .outside := rfl
    rw [hp]
    constructor <;> simp [Pc.Owns, Pc.Puts, Inodes.initial]
  filled _ _ h := by cases h
  agree _ h := by cases h
  made _ _ _ h := by cases h

/-- The steps that change the disk. -/
inductive Writes (s : Inodes) (a : Nat) (k : UInt64) (d : DiskInode) : Prop where
  | same (h : d = s.disk k)
  | claim (free : (s.disk k).type = 0)
  | update (i : Nat) (place : s.pc a = .updateTruncated i ∨ s.pc a = .updateCleared i)
      (key : (s.inode i).key = k) (content : d = (s.inode i).dinode)
  | change (i : Nat) (place : s.pc a = .outside) (held : (s.inode i).holder = some a)
      (kept : d.type = (s.inode i).dinode.type)

theorem writes_update {d : DiskInode} (hp : s.pc a = .updateTruncated i ∨ s.pc a = .updateCleared i)
    (k : UInt64) (hd : d = (s.update i).disk k) : s.Writes a k d := by
  rw [disk_update] at hd
  split at hd
  · next h => exact .update i hp h.symm hd
  · exact .same hd

theorem writes_go {k : UInt64} (hu : s.go a = some u) : s.Writes a k (u.disk k) := by
  have hsame : ∀ {v : Inodes}, some v = some u → v.disk = s.disk → s.Writes a k (u.disk k) := by
    intro v he hv
    cases he
    exact .same (congrFun hv k)
  have hlock : ∀ {l : Pc}, s.lock a l = some u → s.Writes a k (u.disk k) := by
    intro l h
    unfold Inodes.lock at h
    split at h
    · exact hsame h rfl
    · cases h
  have htake : ∀ {i : Nat} {l : Pc}, s.take a i l = some u → s.Writes a k (u.disk k) := by
    intro i l h
    unfold Inodes.take at h
    split at h
    · exact hsame h rfl
    · cases h
  unfold Inodes.go at hu
  split at hu
  case h_1 => cases hu
  case h_2 device inum type hp =>
    cases hu
    unfold Inodes.scan
    split
    · split
      · next hfree =>
        rw [disk_goto, disk_claim]
        split
        · next hk => exact .claim (hk ▸ hfree)
        · exact .same rfl
      · exact .same rfl
    · exact .same rfl
  case h_4 =>
    refine hsame hu ?_
    unfold Inodes.find
    split <;> rfl
  case h_10 =>
    unfold Inodes.load at hu
    split at hu
    · exact hsame hu rfl
    · split at hu
      · exact hsame hu rfl
      · cases hu
  case h_18 hp =>
    cases hu
    exact writes_update (.inl hp) k rfl
  case h_20 hp =>
    cases hu
    exact writes_update (.inr hp) k rfl
  all_goals first | exact hsame hu rfl | exact hlock hu | exact htake hu

theorem writes_step {e : Nat × Use} {k : UInt64} (hu : s.step e = some u) :
    s.Writes e.1 k (u.disk k) := by
  obtain ⟨a, use⟩ := e
  unfold Inodes.step at hu
  split at hu
  · exact writes_go hu
  · split at hu
    · next hp =>
      cases use with
      | change i d =>
        simp only [Inodes.call] at hu
        split at hu
        · next hown =>
          cases hu
          rw [disk_change]
          split
          · exact .change i hp hown.1 hown.2
          · exact .same rfl
        · cases hu
      | _ =>
        simp only [Inodes.call] at hu
        (try split at hu) <;> cases hu <;> exact .same rfl
    · cases hu

/-- Only `put` clears a type on the disk. -/
theorem Inv.cleared (hs : Inv s) {e : Nat × Use} {k : UInt64} (hu : s.step e = some u)
    (hold : (s.disk k).type ≠ 0) (hnew : (u.disk k).type = 0) :
    ∃ i, s.pc e.1 = .updateCleared i ∧ (s.inode i).key = k := by
  rcases writes_step hu with h | h | ⟨i, hp | hp, hk, h⟩ | ⟨i, hp, hown, h⟩
  · exact absurd (h ▸ hnew) hold
  · exact absurd h hold
  · exact absurd (h ▸ hnew) ((hs.proc e.1).typed i (by simp [hp]))
  · exact ⟨i, hp, hk⟩
  · have hclears : ∀ b, ¬ (s.pc b).Clears i := by
      intro b hb
      have hb' := (hs.proc b).own i (.inr hb)
      rw [hown] at hb'
      obtain rfl : e.1 = b := Option.some.inj hb'
      simp [hp] at hb
    have hvalid := hs.filled _ i hown (by simp [hp, Pc.Owns])
    exact absurd (h ▸ hnew) (hs.agree i (hs.lookup (hs.held _ i hown)) hvalid hclears).2

theorem Inv.sound (hs : Inv s) : Sound s where
  counted := hs.counted
  free a i hp := by
    have h := hs.proc a
    rw [Option.eq_none_iff_forall_ne_some]
    intro b hb
    have hcount := h.sole i (by simp [hp])
    obtain rfl := hs.only hcount (h.ref i (by simp [hp])) (hs.held b i hb)
    exact h.apart i (by simp [hp]) hb
  sole a i hp := by
    have h := hs.proc a
    have href : (a, i) ∈ s.refs := h.ref i (by simp [hp])
    have hcount := h.sole i (by simp [hp])
    rw [hs.counted, List.countP_eq_length_filter] at hcount
    have hfilter : s.refs.filter (fun r ↦ (s.inode r.2).key = (s.inode i).key) =
        s.refs.filter fun r ↦ r.2 = i := by
      refine List.filter_congr fun r hr ↦ ?_
      refine decide_eq_decide.mpr ⟨fun hk ↦ ?_, fun he ↦ by rw [he]⟩
      exact hs.unique (a := r.1) hr href hk
    rw [hfilter]
    obtain ⟨r, hr⟩ := List.length_eq_one_iff.mp hcount
    have hmem : (a, i) ∈ s.refs.filter fun r ↦ r.2 = i := List.mem_filter.mpr ⟨href, by simp⟩
    rw [hr] at hmem ⊢
    rw [List.mem_singleton.mp hmem]
  unlinked a i hp := by
    refine (hs.proc a).links i ?_
    rcases hp with hp | hp
    · simp [hp]
    · revert hp
      cases s.pc a <;> simp
  cleared _ _ _ hu hold hnew := hs.cleared hu hold hnew
  locked a i hown hout := by
    have hclears : ∀ b, ¬ (s.pc b).Clears i := by
      intro b hb
      have hb' := (hs.proc b).own i (.inr hb)
      rw [hown] at hb'
      obtain rfl : a = b := Option.some.inj hb'
      exact hout (.inr hb)
    have hvalid := hs.filled a i hown hout
    exact ⟨hvalid, (hs.agree i (hs.lookup (hs.held a i hown)) hvalid hclears).1⟩
  made a k type hm := by
    obtain ⟨h₁, h₂, h₃, -⟩ := hs.made a k type hm
    exact ⟨h₁, h₂, h₃⟩

section Examples

/-- The condition of a step, if only the first `m` processes take steps. -/
def Among (m : Nat) (s : Inodes) (e : Nat × Use) : Prop :=
  e.1 < m ∧ (match s.pc e.1 with
    | .find device inum _ => s.table.HasRoom (key device inum)
    | .checkLinks i => ∀ b < m, ¬ (s.pc b).Claims (s.inode i).key
    | _ => True) ∧ match e.2 with
    | .allocate _ type => type ≠ 0
    | _ => True

instance (k : UInt64) : DecidablePred (Pc.Claims k)
  | .lockGet device inum (some _) | .find device inum (some _) =>
    inferInstanceAs (Decidable (key device inum = k))
  | .outside | .scan _ _ _ | .lockGet _ _ none | .find _ _ none | .unlockGet _ | .lockDup _ | .dup _
  | .unlockDup _ | .wait _ | .load _ | .lockPut _ | .checkCount _ | .checkValid _ | .checkLinks _
  | .takeLock _ | .leaveTable _ | .truncate _ | .updateTruncated _ | .clearType _
  | .updateCleared _ | .invalidate _ | .unlockInode _ | .relockPut _ | .drop _ | .unlockPut =>
    .isFalse id

instance (m : Nat) (s : Inodes) (e : Nat × Use) : Decidable (s.Among m e) :=
  have (l : Pc) : Decidable (match l with
      | .find device inum _ => s.table.HasRoom (key device inum)
      | .checkLinks i => ∀ b < m, ¬ (s.pc b).Claims (s.inode i).key
      | _ => True) := by
    split <;> infer_instance
  have (use : Use) : Decidable (match use with
      | .allocate _ type => type ≠ 0
      | _ => True) := by
    split <;> infer_instance
  inferInstanceAs (Decidable (_ ∧ _ ∧ _))

/-- A step of the code moves its own process only. -/
theorem pc_go (hu : s.go a = some u) : ∃ l, u.pc = Function.update s.pc a l := by
  have hsome : ∀ {v : Inodes}, some v = some u → (∃ l, v.pc = Function.update s.pc a l) →
      ∃ l, u.pc = Function.update s.pc a l := fun he hv ↦ Option.some.inj he ▸ hv
  have hlock : ∀ {l : Pc}, s.lock a l = some u → ∃ l, u.pc = Function.update s.pc a l := by
    intro l h
    unfold Inodes.lock at h
    split at h
    · exact hsome h ⟨_, rfl⟩
    · cases h
  have htake : ∀ {i : Nat} {l : Pc}, s.take a i l = some u →
      ∃ l, u.pc = Function.update s.pc a l := by
    intro i l h
    unfold Inodes.take at h
    split at h
    · exact hsome h ⟨_, rfl⟩
    · cases h
  unfold Inodes.go at hu
  split at hu
  case h_1 => cases hu
  case h_2 =>
    refine hsome hu ?_
    unfold Inodes.scan
    split
    · split <;> exact ⟨_, rfl⟩
    · exact ⟨_, rfl⟩
  case h_4 =>
    refine hsome hu ?_
    unfold Inodes.find
    split <;> exact ⟨_, rfl⟩
  case h_10 =>
    unfold Inodes.load at hu
    split at hu
    · exact hsome hu ⟨_, rfl⟩
    · split at hu
      · exact hsome hu ⟨_, rfl⟩
      · cases hu
  all_goals first | exact hsome hu ⟨_, rfl⟩ | exact hlock hu | exact htake hu

/-- The other processes stay where they are. -/
theorem pc_step {e : Nat × Use} (hu : s.step e = some u) (hb : b ≠ e.1) : u.pc b = s.pc b := by
  obtain ⟨a, use⟩ := e
  unfold Inodes.step at hu
  split at hu
  · obtain ⟨l, hl⟩ := pc_go hu
    rw [hl]
    exact Function.update_of_ne hb ..
  · split at hu
    · cases use <;> simp only [Inodes.call] at hu <;> (try split at hu) <;> cases hu <;>
        first | exact Function.update_of_ne hb .. | rfl
    · cases hu

/-- A run of the first `m` processes. -/
theorem run_among {m : Nat} {bucket : UInt64 → Nat} {numInodes : UInt32}
    {disk : UInt64 → DiskInode} (h : Run step (Among m) (initial bucket numInodes disk) s) :
    Run step Careful (initial bucket numInodes disk) s := by
  have hboth : (∀ b, m ≤ b → s.pc b = .outside) ∧
      Run step Careful (initial bucket numInodes disk) s := by
    induction h with
    | refl => exact ⟨fun _ _ ↦ rfl, .refl⟩
    | @tail t u e _ ok last ih =>
      obtain ⟨hm, hpc, htype⟩ := ok
      refine ⟨fun b hb ↦ ?_, ih.2.tail ⟨fun device inum made hp i _ hi ↦ ?_,
        fun i hp _ b hc ↦ ?_, fun device type he ↦ ?_⟩ last⟩
      · rw [pc_step last (by omega)]
        exact ih.1 b hb
      · rw [hp] at hpc
        by_cases hk : (t.inode i).key = key device inum
        · rw [hk] at hi ⊢
          rw [Table.lookup_touch_self, hi, Option.getD_some]
        · rw [Table.lookup_touch_of_room hpc hk]
          exact hi
      · by_cases hb : b < m
        · rw [hp] at hpc
          exact hpc b hb hc
        · rw [ih.1 b (by omega)] at hc
          exact hc
      · rw [he] at htype
        exact htype
  exact hboth.2

/-- The buckets of a table of 256 with the identity as hash. -/
def identity (k : UInt64) : Nat := k.toNat % 256

/-- A disk with inodes that have no links. -/
def unlinked (_ : UInt64) : DiskInode := ⟨2, 0, 0, 0, 0, fun _ ↦ 0, 0⟩

/-- Process `a` calls a function and goes on `n` times. -/
def calls (a : Nat) (use : Use) (n : Nat) : List (Nat × Use) := (a, use) :: .replicate n (a, .go)

/-- A process has three inodes of one bucket, and another one gets the inode that was unlinked. -/
def crowded : List (Nat × Use) :=
  calls 0 (.get 1 1) 3 ++ calls 0 (.get 1 257) 3 ++ calls 0 (.get 1 513) 3 ++
    calls 1 (.get 1 257) 3 ++ calls 1 (.lock 3) 2 ++ calls 1 (.unlock 3) 0 ++ calls 1 (.put 3) 4

/-- A process has written an inode in `allocate`, and another one gets it before and puts it. -/
def overtaken : List (Nat × Use) :=
  calls 0 (.allocate 1 2) 1 ++ calls 1 (.get 1 1) 3 ++ calls 1 (.lock 0) 2 ++
    calls 1 (.unlock 0) 0 ++ calls 1 (.put 0) 10

/-- The inode that `allocate` took is free again. -/
theorem unsound_after_overtaken :
    ∃ s, Run step (fun _ _ ↦ True) (initial identity 2 fun _ ↦ claimed (unlinked 0) 0) s ∧
      ¬ Sound s := by
  have hrun : Run step (fun _ _ ↦ True) (initial identity 2 fun _ ↦ claimed (unlinked 0) 0)
      (final step (initial identity 2 fun _ ↦ claimed (unlinked 0) 0) overtaken) :=
    run_final (by decide +kernel) (by decide +kernel)
  refine ⟨_, hrun, fun h ↦ ?_⟩
  have htype := (h.made 0 (key 1 1) 2 (by decide +kernel)).2.1
  revert htype
  decide +kernel

end Examples

end Orfos.Fs.Inodes
