import Orfos.Fs.Steady
import Orfos.Fs.Transaction

/-!
# References and locks of in-memory inodes

What the functions of `kernel/fs/inode.cpp` do to the reference counts and the locks, from every
state. The judgements are about runs that return: a function that waits for a lock or fails an
assertion does not. A count that wraps around comes back when the reference is given back.
-/

namespace Orfos.Fs

open Orfos.Base Orfos.Base.Traced Orfos.Lib

/-- Runs in which the buffer cache has room for every block, and which may stop anywhere. -/
def anywhere : Terms := ⟨Room, Room.hasRoom, fun _ ↦ True, False⟩

/-- As `anywhere`, for programs that have to return if `p` holds. -/
def reading (p : Prop) : Terms := ⟨Room, Room.hasRoom, fun _ ↦ True, p⟩

/-- The reference counts of the in-memory inodes. -/
def refs (s : State) (i : Nat) : UInt32 := (s.itable.inodes i).refCount

/-- The locks of the in-memory inodes. -/
def locks (s : State) (i : Nat) : Bool := (s.itable.inodes i).locked

/-- The references and locks of a state. In-memory inodes not made yet have none and are not in
the table. -/
structure Tally (s : State) (r : Nat → UInt32) (l : Nat → Bool) : Prop where
  unused : ∀ i, s.itable.next ≤ i → r i = 0 ∧ l i = false
  known : ∀ k i, s.itable.table.lookup k = some i → i < s.itable.next
  refs : refs s = r
  locks : locks s = l

section

variable {s t : State} {r : Nat → UInt32} {l : Nat → Bool} {i : Nat} {α : Type}

theorem Tally.steady (h : Tally s r l) (hst : Steady s t) : Tally t r l := by
  refine ⟨fun i hi ↦ h.unused i (hst.next ▸ hi), fun k i hk ↦ ?_, ?_, ?_⟩
  · rw [hst.next]
    exact h.known k i (hst.table ▸ hk)
  · rw [← h.refs]
    exact funext fun i ↦ (hst.same i).refCount
  · rw [← h.locks]
    exact funext fun i ↦ (hst.same i).locked

/-- A still program leaves references and locks alone. -/
theorem Still.ensures {m : FsM α} (hm : Still m) (h : Tally s r l) :
    Ensures anywhere.regime m s fun _ t ↦ Tally t r l ∧ Steady s t :=
  (Confined.ensures hm (fun _ ↦ trivial) id).imp fun _ _ ht ↦ ⟨h.steady ht, ht⟩

/-- A change of one in-memory inode. -/
theorem Tally.setInode (h : Tally s r l) (hi : i < s.itable.next) (f : Inode → Inode) :
    Tally (s.setInode i f) (Function.update r i (f (s.itable.inodes i)).refCount)
      (Function.update l i (f (s.itable.inodes i)).locked) := by
  have hnode : ∀ j, (s.setInode i f).itable.inodes j =
      if j = i then f (s.itable.inodes i) else s.itable.inodes j :=
    fun j ↦ Function.update_apply ..
  refine ⟨fun j hj ↦ ?_, h.known, ?_, ?_⟩
  · have hji : j ≠ i := by
      rintro rfl
      exact absurd hi (Nat.not_lt.mpr hj)
    rw [Function.update_of_ne hji, Function.update_of_ne hji]
    exact h.unused j hj
  · rw [← h.refs]
    funext j
    rw [Fs.refs, hnode, Function.update_apply]
    split <;> rfl
  · rw [← h.locks]
    funext j
    rw [Fs.locks, hnode, Function.update_apply]
    split <;> rfl

/-- A change of one in-memory inode that keeps its references and its lock. -/
theorem Tally.setContents (h : Tally s r l) (hi : i < s.itable.next) {f : Inode → Inode}
    (hr : (f (s.itable.inodes i)).refCount = (s.itable.inodes i).refCount)
    (hl : (f (s.itable.inodes i)).locked = (s.itable.inodes i).locked) :
    Tally (s.setInode i f) r l := by
  have hf := h.setInode hi f
  have hri : (s.itable.inodes i).refCount = r i := congrFun h.refs i
  have hli : (s.itable.inodes i).locked = l i := congrFun h.locks i
  rwa [hr, hl, hri, hli, Function.update_eq_self, Function.update_eq_self] at hf

/-- A lock taken and given back. -/
theorem lock_back (h : l i = false) : Function.update (Function.update l i true) i false = l := by
  rw [Function.update_idem, ← h, Function.update_eq_self]

/-- A lock set. -/
theorem Tally.setLocked (h : Tally s r l) (hi : i < s.itable.next) (b : Bool) :
    Tally (s.setInode i fun x ↦ { x with locked := b }) r (Function.update l i b) := by
  have hf := h.setInode hi fun x ↦ { x with locked := b }
  have hri : (s.itable.inodes i).refCount = r i := congrFun h.refs i
  rwa [hri, Function.update_eq_self] at hf

/-- A reference count set. -/
theorem Tally.setRefs (h : Tally s r l) (hi : i < s.itable.next) (f : UInt32 → UInt32) :
    Tally (s.setInode i fun x ↦ { x with refCount := f x.refCount })
      (Function.update r i (f (r i))) l := by
  have hf := h.setInode hi fun x ↦ { x with refCount := f x.refCount }
  have hri : (s.itable.inodes i).refCount = r i := congrFun h.refs i
  have hli : (s.itable.inodes i).locked = l i := congrFun h.locks i
  rwa [hri, hli, Function.update_eq_self] at hf

/-- A new in-memory inode has one reference. -/
theorem Tally.newInode (h : Tally s r l) (device inum : UInt32) :
    Tally (s.newInode device inum) (Function.update r s.itable.next (r s.itable.next + 1)) l := by
  obtain ⟨hr, hl⟩ := h.unused s.itable.next le_rfl
  have hnode : ∀ j, (s.newInode device inum).itable.inodes j = if j = s.itable.next then
      ⟨device, inum, 1, false, false, ⟨0, 0, 0, 0, 0, fun _ ↦ 0, 0⟩⟩ else s.itable.inodes j :=
    fun j ↦ Function.update_apply ..
  refine ⟨fun j hj ↦ ?_, fun k j hk ↦ ?_, ?_, ?_⟩
  · have hjn : s.itable.next + 1 ≤ j := hj
    rw [Function.update_of_ne (by omega)]
    exact h.unused j (by omega)
  · change j < s.itable.next + 1
    simp only [State.newInode, Table.lookup_update] at hk
    split at hk
    · obtain ⟨_, -, hj⟩ := Option.map_eq_some_iff.mp hk
      omega
    · next hne =>
      have := h.known k j (Table.lookup_of_lookup_touch hne hk)
      omega
  · rw [← h.refs]
    funext j
    rw [Fs.refs, hnode, Function.update_apply]
    split
    · rw [h.refs, hr]
      rfl
    · rfl
  · rw [← h.locks]
    funext j
    rw [Fs.locks, hnode]
    split
    · next hj => rw [hj, h.locks, hl]
    · rfl

end

namespace Inode

variable {s : State} {r : Nat → UInt32} {l : Nat → Bool} {i : Nat}

/-- `get` counts one reference more. -/
theorem get_tally (h : Tally s r l) (device inum : UInt32) :
    Ensures anywhere.regime (get device inum) s fun j t ↦
      Tally t (Function.update r j (r j + 1)) l ∧ j < t.itable.next ∧
        s.itable.next ≤ t.itable.next := by
  refine ensures_gets_bind ?_
  split
  · next j hj =>
    have hlt := h.known _ j hj
    exact ensures_modify_bind (ensures_pure ⟨h.setRefs hlt (· + 1), hlt, le_rfl⟩)
  · refine ensures_gets_bind (ensures_modify_bind (ensures_pure ⟨?_, ?_, ?_⟩))
    · exact h.newInode device inum
    · exact Nat.lt_succ_self _
    · exact Nat.le_succ _

/-- From `s` to `t` only one in-memory inode has changed, apart from contents. -/
structure Only (i : Nat) (s t : State) : Prop where
  table : t.itable.table = s.itable.table
  next : t.itable.next = s.itable.next
  same : ∀ j, j ≠ i → Same (t.itable.inodes j) (s.itable.inodes j)

theorem Only.refl (i : Nat) (s : State) : Only i s s := ⟨rfl, rfl, fun _ _ ↦ .refl _⟩

theorem Only.steady {t u : State} (h : Only i s t) (hst : Steady t u) : Only i s u :=
  ⟨hst.table.trans h.table, hst.next.trans h.next, fun j hj ↦ (hst.same j).trans (h.same j hj)⟩

theorem Only.setInode {t : State} (h : Only i s t) (f : Inode → Inode) :
    Only i s (t.setInode i f) := by
  refine ⟨h.table, h.next, fun j hj ↦ ?_⟩
  have hnode : (t.setInode i f).itable.inodes j = t.itable.inodes j := Function.update_of_ne hj _ _
  rw [hnode]
  exact h.same j hj

/-- A still program in between. -/
theorem still_only {α : Type} {m : FsM α} {t : State} (hm : Still m) (ht : Tally t r l)
    (ho : Only i s t) : Ensures anywhere.regime m t fun _ u ↦ Tally u r l ∧ Only i s u :=
  (hm.ensures ht).imp fun _ _ hu ↦ ⟨hu.1, ho.steady hu.2⟩

/-- `put` counts one reference less. -/
theorem put_tally (h : Tally s r l) (hi : i < s.itable.next) :
    Ensures anywhere.regime (put i) s fun _ t ↦
      Tally t (Function.update r i (r i - 1)) l ∧ Only i s t := by
  -- the last step, from any state before it
  have hlast : ∀ t, Tally t r l → Only i s t → Ensures anywhere.regime
      (modify fun s ↦ s.setInode i fun x ↦ { x with refCount := x.refCount - 1 }) t
      fun _ t ↦ Tally t (Function.update r i (r i - 1)) l ∧ Only i s t := by
    intro t ht ho
    exact ensures_modify ⟨ht.setRefs (ho.next ▸ hi) (· - 1), ho.setInode _⟩
  unfold put
  refine ensures_gets_bind ?_
  split
  · refine ensures_assert_bind False.elim trivial fun hfree ↦ ?_
    refine ensures_modify_bind (ensures_bind (still_only (still_truncate i) (h.setLocked hi true)
      ((Only.refl i s).setInode _)) ?_)
    rintro _ t ⟨ht, ho⟩
    have ht' := ht.setContents (ho.next ▸ hi)
      (f := fun x ↦ { x with dinode := { x.dinode with type := 0 } }) rfl rfl
    refine ensures_modify_bind (ensures_bind (still_only (still_update i) ht' (ho.setInode _)) ?_)
    rintro _ u ⟨hu, ho⟩
    have hu' := hu.setContents (ho.next ▸ hi) (f := fun x ↦ { x with valid := false }) rfl rfl
    refine ensures_modify_bind (ensures_modify_bind (hlast _ ?_ ((ho.setInode _).setInode _)))
    have hv := hu'.setLocked (ho.next ▸ hi) false
    rwa [lock_back ((congrFun h.locks i).symm.trans hfree)] at hv
  · exact hlast s h (.refl i s)

/-- `dirLookup` counts a reference to what it finds. -/
theorem dirLookup_tally (h : Tally s r l) (hi : i < s.itable.next) (name : Name) :
    Ensures anywhere.regime (dirLookup i name) s fun found t ↦
      match found with
      | none => Tally t r l ∧ Steady s t
      | some j => Tally t (Function.update r j (r j + 1)) l ∧ j < t.itable.next ∧
          s.itable.next ≤ t.itable.next := by
  -- the loop, from any state before a round
  have hloop : ∀ n offset t, Tally t r l → Steady s t →
      Ensures anywhere.regime (dirLookupFrom i name n offset) t fun found t ↦
        match found with
        | none => Tally t r l ∧ Steady s t
        | some j => Tally t (Function.update r j (r j + 1)) l ∧ j < t.itable.next ∧
            s.itable.next ≤ t.itable.next := by
    intro n
    induction n with
    | zero =>
      intro offset t ht hst
      exact ensures_assert_bind False.elim trivial fun _ ↦ ensures_pure ⟨ht, hst⟩
    | succ n ih =>
      intro offset t ht hst
      refine ensures_gets_bind ?_
      split
      · refine ensures_bind ((still_readEntry i offset).ensures ht) ?_
        rintro _ u ⟨hu, htu⟩
        have hsu := hst.trans _ _ _ htu
        refine ensures_gets_bind (ensures_gets_bind ?_)
        split
        · have hu' := hu.setContents (hsu.next ▸ hi)
            (f := fun x ↦ { x with inum := entryInum u }) rfl rfl
          refine ensures_modify_bind (ensures_gets_bind ?_)
          refine ensures_bind (get_tally hu' _ _) ?_
          rintro j v ⟨hv, hjv, hnv⟩
          exact ensures_pure ⟨hv, hjv, hsu.next ▸ hnv⟩
        · exact ih _ u hu hsu
      · exact ensures_pure ⟨ht, hst⟩
  refine ensures_assert_bind False.elim trivial fun _ ↦ ensures_gets_bind ?_
  exact hloop _ _ s h (.refl s)

/-- `dirLink` gives back the reference that it takes. If it links, it is still. -/
theorem dirLink_tally (h : Tally s r l) (hi : i < s.itable.next) (name : Name) (inum : UInt32) :
    Ensures anywhere.regime (dirLink i name inum) s fun linked t ↦
      Tally t r l ∧ s.itable.next ≤ t.itable.next ∧ (linked = true → Steady s t) := by
  refine ensures_bind (dirLookup_tally h hi name) ?_
  rintro found t ht
  cases found with
  | none =>
    obtain ⟨ht, hst⟩ := ht
    refine ((still_link i name inum).ensures ht).imp ?_
    rintro linked u ⟨hu, htu⟩
    have hsu := hst.trans _ _ _ htu
    exact ⟨hu, hsu.next.ge, fun _ ↦ hsu⟩
  | some j =>
    obtain ⟨ht, hj, hn⟩ := ht
    refine ensures_bind (put_tally ht hj) ?_
    rintro _ u ⟨hu, ho⟩
    rw [Function.update_self, Function.update_idem, UInt32.add_sub_cancel,
      Function.update_eq_self] at hu
    exact ensures_pure ⟨hu, ho.next ▸ hn, fun h ↦ by cases h⟩

end Inode
end Orfos.Fs
