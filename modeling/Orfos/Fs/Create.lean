import Orfos.Fs.Lookup

/-!
# Creating inodes

The locks and references of `Inode::create` (`kernel/fs/inode.cpp`). If the last element of the
path is not in its directory yet, `create` keeps its contract: it returns a new inode, locked and
with one more reference, or leaves all locks and references as they were. If it is there, `create`
never locks what it has found.
-/

namespace Orfos.Fs

open Orfos.Base Orfos.Base.Traced Orfos.Lib

variable {s t : State} {home : Nat → UInt32} {r : Nat → UInt32} {l : Nat → Bool} {i j : Nat}

/-- A new in-memory inode that is not loaded yet. -/
structure Allocated (r : Nat → UInt32) (l : Nat → Bool) (type : UInt16) (j : Nat) (t : State) :
    Prop where
  tally : Tally t (Function.update r j (r j + 1)) l
  inside : Open t ∅
  known : j < t.itable.next
  device : (t.itable.inodes j).device = t.log.device
  invalid : (t.itable.inodes j).valid = false
  type : (dinodeOf t (t.itable.inodes j).inum).type = type

namespace Inode

/-- `get` of a number whose disk inode was free. -/
theorem get_allocated (h : Sound home s r l) {n : UInt32} {type : UInt16}
    (hfree : (dinodeOf s n).type = 0) (hi : t.itable = s.itable)
    (hl : t.log.device = s.log.device) (ho : Open t ∅) (ht : (dinodeOf t n).type = type) :
    Ensures anywhere.regime (get s.log.device n) t fun j u ↦
      Allocated r l type j u ∧ s.itable.next ≤ u.itable.next := by
  have htally : Tally t r l := h.toTally.of_eq hi
  refine ensures_gets_bind ?_
  split
  · next j hj =>
    have hlt := htally.known _ j hj
    rw [hi] at hj hlt
    have hhome : home j = n := (key_inj.mp (h.toNodes.table _ j hj)).2.symm
    have hinv : (s.itable.inodes j).valid = false := by
      by_contra hv
      have := (h.toNodes.valid j hlt (by simpa using hv)).2
      rw [hhome] at this
      exact this hfree
    have hinum := (h.toNodes.invalid j hlt hinv).trans hhome
    have hdev := h.toNodes.device j hlt
    rw [← hi] at hinv hinum hdev hlt
    refine ensures_modify_bind (ensures_pure ⟨⟨htally.setRefs hlt (· + 1), ho.congr rfl rfl, hlt,
      ?_, ?_, ?_⟩, by rw [← hi]; exact le_rfl⟩)
    · simpa [State.setInode, hl] using hdev
    · simpa [State.setInode] using hinv
    · have hview : dinodeOf (t.setInode j fun x ↦ { x with refCount := x.refCount + 1 }) =
          dinodeOf t := dinodeOf_congr (view_congr rfl rfl rfl) rfl
      rw [hview]
      simpa [State.setInode, hinum] using ht
  · refine ensures_gets_bind (ensures_modify_bind (ensures_pure ⟨⟨htally.newInode _ _,
      ho.congr rfl rfl, Nat.lt_succ_self _, ?_, ?_, ?_⟩, ?_⟩))
    · simp [State.newInode, hl]
    · simp [State.newInode]
    · have hview : dinodeOf (t.newInode s.log.device n) = dinodeOf t :=
        dinodeOf_congr (view_congr rfl rfl rfl) rfl
      rw [hview]
      simpa [State.newInode] using ht
    · rw [← hi]
      exact Nat.le_succ _

/-- A disk inode with a new type. -/
theorem type_putU16 (data : Block) (n : UInt32) (type : UInt16) :
    (DiskInode.load (putU16 data (dinodeAt n) type) (dinodeAt n)).type = type := by
  refine getU16_putU16_same data type ?_
  have : n.toNat % 16 < 16 := Nat.mod_lt _ (by decide)
  change 64 * (n.toNat % 16) + 2 ≤ 1024
  omega

/-- The loop of `allocate`. -/
theorem allocateFrom_sound (h : Sound home s r l) (type : UInt16) (n : Nat) (k : UInt32)
    (ht : Reads s t) :
    Ensures anywhere.regime (allocateFrom s.log.device type n k) t fun found u ↦
      match found with
      | none => Reads s u
      | some j => Allocated r l type j u ∧ s.itable.next ≤ u.itable.next := by
  induction n generalizing t k with
  | zero => exact ensures_pure ht
  | succ n ih =>
    have hst := h.reads ht
    have hlog : t.log = s.log := by rw [ht.frame]
    have hit : t.itable = s.itable := by rw [ht.frame]
    refine ensures_gets_bind ?_
    split
    · next hk =>
      rw [← hlog]
      refine held_ensures ht.inside fun bp u hfu hu ↦ ensures_gets_bind ?_
      rw [hu.data]
      split
      · next hfree =>
        have hfree' : (dinodeOf t k).type = 0 := hfree
        have hout : ¬ InLog u.log.start u.log.size (iblock k t.superBlock) := by
          rw [hu.log]
          exact hst.area k hk
        refine change_then_ensures (T := anywhere) False.elim (hu.inside ht.inside) trivial
          (Finset.mem_singleton_self _) hu.ptr hout
          (fun x ↦ putU16 (memset x (dinodeAt k) 0 64) (dinodeAt k) type) fun w hmw hw hvw ↦ ?_
        rw [Finset.erase_singleton] at hw
        have hiw : w.itable = t.itable := by rw [hmw.frame, hfu]
        have hlw : w.log.device = t.log.device := by rw [hmw.frame, hfu]
        have hsw : w.superBlock = t.superBlock := by rw [hmw.frame, hfu]
        have htype : (dinodeOf w k).type = type := by
          rw [dinodeOf, hvw, hsw, Function.update_self]
          exact type_putU16 _ k type
        refine ensures_bind (get_allocated hst hfree' hiw hlw hw htype) ?_
        rintro j x ⟨hx, hn⟩
        exact ensures_pure ⟨hx, hit ▸ hn⟩
      · refine ensures_bind (hu.release ht.inside) ?_
        rintro _ w ⟨hfw, hw, hvw⟩
        rw [hlog]
        refine ih _ (ht.trans ⟨?_, hw, hvw⟩)
        rw [hfw, hfu]
    · exact ensures_pure ht

/-- `allocate` finds a free inode, or has only read. -/
theorem allocate_sound (h : Sound home s r l) (type : UInt16) :
    Ensures anywhere.regime (allocate s.log.device type) s fun found t ↦
      match found with
      | none => Reads s t
      | some j => Allocated r l type j t ∧ s.itable.next ≤ t.itable.next :=
  ensures_gets_bind (allocateFrom_sound h type _ _ h.inside.reads)

/-- `unlock` and `put` of an inode, from any state. -/
theorem leave_tally {β : Type} {l₀ : Nat → Bool} {k : FsM β} {Q : β → State → Prop}
    (h : Tally s r (Function.update l i true)) (hi : i < s.itable.next) (hl : l i = false)
    (h₀ : l₀ i = false) (hr : 1 ≤ r i)
    (hk : ∀ t, Tally t (Function.update r i (r i - 1)) l → Only i s t →
      Sure Room (Rightly l₀) k t Q) :
    Sure Room (Rightly l₀) (do
      unlock i
      put i
      k) s Q := by
  refine sure_bind (unlock_tally h (Function.update_self ..) h₀ hr) ?_
  rintro _ t - rfl
  have ht := h.setLocked hi false
  rw [lock_back hl] at ht
  refine sure_bind ((mute_put i).sure (put_tally ht hi)) ?_
  rintro _ u - ⟨hu, ho⟩
  have ho' := (Only.refl i s).setInode fun x ↦ { x with locked := false }
  exact hk u hu ⟨ho.table.trans ho'.table, ho.next.trans ho'.next,
    fun j hj ↦ (ho.same j hj).trans (ho'.same j hj)⟩

/-- `create` has both inodes locked. -/
structure Both (r : Nat → UInt32) (l : Nat → Bool) (dp ip : Nat) (s : State) : Prop where
  tally : Tally s (Function.update (Function.update r dp (r dp + 1)) ip (r ip + 1))
    (Function.update (Function.update l dp true) ip true)
  parent : dp < s.itable.next
  child : ip < s.itable.next

theorem Both.steady {dp ip : Nat} (h : Both r l dp ip s) (ht : Steady s t) : Both r l dp ip t :=
  ⟨h.tally.steady ht, ht.next ▸ h.parent, ht.next ▸ h.child⟩

section

variable {dp ip : Nat} {type : UInt16}

/-- The failure of `create` gives everything back. -/
theorem createFail_sure (h : Both r l dp ip s) (hb : Bounded r) (hne : ip ≠ dp)
    (hdp : l dp = false) (hip : l ip = false) :
    Sure Room (Rightly l) (createFail dp ip) s fun found t ↦ found = none ∧ Tally t r l := by
  have hset := h.tally.setContents h.child
    (f := fun x ↦ { x with dinode := { x.dinode with numLinks := 0 } }) rfl rfl
  refine sure_modify_bind (sure_bind ((still_update ip).mute.sure
    ((still_update ip).ensures hset)) ?_)
  rintro _ t - ⟨ht, hst⟩
  have hchild : ip < t.itable.next := hst.next ▸ h.child
  have hparent : dp < t.itable.next := hst.next ▸ h.parent
  have hip' : Function.update l dp true ip = false := by rwa [Function.update_of_ne hne]
  refine leave_tally ht hchild hip' hip ?_ fun u hu ho ↦ ?_
  · rw [Function.update_self]
    exact (one_le_succ (hb ip)).1
  have hback : Function.update r dp (r dp + 1) ip = r ip := Function.update_of_ne hne _ _
  rw [Function.update_self, Function.update_idem, UInt32.add_sub_cancel, ← hback,
    Function.update_eq_self] at hu
  refine leave_tally hu (ho.next ▸ hparent) hdp hdp ?_ fun w hw _ ↦ ?_
  · rw [Function.update_self]
    exact (one_le_succ (hb dp)).1
  rw [give_back] at hw
  exact sure_pure ⟨rfl, hw⟩

/-- The new inode is loaded and has its type. -/
def Fine (type : UInt16) (ip : Nat) (s : State) : Prop :=
  (s.itable.inodes ip).valid = true ∧ (s.itable.inodes ip).dinode.type = type

theorem Fine.steady (h : Fine type ip s) (ht : Steady s t) : Fine type ip t :=
  ⟨(ht.same ip).valid.trans h.1, (ht.same ip).type.trans h.2⟩

/-- What `create` returns, from the references and locks it started with. -/
def Created (r : Nat → UInt32) (l : Nat → Bool) (type : UInt16) (found : Option Nat)
    (t : State) : Prop :=
  match found with
  | none => Tally t r l
  | some ip => l ip = false ∧ Tally t (Function.update r ip (r ip + 1))
      (Function.update l ip true) ∧ Fine type ip t

/-- The end of a `create` that succeeds. -/
theorem createEnd_sure (h : Both r l dp ip s) (hf : Fine type ip s) (hb : Bounded r)
    (hne : ip ≠ dp) (hdp : l dp = false) (hip : l ip = false) :
    Sure Room (Rightly l) (do
      unlock dp
      put dp
      pure (some ip)) s fun found t ↦ Created r l type found t := by
  have hlocks : Function.update (Function.update l dp true) ip true =
      Function.update (Function.update l ip true) dp true := Function.update_comm hne.symm _ _ _
  have htally := h.tally
  rw [hlocks] at htally
  have hdp' : Function.update l ip true dp = false := by rwa [Function.update_of_ne hne.symm]
  have hr : Function.update (Function.update r dp (r dp + 1)) ip (r ip + 1) dp = r dp + 1 := by
    rw [Function.update_of_ne hne.symm, Function.update_self]
  refine leave_tally htally h.parent hdp' hdp ?_ fun t ht ho ↦ ?_
  · rw [hr]
    exact (one_le_succ (hb dp)).1
  rw [hr, UInt32.add_sub_cancel, Function.update_comm hne, Function.update_idem,
    Function.update_eq_self] at ht
  have hs := ho.same ip hne
  exact sure_pure ⟨hip, ht, hs.valid.trans hf.1, hs.type.trans hf.2⟩

/-- The new inode is locked, loaded and counted. -/
theorem lock_allocated (h : Allocated (Function.update r dp (r dp + 1))
      (Function.update l dp true) type ip s) (hp : dp < s.itable.next) :
    Ensures anywhere.regime (lock ip) s fun _ t ↦
      ip ≠ dp ∧ l ip = false ∧ Both r l dp ip t ∧ Fine type ip t := by
  refine (lock_ensures h.inside (fun _ ↦ h.device) False.elim).imp ?_
  rintro _ t ⟨hf, -, -, hfree, -, -⟩
  rw [h.tally.locks] at hfree
  have hne : ip ≠ dp := by
    rintro rfl
    rw [Function.update_self] at hfree
    cases hfree
  rw [Function.update_of_ne hne] at hfree
  have hit : t.itable = (s.setInode ip (loaded s)).itable := by rw [hf]
  have hri : (s.itable.inodes ip).refCount = r ip + 1 := by
    have := congrFun h.tally.refs ip
    rwa [Function.update_self, Function.update_of_ne hne] at this
  have htally := (h.tally.setInode h.known (loaded s)).of_eq hit
  rw [show (loaded s (s.itable.inodes ip)).refCount = r ip + 1 from hri,
    Function.update_idem] at htally
  refine ⟨hne, hfree, ⟨htally, ?_, ?_⟩, ?_, ?_⟩
  · rw [hit]; exact hp
  · rw [hit]; exact h.known
  · rw [hit]
    simp [State.setInode, loaded]
  · rw [hit]
    simp only [State.setInode, Function.update_self, loaded, h.invalid, Bool.false_eq_true,
      if_false]
    exact h.type

/-- A link made while both inodes are locked. -/
theorem dirLink_both (h : Both r l dp ip s) (hf : Fine type ip s) (hi : i < s.itable.next)
    (name : Name) (inum : UInt32) :
    Ensures anywhere.regime (dirLink i name inum) s fun linked t ↦
      Both r l dp ip t ∧ s.itable.next ≤ t.itable.next ∧ (linked = true → Fine type ip t) := by
  refine (dirLink_tally h.tally hi name inum).imp ?_
  rintro linked t ⟨ht, hn, hst⟩
  exact ⟨⟨ht, Nat.lt_of_lt_of_le h.parent hn, Nat.lt_of_lt_of_le h.child hn⟩, hn,
    fun hl ↦ hf.steady (hst hl)⟩

/-- The contents of an inode changed and written back. -/
theorem update_both {β : Type} {k : FsM β} {Q : β → State → Prop} (h : Both r l dp ip s)
    (hf : Fine type ip s) (hi : i < s.itable.next) {f : DiskInode → DiskInode}
    (ht : ∀ d, (f d).type = d.type)
    (hk : ∀ t, Both r l dp ip t → Fine type ip t → Sure Room (Rightly l) k t Q) :
    Sure Room (Rightly l) (do
      setDinode i f
      update i
      k) s Q := by
  have hset : Both r l dp ip (s.setInode i fun x ↦ { x with dinode := f x.dinode }) :=
    ⟨h.tally.setContents hi rfl rfl, h.parent, h.child⟩
  have hfine : Fine type ip (s.setInode i fun x ↦ { x with dinode := f x.dinode }) := by
    by_cases hii : ip = i
    · subst hii
      simp only [Fine, State.setInode, Function.update_self, ht]
      exact hf
    · simp only [Fine, State.setInode, Function.update_of_ne hii]
      exact hf
  refine sure_modify_bind (sure_bind ((still_update i).mute.sure
    ((still_update i).ensures hset.tally)) ?_)
  rintro _ t - ⟨-, hst⟩
  exact hk t (hset.steady hst) (hfine.steady hst)

/-- The entries `.` and `..` of a new directory. -/
theorem createDots_sure (h : Both r l dp ip s) (hf : Fine type ip s) :
    Sure Room (Rightly l) (createDots ip type) s fun dots t ↦
      Both r l dp ip t ∧ (dots = true → Fine type ip t) := by
  unfold createDots
  split
  · refine sure_gets_bind (sure_bind ((mute_dirLink ip _ _).sure
      (dirLink_both h hf h.child _ _)) ?_)
    rintro dot t - ⟨ht, -, hft⟩
    split
    · next hdot =>
      refine sure_gets_bind (((mute_dirLink ip _ _).sure
        (dirLink_both ht (hft hdot) ht.child _ _)).imp ?_)
      rintro dots u ⟨hu, -, hfu⟩
      exact ⟨hu, hfu⟩
    · exact sure_pure ⟨ht, fun h ↦ by cases h⟩
  · exact sure_pure ⟨h, fun _ ↦ hf⟩

/-- `create` once the new inode is allocated. -/
theorem createNew_sure (h : Allocated (Function.update r dp (r dp + 1))
      (Function.update l dp true) type ip s) (hp : dp < s.itable.next) (hb : Bounded r)
    (hdp : l dp = false) (name : Name) (major minor : UInt16) :
    Sure Room (Rightly l) (createNew dp ip name type major minor) s
      fun found t ↦ Created r l type found t := by
  unfold createNew
  refine sure_bind ((mute_lock ip).sure (lock_allocated h hp)) ?_
  rintro _ t - ⟨hne, hip, ht, hft⟩
  have hfail : ∀ u, Both r l dp ip u → Sure Room (Rightly l) (createFail dp ip) u
      fun found t ↦ Created r l type found t := by
    intro u hu
    refine (createFail_sure hu hb hne hdp hip).imp ?_
    rintro found w ⟨rfl, hw⟩
    exact hw
  refine update_both ht hft ht.child (fun _ ↦ rfl) fun u hu hfu ↦ ?_
  refine sure_bind (createDots_sure hu hfu) ?_
  rintro dots v - ⟨hv, hfv⟩
  split
  · next hdots =>
    refine sure_gets_bind (sure_bind ((mute_dirLink dp name _).sure
      (dirLink_both hv (hfv hdots) hv.parent name _)) ?_)
    rintro linked w - ⟨hw, -, hfw⟩
    split
    · next hlinked =>
      split
      · exact update_both hw (hfw hlinked) hw.parent (fun _ ↦ rfl) fun x hx hfx ↦
          createEnd_sure hx hfx hb hne hdp hip
      · exact createEnd_sure hw (hfw hlinked) hb hne hdp hip
    · exact hfail w hw
  · exact hfail v hv

end

/-- The first half of `create`: the directory and the name that the path leads to, and what is
found there. -/
def existing (path : List UInt8) : FsM (Option (Nat × Name × Option Nat)) := do
  let r ← openPath path true (literal [])
  match r.1 with
  | none => pure none
  | some dp =>
    lock dp
    let found ← dirLookup dp r.2
    pure (some (dp, r.2, found))

/-- The second half of `create` if something was found. -/
def createFound (dp ip : Nat) (type : UInt16) : FsM (Option Nat) := do
  unlock dp
  put dp
  let t ← gets fun s ↦ (s.itable.inodes ip).dinode.type
  if type = T_FILE ∧ (t = T_FILE ∨ t = T_DEVICE) then pure (some ip)
  else
    unlock ip
    put ip
    pure none

/-- The second half of `create` if nothing was found. -/
def createAbsent (dp : Nat) (name : Name) (type major minor : UInt16) : FsM (Option Nat) := do
  let device ← gets fun s ↦ (s.itable.inodes dp).device
  let new ← allocate device type
  match new with
  | none =>
    unlock dp
    put dp
    pure none
  | some ip => createNew dp ip name type major minor

theorem create_eq (path : List UInt8) (type major minor : UInt16) :
    create path type major minor = existing path >>= fun
      | none => pure none
      | some (dp, _, some ip) => createFound dp ip type
      | some (dp, name, none) => createAbsent dp name type major minor := by
  unfold create existing
  rw [bind_assoc]
  congr 1
  funext r
  cases r.1 with
  | none => rfl
  | some dp =>
    simp only [bind_assoc, pure_bind]
    congr 1
    funext _
    congr 1
    funext found
    cases found <;> rfl

/-- The number of the inode that a path leads to, from a working directory. -/
def named (s : State) (cwd : UInt32) (path : List UInt8) : Option UInt32 :=
  (resolve s cwd path true (literal [])).1.bind fun dp ↦
    listed s (dinodeOf s dp) (resolve s cwd path true (literal [])).2

/-- The first half of `create` does not return: it waits for a lock. -/
def Stuck (path : List UInt8) (s : State) : Prop := ∀ v t, ¬ Runs Room (existing path) s v t

/-- What the callers of `create` rely on. The references and locks of all inodes but the one
returned are as on entry, so the parent directory is unlocked and its reference returned. -/
def Contract (s : State) (type : UInt16) (found : Option Nat) (t : State) : Prop :=
  match found with
  | none => refs t = refs s ∧ locks t = locks s
  | some ip => locks s ip = false ∧ locks t = Function.update (locks s) ip true ∧
      refs t = Function.update (refs s) ip (refs s ip + 1) ∧
      (t.itable.inodes ip).valid = true ∧
      ((t.itable.inodes ip).dinode.type = type ∨ (type = T_FILE ∧
        ((t.itable.inodes ip).dinode.type = T_FILE ∨
          (t.itable.inodes ip).dinode.type = T_DEVICE)))

/-- `create` keeps its contract, and no assertion of `unlock` fails. -/
def Meets (path : List UInt8) (type major minor : UInt16) (s : State) : Prop :=
  Keeps (Rightly (locks s)) (create path type major minor) s (Contract s type)

section

variable {path : List UInt8} {dp ip : Nat} {type major minor : UInt16}

theorem Created.contract {found : Option Nat} (h : Tally s r l) (hc : Created r l type found t) :
    Contract s type found t := by
  unfold Contract
  rw [h.refs, h.locks]
  cases found with
  | none => exact ⟨hc.refs, hc.locks⟩
  | some ip =>
    obtain ⟨hl, ht, hv, htype⟩ := hc
    exact ⟨hl, ht.locks, ht.refs, hv, .inl htype⟩

/-- What the first half of `create` leaves behind. -/
def Sought (r : Nat → UInt32) (l : Nat → Bool) (n : Option UInt32)
    (v : Option (Nat × Name × Option Nat)) (t : State) : Prop :=
  ∃ home, match v with
    | none => n = none ∧ Sound home t r l
    | some (dp, _, none) => n = none ∧ l dp = false ∧ dp < t.itable.next ∧
        Sound home t (Function.update r dp (r dp + 1)) (Function.update l dp true)
    | some (dp, _, some ip) => n ≠ none ∧ l dp = false ∧ dp < t.itable.next ∧
        Sound home t (Function.update (Function.update r dp (r dp + 1)) ip
          (Function.update r dp (r dp + 1) ip + 1)) (Function.update l dp true)

/-- The first half of `create` finds what the path leads to. -/
theorem existing_sure (hs : Sound home s r l) (hb : Bounded r) :
    Sure Room (Rightly l) (existing path) s (Sought r l (named s (home s.cwd) path)) := by
  refine sure_bind (openPath_sound hs hb path true _) ?_
  rintro ⟨found, name⟩ t - ⟨hst, hname, home₁, ht⟩
  cases found with
  | none =>
    obtain ⟨hgoal, ht⟩ := ht
    refine sure_pure ⟨home₁, ?_, ht⟩
    rw [named, hgoal]
    rfl
  | some dp =>
    obtain ⟨hgoal, ht, hdp⟩ := ht
    refine sure_bind ((mute_lock dp).sure (lock_sound ht hdp False.elim)) ?_
    rintro _ u - ⟨hu, hnu, -, hl, hv, htu⟩
    have hdu : dp < u.itable.next := hnu ▸ hdp
    have hsu := hst.trans htu
    have hdinode : (u.itable.inodes dp).dinode = dinodeOf s (home₁ dp) := by
      rw [(hu.toNodes.valid dp hdu hv).1, dinodeOf_congr hsu.view hsu.superBlock]
    have hnamed : named s (home s.cwd) path = listed s (dinodeOf s (home₁ dp)) name := by
      rw [named, hgoal, ← hname]
      rfl
    refine sure_bind ((mute_dirLookup dp name).sure (dirLookup_sound hu hdu hv False.elim name)) ?_
    rw [hdinode, hsu.listed, ← hnamed]
    rintro found w - hw
    cases found with
    | none =>
      obtain ⟨hnone, hw⟩ := hw
      have hdw : dp < w.itable.next := by
        rw [hw.frame]
        exact hdu
      exact sure_pure ⟨home₁, hnone, hl, hdw, hu.reads hw⟩
    | some ip =>
      obtain ⟨home₂, n, hsome, hw⟩ := hw
      have hne : named s (home s.cwd) path ≠ none := by
        rw [hsome]
        exact Option.some_ne_none n
      exact sure_pure ⟨home₂, hne, hl, Nat.lt_of_lt_of_le hdu hw.next, hw.sound⟩

/-- The second half of `create` if nothing was found. -/
theorem createAbsent_sure (h : Sound home s (Function.update r dp (r dp + 1))
      (Function.update l dp true)) (hb : Bounded r) (hdp : dp < s.itable.next)
    (hl : l dp = false) (name : Name) :
    Sure Room (Rightly l) (createAbsent dp name type major minor) s (Created r l type) := by
  refine sure_gets_bind ?_
  rw [h.device dp hdp]
  refine sure_bind ((mute_allocate _ type).sure (allocate_sound h type)) ?_
  rintro new t - ht
  cases new with
  | none =>
    have hdt : dp < t.itable.next := by
      rw [ht.frame]
      exact hdp
    refine leave_sound (h.reads ht) hdt hl ?_ (give_back r dp) fun u hu _ _ ↦ ?_
    · rw [Function.update_self]
      exact (one_le_succ (hb dp)).1
    · exact sure_pure hu.toTally
  | some ip =>
    obtain ⟨ht, hnt⟩ := ht
    exact createNew_sure ht (Nat.lt_of_lt_of_le hdp hnt) hb hl name major minor

/-- The second half of `create` if something was found: it is not locked. -/
theorem createFound_fails {t : State} (hs : Tally s r l) (hb : Bounded r)
    (ht : Sound home t (Function.update (Function.update r dp (r dp + 1)) ip
      (Function.update r dp (r dp + 1) ip + 1)) (Function.update l dp true))
    (hdt : dp < t.itable.next) (hl : l dp = false) :
    ¬ Keeps (Rightly (locks s)) (createFound dp ip type) t (Contract s type) := by
  intro hm
  -- the directory is unlocked and put, and the locks are as on entry again
  have hunlock := unlock_runs (s := t) (i := dp) (by rw [ht.locks, Function.update_self]) (by
    rw [ht.refs, Function.update_apply]
    split
    · next h =>
      subst h
      rw [Function.update_self]
      exact (one_le_succ (hb dp)).2
    · rw [Function.update_self]
      exact (one_le_succ (hb dp)).1)
  have htx := ht.setInode (i := dp) (f := fun x ↦ { x with locked := false }) rfl rfl rfl
    (fun _ ↦ rfl) (ht.toTally.setLocked hdt false)
  replace hm := (hm.of_bind hunlock).of_bind (put_runs htx hdt)
  have hlocks := (htx.toTally.setRefs hdt (· - 1)).locks
  rw [lock_back hl, ← hs.locks] at hlocks
  set y := (t.setInode dp fun x ↦ { x with locked := false }).setInode dp
    fun x ↦ { x with refCount := x.refCount - 1 }
  have hgets : Runs Room (gets fun s ↦ (s.itable.inodes ip).dinode.type) y _ y :=
    ⟨rfl, rfl, fun _ he ↦ by cases he⟩
  replace hm := hm.of_bind hgets
  split at hm
  · -- what was found is returned without its lock
    obtain ⟨hfree, hlocked, -⟩ := hm.2 _ rfl
    change Fs.locks y = _ at hlocked
    rw [hlocks] at hlocked
    have := congrFun hlocked ip
    rw [hfree, Function.update_self] at this
    cases this
  · -- what was found is unlocked without having been locked
    obtain ⟨hlocked, hfree, -⟩ : Rightly (locks s) (.unlock ip) y :=
      hm.1.left.left (.unlock ip, y) (List.mem_singleton.mpr rfl)
    rw [hlocks, hfree] at hlocked
    cases hlocked

/-- `create` keeps its contract exactly if the path does not lead to something that exists, or
waits on the way there. -/
theorem create_meets_iff (hs : Sound home s r l) (hb : Bounded r)
    (hroom : Met Room (create path type major minor) s) :
    Meets path type major minor s ↔ named s (home s.cwd) path = none ∨ Stuck path s := by
  constructor
  · intro hm
    by_contra hor
    obtain ⟨hne, hrun⟩ := not_or.mp hor
    obtain ⟨v, t, hrun⟩ : ∃ v t, Runs Room (existing path) s v t := by
      simpa [Stuck] using hrun
    unfold Meets at hm
    rw [create_eq] at hm
    replace hm := hm.of_bind hrun
    obtain ⟨home', ht⟩ := (existing_sure hs hb).of_runs hrun
    match v, ht with
    | none, ht => exact hne ht.1
    | some (dp, name, none), ht => exact hne ht.1
    | some (dp, name, some ip), ⟨_, hl, hdt, ht⟩ =>
      exact createFound_fails hs.toTally hb ht hdt hl hm
  · intro hor
    have hsure : Sure Room (Rightly l) (create path type major minor) s (Created r l type) := by
      rw [create_eq]
      refine sure_bind (existing_sure hs hb) ?_
      rintro v t hrun ⟨home', ht⟩
      have hnone : named s (home s.cwd) path = none := hor.resolve_right fun h ↦ h v t hrun
      match v, ht with
      | none, ht => exact sure_pure ht.2.toTally
      | some (dp, name, none), ⟨_, hl, hdt, ht⟩ => exact createAbsent_sure ht hb hdt hl name
      | some (dp, name, some ip), ht => exact absurd hnone ht.1
    obtain ⟨hk, hv⟩ := hsure hroom
    unfold Meets
    rw [hs.locks]
    exact ⟨hk, fun found h ↦ (hv found h).contract hs.toTally⟩

end

/-- A disk with a root directory that has the entries `.` and `sh`. -/
def smallDisk (b : UInt32) : Block :=
  if b = 33 then
    let root : DiskInode := ⟨T_DIR, 0, 0, 1, 32, Function.update (fun _ ↦ 0) 0 60, 0⟩
    let sh : DiskInode := ⟨T_FILE, 0, 0, 1, 0, fun _ ↦ 0, 0⟩
    sh.store 128 (root.store 64 Block.zero)
  else if b = 60 then fun k ↦
    if k.val < 16 then [1, 0, 46].getD k.val 0 else [2, 0, 115, 104].getD (k.val - 16) 0
  else Block.zero

/-- The kernel inside a transaction, in a process with the root as its working directory. -/
def small : State :=
  State.newInode { started smallDisk with log := ⟨2, 31, 1, false, 1, []⟩ } 1 1

/-- What is on the small disk. -/
theorem small_inodes : ∀ k : Fin 200,
    33 ≤ iblock (UInt32.ofNat k) small.superBlock ∧
    ((dinodeOf small (UInt32.ofNat k)).type ≠ 0 →
      (dinodeOf small (UInt32.ofNat k)).numLinks ≠ 0) ∧
    ((dinodeOf small (UInt32.ofNat k)).type = T_DIR → k = 1) := by
  decide +kernel

theorem small_stored : Stored small := by
  have hn : ∀ n < small.superBlock.numInodes, ∃ k : Fin 200, n = UInt32.ofNat k := by
    intro n hn
    exact ⟨⟨n.toNat, UInt32.lt_iff_toNat_lt.mp hn⟩, UInt32.ofNat_toNat.symm⟩
  refine ⟨⟨calm_of_empty fun _ ↦ rfl, List.nodup_nil, Nat.zero_le _, by decide, ?_⟩, ?_, ?_, ?_⟩
  · exact fun b hb ↦ by cases hb
  · intro n h
    obtain ⟨k, rfl⟩ := hn n h
    rintro ⟨i, hi, hb⟩
    have hi' : i < 31 := hi
    have hk := (small_inodes k).1
    rw [hb, UInt32.le_iff_toNat_le] at hk
    change 33 ≤ (2 + UInt32.ofNat i).toNat at hk
    rw [UInt32.toNat_add, UInt32.toNat_ofNat'] at hk
    have h2 : (2 : UInt32).toNat = 2 := rfl
    omega
  · intro n h
    obtain ⟨k, rfl⟩ := hn n h
    exact (small_inodes k).2.1
  · intro n h hd
    obtain ⟨k, rfl⟩ := hn n h
    rw [(small_inodes k).2.2 hd]
    exact ⟨by decide +kernel, by decide +kernel, by decide +kernel, by decide +kernel⟩

theorem small_sound :
    Sound (Function.update (fun _ ↦ 1) 0 1) small (Function.update (fun _ ↦ 0) 0 (0 + 1))
      fun _ ↦ false := by
  have hnone : ∀ k, (Table.empty UInt64.toNat : Table UInt64 Nat).lookup k = none :=
    fun _ ↦ rfl
  have htally : Tally { started smallDisk with log := ⟨2, 31, 1, false, 1, []⟩ } (fun _ ↦ 0)
      fun _ ↦ false :=
    ⟨fun _ _ ↦ ⟨rfl, rfl⟩, fun k i h ↦ (by cases (hnone k).symm.trans h), rfl, rfl⟩
  have hnodes : Nodes (fun _ ↦ 1) { started smallDisk with log := ⟨2, 31, 1, false, 1, []⟩ } :=
    ⟨fun k i h ↦ (by cases (hnone k).symm.trans h), fun _ h ↦ (by cases h), fun _ h ↦ (by cases h),
      fun _ h ↦ (by cases h), fun _ h ↦ (by cases h)⟩
  exact ⟨small_stored, nodes_newInode hnodes htally (by decide), htally.newInode 1 1,
    ⟨rfl, by decide⟩, by decide⟩

theorem small_bounded : Bounded (Function.update (fun _ ↦ 0) 0 (0 + 1)) := by
  intro i
  rw [Function.update_apply]
  split <;> decide

/-- A new file `/a`. -/
theorem create_meets_new :
    named small 1 [47, 97] = none ∧ Meets [47, 97] T_FILE 0 0 small := by
  have hnone : named small 1 [47, 97] = none := by decide +kernel
  exact ⟨hnone, (create_meets_iff small_sound small_bounded (by decide +kernel)).mpr (.inl hnone)⟩

/-- `/sh` exists, and `create` unlocks it without having locked it. -/
theorem create_fails_existing : ¬ Meets [47, 115, 104] T_FILE 0 0 small := by
  rintro ⟨hm, -⟩
  have hn : ¬ Met (Rightly (locks small)) (create [47, 115, 104] T_FILE 0 0) small := by
    decide +kernel
  exact hn hm

end Inode
end Orfos.Fs
