import Orfos.Fs.Directory

/-!
# Looking up paths

`home` numbers the in-memory inodes by the numbers under which they were put into the table. The
field `inum` is not that number any more after `dirLookup` has found an entry in a directory, but
a valid inode has the contents of the disk inode at home, and an inode that is not valid yet will be
loaded from there. With this `Inode::open` follows a path without a change of the file system.
-/

namespace Orfos.Fs

open Orfos.Base Orfos.Base.Traced Orfos.Lib

/-- What is known of the in-memory inodes. -/
structure Nodes (home : Nat → UInt32) (s : State) : Prop where
  table : ∀ k i, s.itable.table.lookup k = some i → k = key s.log.device (home i)
  device : ∀ i < s.itable.next, (s.itable.inodes i).device = s.log.device
  range : ∀ i < s.itable.next, home i < s.superBlock.numInodes
  valid : ∀ i < s.itable.next, (s.itable.inodes i).valid = true →
    (s.itable.inodes i).dinode = dinodeOf s (home i) ∧ (dinodeOf s (home i)).type ≠ 0
  invalid : ∀ i < s.itable.next, (s.itable.inodes i).valid = false →
    (s.itable.inodes i).inum = home i

/-- A file system inside a transaction with references `r` and locks `l`. -/
structure Sound (home : Nat → UInt32) (s : State) (r : Nat → UInt32) (l : Nat → Bool) : Prop
    extends Stored s, Nodes home s, Tally s r l where
  root : s.log.device = ROOT_DEVICE ∧ ROOT_INUM < s.superBlock.numInodes
  cwd : s.cwd < s.itable.next

/-- Where the loop of `open` leads from an inode: the inode and the name it ends with. -/
def walk (s : State) (parent : Bool) :
    Nat → UInt32 → List UInt8 → Name → Option UInt32 × Name
  | 0, inum, _, name => (if parent then none else some inum, name)
  | n + 1, inum, path, name =>
    match skipElement path name with
    | none => (if parent then none else some inum, name)
    | some (rest, name) =>
      if (dinodeOf s inum).type ≠ T_DIR then (none, name)
      else if parent = true ∧ rest = [] then (some inum, name)
      else
        match listed s (dinodeOf s inum) name with
        | none => (none, name)
        | some next => walk s parent n next rest name

/-- Where a path leads to from a working directory. -/
def resolve (s : State) (cwd : UInt32) (path : List UInt8) (parent : Bool) (name : Name) :
    Option UInt32 × Name :=
  walk s parent path.length (if path.head? = some 47 then ROOT_INUM else cwd) path name

/-- An in-memory inode once `lock` has returned. -/
def loaded (s : State) (x : Inode) : Inode :=
  { x with
    locked := true
    valid := true
    dinode := if x.valid then x.dinode else dinodeOf s x.inum }

section

variable {p : Prop} {s t : State} {home : Nat → UInt32} {r : Nat → UInt32} {l : Nat → Bool}
  {i : Nat}

namespace Inode

/-- `lock` loads an inode that is not valid, and takes the lock. -/
theorem lock_ensures (hs : Open s ∅)
    (hdev : (s.itable.inodes i).valid = false → (s.itable.inodes i).device = s.log.device)
    (hp : p → locks s i = false ∧ 1 ≤ refs s i ∧
      ((s.itable.inodes i).valid = false → (dinodeOf s (s.itable.inodes i).inum).type ≠ 0)) :
    Ensures (reading p).regime (lock i) s fun _ t ↦
      t = { s.setInode i (loaded s) with cache := t.cache } ∧ Open t ∅ ∧ view t = view s ∧
        locks s i = false ∧ 1 ≤ refs s i ∧
        ((s.itable.inodes i).valid = false → (dinodeOf s (s.itable.inodes i).inum).type ≠ 0) := by
  refine ensures_assert_bind (fun h ↦ (hp h).2.1) trivial fun href ↦ ?_
  refine ensures_assert_bind (fun h ↦ (hp h).1) trivial fun hfree ↦ ?_
  refine ensures_modify_bind (ensures_gets_bind ?_)
  set s₁ := s.setInode i fun x ↦ { x with locked := true } with hs₁
  have hnode : s₁.itable.inodes i = { s.itable.inodes i with locked := true } := by
    simp [hs₁, State.setInode]
  rw [hnode]
  have ho₁ : Open s₁ ∅ := hs.congr rfl rfl
  have hv₁ : view s₁ = view s := view_congr rfl rfl rfl
  split
  · next hinvalid =>
    have hinv : (s.itable.inodes i).valid = false := by simpa using hinvalid
    refine ensures_gets_bind ?_
    change Ensures (reading p).regime (do
      let bp ← BufferCache.get (s.itable.inodes i).device _
      _) s₁ _
    rw [hdev hinv]
    refine held_ensures ho₁ fun bp t hft ht ↦ ensures_modify_bind ?_
    have hload : DiskInode.load (t.cache.buffers bp).data (dinodeAt (s.itable.inodes i).inum) =
        dinodeOf s (s.itable.inodes i).inum := by
      rw [ht.data, hv₁]
      rfl
    dsimp only
    rw [hload]
    have htu : Held s₁ (t.setInode i fun x ↦
        { x with dinode := dinodeOf s (s.itable.inodes i).inum }) _ bp := ht.congr rfl rfl rfl
    refine ensures_bind (htu.release ho₁) ?_
    rintro _ u ⟨hfu, hu, hvu⟩
    refine ensures_modify_bind (ensures_assert (fun h ↦ ?_) trivial fun htype ↦ ?_)
    · have htype := (hp h).2.2 hinv
      rw [hfu]
      simpa [State.setInode] using htype
    refine ⟨?_, hu.congr rfl rfl, (view_congr rfl rfl rfl).trans (hvu.trans hv₁), hfree, href,
      fun _ ↦ ?_⟩
    · rw [hfu, hft]
      simp only [State.setInode, hs₁, Function.update_self, Function.update_idem]
      simp only [loaded, hinv]
      rfl
    · rw [hfu] at htype
      simpa [State.setInode] using htype
  · next hvalid =>
    have hval : (s.itable.inodes i).valid = true := by simpa using hvalid
    refine ensures_pure ⟨?_, ho₁, hv₁, hfree, href, fun h ↦ ?_⟩
    · have hsame : loaded s (s.itable.inodes i) = { s.itable.inodes i with locked := true } := by
        simp only [loaded, hval, if_true]
      rw [hs₁, State.setInode, State.setInode, hsame]
    · rw [hval] at h
      cases h

end Inode

theorem Stored.congr (h : Stored s) (hc : t.cache = s.cache) (hl : t.log = s.log)
    (hd : t.disk = s.disk) (hsb : t.superBlock = s.superBlock) : Stored t :=
  h.of_view (h.inside.congr hc hl) (view_congr hc (by rw [hl]) hd) hsb (by rw [hl]) (by rw [hl])

/-- The in-memory inodes if only the cache and local variables change. -/
theorem Nodes.of_view (h : Nodes home s) (hi : t.itable = s.itable)
    (hl : t.log.device = s.log.device) (hsb : t.superBlock = s.superBlock)
    (hv : view t = view s) : Nodes home t := by
  refine ⟨?_, ?_, ?_, ?_, ?_⟩
  · rw [hi, hl]; exact h.table
  · rw [hi, hl]; exact h.device
  · rw [hi, hsb]; exact h.range
  · rw [hi, dinodeOf_congr hv hsb]; exact h.valid
  · rw [hi]; exact h.invalid

/-- The in-memory inodes if one of them changes in its lock, its references or, if it is valid, its
number. -/
theorem Nodes.setInode (h : Nodes home s) {f : Inode → Inode}
    (hd : (f (s.itable.inodes i)).device = (s.itable.inodes i).device)
    (hv : (f (s.itable.inodes i)).valid = (s.itable.inodes i).valid)
    (hc : (f (s.itable.inodes i)).dinode = (s.itable.inodes i).dinode)
    (hn : (s.itable.inodes i).valid = false →
      (f (s.itable.inodes i)).inum = (s.itable.inodes i).inum) : Nodes home (s.setInode i f) := by
  have hnode : ∀ j, (s.setInode i f).itable.inodes j =
      if j = i then f (s.itable.inodes i) else s.itable.inodes j :=
    fun j ↦ Function.update_apply ..
  have hview : dinodeOf (s.setInode i f) = dinodeOf s :=
    dinodeOf_congr (view_congr rfl rfl rfl) rfl
  refine ⟨h.table, fun j hj ↦ ?_, h.range, fun j hj ↦ ?_, fun j hj ↦ ?_⟩
  · rw [hnode]
    split
    · next hji =>
      subst hji
      exact hd.trans (h.device j hj)
    · exact h.device j hj
  · rw [hnode, hview]
    split
    · next hji =>
      subst hji
      rw [hv, hc]
      exact h.valid j hj
    · exact h.valid j hj
  · rw [hnode]
    split
    · next hji =>
      subst hji
      rw [hv]
      exact fun hinv ↦ (hn hinv).trans (h.invalid j hj hinv)
    · exact h.invalid j hj

theorem Tally.of_eq (h : Tally s r l) (hi : t.itable = s.itable) : Tally t r l :=
  h.steady (.of_eq hi)

theorem Sound.reads (h : Sound home s r l) (hr : Reads s t) : Sound home t r l := by
  have hi : t.itable = s.itable := by rw [hr.frame]
  have hl : t.log = s.log := by rw [hr.frame]
  have hsb : t.superBlock = s.superBlock := by rw [hr.frame]
  have hcwd : t.cwd = s.cwd := by rw [hr.frame]
  refine ⟨hr.stored h.toStored, h.toNodes.of_view hi (by rw [hl]) hsb hr.view,
    h.toTally.of_eq hi, ?_, ?_⟩
  · rw [hl, hsb]; exact h.root
  · rw [hcwd, hi]; exact h.cwd

/-- A sound state after a change of the lock, the references or the number of an inode. -/
theorem Sound.setInode (h : Sound home s r l) {f : Inode → Inode} {r' : Nat → UInt32}
    {l' : Nat → Bool} (hd : (f (s.itable.inodes i)).device = (s.itable.inodes i).device)
    (hv : (f (s.itable.inodes i)).valid = (s.itable.inodes i).valid)
    (hc : (f (s.itable.inodes i)).dinode = (s.itable.inodes i).dinode)
    (hn : (s.itable.inodes i).valid = false →
      (f (s.itable.inodes i)).inum = (s.itable.inodes i).inum)
    (ht : Tally (s.setInode i f) r' l') : Sound home (s.setInode i f) r' l' :=
  ⟨h.toStored.congr rfl rfl rfl rfl, h.toNodes.setInode hd hv hc hn, ht, h.root, h.cwd⟩

theorem Shown.walk (h : Shown s t) (parent : Bool) (n : Nat) (inum : UInt32) (path : List UInt8)
    (name : Name) : walk t parent n inum path name = walk s parent n inum path name := by
  induction n generalizing inum path name with
  | zero => rfl
  | succ n ih => simp only [Fs.walk, dinodeOf_congr h.view h.superBlock, h.listed, ih]

theorem shown_setInode (s : State) (i : Nat) (f : Inode → Inode) : Shown s (s.setInode i f) :=
  ⟨view_congr rfl rfl rfl, rfl, rfl⟩

/-- The directory behind a valid in-memory inode is mapped. -/
theorem Sound.mapped_of_valid (h : Sound home s r l) (hi : i < s.itable.next)
    (hv : (s.itable.inodes i).valid = true) (hd : (s.itable.inodes i).dinode.type = T_DIR) :
    Mapped s (s.itable.inodes i).dinode := by
  obtain ⟨he, -⟩ := h.toNodes.valid i hi hv
  rw [he] at hd ⊢
  exact h.mapped _ (h.range i hi) hd

end

namespace Inode

variable {p : Prop} {s : State} {home : Nat → UInt32} {r : Nat → UInt32} {l : Nat → Bool}
  {i : Nat}

/-- The in-memory inodes after one of them was loaded. -/
theorem nodes_loaded (h : Nodes home s) (hi : i < s.itable.next)
    (ht : (s.itable.inodes i).valid = false → (dinodeOf s (s.itable.inodes i).inum).type ≠ 0) :
    Nodes home (s.setInode i (loaded s)) := by
  have hnode : ∀ j, (s.setInode i (loaded s)).itable.inodes j =
      if j = i then loaded s (s.itable.inodes i) else s.itable.inodes j :=
    fun j ↦ Function.update_apply ..
  have hview : dinodeOf (s.setInode i (loaded s)) = dinodeOf s :=
    dinodeOf_congr (view_congr rfl rfl rfl) rfl
  refine ⟨h.table, fun j hj ↦ ?_, h.range, fun j hj ↦ ?_, fun j hj ↦ ?_⟩
  · rw [hnode]
    split
    · next hji =>
      subst hji
      exact h.device j hj
    · exact h.device j hj
  · rw [hnode, hview]
    split
    · next hji =>
      subst hji
      intro _
      cases hv : (s.itable.inodes j).valid with
      | true => simpa only [loaded, hv, if_true] using h.valid j hj hv
      | false =>
        have hinum := h.invalid j hj hv
        have htype := ht hv
        simp only [loaded, hv, Bool.false_eq_true, if_false]
        rw [hinum] at htype ⊢
        exact ⟨rfl, htype⟩
    · exact h.valid j hj
  · rw [hnode]
    split
    · exact fun hv ↦ by cases hv
    · exact h.invalid j hj

/-- `lock` keeps a sound state. -/
theorem lock_sound (h : Sound home s r l) (hi : i < s.itable.next)
    (hp : p → l i = false ∧ 1 ≤ r i ∧ (dinodeOf s (home i)).type ≠ 0) :
    Ensures (reading p).regime (lock i) s fun _ t ↦
      Sound home t r (Function.update l i true) ∧ t.itable.next = s.itable.next ∧
        t.itable.table = s.itable.table ∧ l i = false ∧ (t.itable.inodes i).valid = true ∧
          Shown s t := by
  have hri : (s.itable.inodes i).refCount = r i := congrFun h.refs i
  have hp' : p → Fs.locks s i = false ∧ 1 ≤ Fs.refs s i ∧ ((s.itable.inodes i).valid = false →
      (dinodeOf s (s.itable.inodes i).inum).type ≠ 0) := by
    intro h'
    obtain ⟨hfree, href, htype⟩ := hp h'
    rw [h.locks, h.refs]
    exact ⟨hfree, href, fun hinv ↦ h.invalid i hi hinv ▸ htype⟩
  refine (lock_ensures h.inside (fun _ ↦ h.device i hi) hp').imp ?_
  rintro _ t ⟨hf, ho, hv, hfree, -, htype⟩
  rw [h.locks] at hfree
  have hit : t.itable = (s.setInode i (loaded s)).itable := by rw [hf]
  have hlog : t.log = s.log := by rw [hf]; rfl
  have hsb : t.superBlock = s.superBlock := by rw [hf]; rfl
  have hcwd : t.cwd = s.cwd := by rw [hf]; rfl
  have htally := h.toTally.setInode hi (loaded s)
  rw [show (loaded s (s.itable.inodes i)).refCount = r i from hri, Function.update_eq_self]
    at htally
  have hnext : t.itable.next = s.itable.next := by rw [hit]; rfl
  refine ⟨⟨?_, ?_, htally.of_eq hit, ?_, ?_⟩, hnext, by rw [hit]; rfl, hfree, ?_, hv, hsb, ?_⟩
  · exact h.toStored.of_view ho hv hsb (by rw [hlog]) (by rw [hlog])
  · refine (nodes_loaded h.toNodes hi htype).of_view hit ?_ hsb ?_
    · rw [hlog]; rfl
    · exact hv.trans (view_congr rfl rfl rfl).symm
  · rw [hlog, hsb]; exact h.root
  · rw [hcwd, hnext]; exact h.cwd
  · rw [hit]
    simp [State.setInode, loaded]
  · rw [hf]
    rfl

/-- Every inode in use has a link, so `put` only gives the reference back. -/
theorem put_runs (h : Sound home s r l) (hi : i < s.itable.next) :
    Runs Room (put i) s () (s.setInode i fun x ↦ { x with refCount := x.refCount - 1 }) := by
  have hkept : ¬ ((s.itable.inodes i).refCount = 1 ∧ (s.itable.inodes i).valid = true ∧
      (s.itable.inodes i).dinode.numLinks = 0) := by
    rintro ⟨-, hv, hn⟩
    obtain ⟨he, ht⟩ := h.toNodes.valid i hi hv
    rw [he] at hn
    exact h.linked _ (h.range i hi) ht hn
  refine runs_bind_iff.mpr ⟨_, s, ⟨rfl, rfl, fun _ he ↦ by cases he⟩, ?_⟩
  rw [if_neg hkept]
  exact ⟨rfl, rfl, fun _ he ↦ by cases he⟩

/-- `put` keeps a sound state. -/
theorem put_sound (h : Sound home s r l) (hi : i < s.itable.next) :
    Ensures (reading p).regime (put i) s fun _ t ↦
      Sound home t (Function.update r i (r i - 1)) l ∧ t.itable.next = s.itable.next ∧
        Shown s t := by
  refine Runs.ensures (R := (reading p).regime) (put_runs h hi) (fun _ ↦ trivial)
    ⟨?_, rfl, shown_setInode s i _⟩
  exact h.setInode rfl rfl rfl (fun _ ↦ rfl) (h.toTally.setRefs hi (· - 1))

/-- The in-memory inodes after a new one was made. -/
theorem nodes_newInode (h : Nodes home s) (ht : Tally s r l) {n : UInt32}
    (hn : n < s.superBlock.numInodes) :
    Nodes (Function.update home s.itable.next n) (s.newInode s.log.device n) := by
  have hnode : ∀ j, (s.newInode s.log.device n).itable.inodes j = if j = s.itable.next then
      ⟨s.log.device, n, 1, false, false, ⟨0, 0, 0, 0, 0, fun _ ↦ 0, 0⟩⟩ else s.itable.inodes j :=
    fun j ↦ Function.update_apply ..
  have hview : dinodeOf (s.newInode s.log.device n) = dinodeOf s :=
    dinodeOf_congr (view_congr rfl rfl rfl) rfl
  have hold : ∀ j, j < s.itable.next + 1 → j ≠ s.itable.next → j < s.itable.next :=
    fun j hj hne ↦ by omega
  refine ⟨fun k j hk ↦ ?_, fun j hj ↦ ?_, fun j hj ↦ ?_, fun j hj ↦ ?_, fun j hj ↦ ?_⟩
  · simp only [State.newInode, Table.lookup_update] at hk
    split at hk
    · next hkey =>
      obtain ⟨_, -, rfl⟩ := Option.map_eq_some_iff.mp hk
      rw [hkey, Function.update_self]
      rfl
    · next hkey =>
      have hk' := Table.lookup_of_lookup_touch hkey hk
      rw [Function.update_of_ne (ht.known k j hk').ne]
      exact h.table k j hk'
  · rw [hnode]
    split
    · rfl
    · next hne => exact h.device j (hold j hj hne)
  · rw [Function.update_apply]
    split
    · exact hn
    · next hne => exact h.range j (hold j hj hne)
  · rw [hnode, hview, Function.update_apply]
    split
    · exact fun hv ↦ by cases hv
    · next hne => exact h.valid j (hold j hj hne)
  · rw [hnode, Function.update_apply]
    split
    · exact fun _ ↦ rfl
    · next hne => exact h.invalid j (hold j hj hne)

/-- On the way from `s` to `t` a reference to the inode with number `n` was taken. -/
structure Got (home : Nat → UInt32) (r : Nat → UInt32) (l : Nat → Bool) (s : State) (n : UInt32)
    (j : Nat) (t : State) : Prop where
  sound : Sound home t (Function.update r j (r j + 1)) l
  known : j < t.itable.next
  next : s.itable.next ≤ t.itable.next
  number : home j = n
  shown : Shown s t
  registered : t.itable.table.lookup (key s.log.device n) = some j

/-- `get` keeps a sound state. -/
theorem get_sound (h : Sound home s r l) {n : UInt32} (hn : n < s.superBlock.numInodes) :
    Ensures (reading p).regime (get s.log.device n) s fun j t ↦
      ∃ home', Got home' r l s n j t := by
  refine ensures_gets_bind ?_
  split
  · next j hj =>
    have hlt := h.known _ j hj
    refine ensures_modify_bind (ensures_pure ⟨home, ?_, hlt, le_rfl, ?_, shown_setInode s j _,
      hj⟩)
    · exact h.setInode rfl rfl rfl (fun _ ↦ rfl) (h.toTally.setRefs hlt (· + 1))
    · exact (key_inj.mp (h.toNodes.table _ j hj)).2.symm
  · refine ensures_gets_bind (ensures_modify_bind (ensures_pure
      ⟨Function.update home s.itable.next n, ?_, ?_, ?_, ?_, ⟨view_congr rfl rfl rfl, rfl, rfl⟩,
        ?_⟩))
    · exact ⟨h.toStored.congr rfl rfl rfl rfl, nodes_newInode h.toNodes h.toTally hn,
        h.toTally.newInode _ _, h.root, Nat.lt_succ_of_lt h.cwd⟩
    · exact Nat.lt_succ_self _
    · exact Nat.le_succ _
    · exact Function.update_self ..
    · simp only [State.newInode, Table.lookup_update, if_pos, Table.lookup_touch_self]
      rfl

/-- The offset of the next entry does not wrap around. -/
private theorem next_entry {offset : UInt32} {k size : Nat} (hk : offset.toNat = ENTRY_SIZE * k)
    (hlt : ENTRY_SIZE * k < size) (hd : size ≤ NUM_DIRECT_BLOCKS * BLOCK_SIZE) :
    (offset + UInt32.ofNat ENTRY_SIZE).toNat = ENTRY_SIZE * (k + 1) := by
  have hk' : offset.toNat = 16 * k := hk
  have hlt' : 16 * k < size := hlt
  have hd' : size ≤ 12288 := hd
  rw [UInt32.toNat_add]
  change (offset.toNat + 16) % 4294967296 = 16 * (k + 1)
  omega

/-- No entry is left once the offset is behind all of them. -/
private theorem all_read {k size : Nat} (hw : size % ENTRY_SIZE = 0)
    (hk : size / ENTRY_SIZE < k) : ¬ ENTRY_SIZE * k < size := by
  have hw' : size % 16 = 0 := hw
  have hk' : size / 16 < k := hk
  change ¬ 16 * k < size
  omega

/-- What `dirLookup` finds is what the directory lists. -/
def Looked (r : Nat → UInt32) (l : Nat → Bool) (s : State) (n : Option UInt32)
    (found : Option Nat) (t : State) : Prop :=
  match found with
  | none => n = none ∧ Reads s t
  | some j => ∃ home m, n = some m ∧ Got home r l s m j t

/-- `dirLookup` in a valid directory keeps a sound state. If it finds nothing, it has only read. -/
theorem dirLookup_sound (h : Sound home s r l) (hi : i < s.itable.next)
    (hv : (s.itable.inodes i).valid = true)
    (hp : p → (s.itable.inodes i).dinode.type = T_DIR) (name : Name) :
    Ensures (reading p).regime (dirLookup i name) s
      (Looked r l s (listed s (s.itable.inodes i).dinode name)) := by
  refine ensures_assert_bind hp trivial fun hdir ↦ ensures_gets_bind ?_
  have hm := h.mapped_of_valid hi hv hdir
  set d := (s.itable.inodes i).dinode with hd
  -- the loop before entry `k`, from any state before a round
  have hloop : ∀ n k offset t, Reads s t → offset.toNat = ENTRY_SIZE * k →
      d.size.toNat / ENTRY_SIZE < n + k →
      listed s d name = listedFrom s d name (d.size.toNat / ENTRY_SIZE - k) k →
      Ensures (reading p).regime (dirLookupFrom i name n offset) t
        (Looked r l s (listed s d name)) := by
    intro n
    induction n with
    | zero =>
      intro k offset t ht hk hn hrest
      have hdt : (t.itable.inodes i).dinode = d := by rw [ht.frame]
      have hend : ¬ offset < (t.itable.inodes i).dinode.size := by
        rw [hdt, UInt32.lt_iff_toNat_lt, hk]
        exact all_read hm.whole (by omega)
      refine ensures_assert_bind (fun _ ↦ hend) trivial fun _ ↦ ensures_pure ⟨?_, ht⟩
      rw [hdt, UInt32.lt_iff_toNat_lt, hk] at hend
      exact hrest.trans (listedFrom_end hend name)
    | succ n ih =>
      intro k offset t ht hk hn hrest
      have hst := h.reads ht
      have hit : t.itable = s.itable := by rw [ht.frame]
      have hdt : (t.itable.inodes i).dinode = d := by rw [hit]
      refine ensures_gets_bind ?_
      rw [hdt]
      split
      · next hlt =>
        have hmt : Mapped t (t.itable.inodes i).dinode := by
          refine hst.mapped_of_valid ?_ ?_ ?_ <;> rw [hit] <;> assumption
        have hz : offset.toNat % ENTRY_SIZE = 0 := by
          rw [hk]
          exact Nat.mul_mod_right _ _
        refine ensures_bind (readEntry_ensures ht.inside (hst.device i (hit ▸ hi)) hmt
          (hdt ▸ hlt) hz) ?_
        rintro _ u ⟨hru, hbytes⟩
        rw [hdt, hk, ht.shown.entryAt] at hbytes
        rw [UInt32.lt_iff_toNat_lt, hk] at hlt
        obtain ⟨hlast, hstep⟩ := listedFrom_step (s := s) hm.whole hlt name
        rw [hstep] at hrest
        have hru' := ht.trans hru
        have hsu := h.reads hru'
        have hiu : u.itable = s.itable := by rw [hru'.frame]
        refine ensures_gets_bind (ensures_gets_bind ?_)
        rw [entryInum_eq, entryName, hbytes, hru'.shown.overrun]
        split
        · next hname =>
          have hname' : Names s name (entryAt s d (ENTRY_SIZE * k)) := hname
          rw [if_pos hname'] at hrest
          have hnum := hm.entries k hlast
          have hiu' : i < u.itable.next := hiu ▸ hi
          set f : Inode → Inode := fun x ↦ { x with inum := inumOf (entryAt s d (ENTRY_SIZE * k)) }
          have hset := hsu.setInode (i := i) (f := f) rfl rfl
            rfl (fun hinv ↦ by rw [hiu, hv] at hinv; cases hinv)
            (hsu.toTally.setContents hiu' rfl rfl)
          refine ensures_modify_bind (ensures_gets_bind ?_)
          have hdev : ((u.setInode i f).itable.inodes i).device = (u.setInode i f).log.device :=
            hset.device i hiu'
          rw [hdev]
          have hnum' : inumOf (entryAt s d (ENTRY_SIZE * k)) <
              (u.setInode i f).superBlock.numInodes := by
            rw [(shown_setInode u i f).superBlock, hru'.shown.superBlock]
            exact hnum
          refine ensures_bind (get_sound hset hnum') ?_
          rintro j w ⟨home', hw⟩
          refine ensures_pure ⟨home', _, hrest, hw.sound, hw.known, ?_, hw.number, ?_, ?_⟩
          · rw [← hiu]
            exact hw.next
          · exact (hru'.shown.trans (shown_setInode u i f)).trans hw.shown
          · have hdevice : (u.setInode i f).log.device = s.log.device := by
              rw [show (u.setInode i f).log = u.log from rfl, hru'.frame]
            rw [← hdevice]
            exact hw.registered
        · next hname =>
          have hname' : ¬ Names s name (entryAt s d (ENTRY_SIZE * k)) := hname
          rw [if_neg hname'] at hrest
          refine ih (k + 1) _ u hru' ?_ (by omega) hrest
          exact next_entry hk hlt hm.direct
      · next hend =>
        rw [UInt32.lt_iff_toNat_lt, hk] at hend
        exact ensures_pure ⟨hrest.trans (listedFrom_end hend name), ht⟩
  exact hloop _ 0 _ s h.inside.reads rfl (by omega) rfl

end Inode

/-- `unlock` is called on inodes only that the caller holds: they are locked and were not when it
started with the locks `l`, and they have a reference. -/
def Rightly (l : Nat → Bool) : Call → State → Prop
  | .unlock i, t => locks t i = true ∧ l i = false ∧ 1 ≤ refs t i
  | _, _ => True

instance (l : Nat → Bool) (c : Call) (t : State) : Decidable (Rightly l c t) :=
  match c with
  | .unlock _ => inferInstanceAs (Decidable (_ ∧ _ ∧ _))
  | .get _ _ => isTrue trivial
  | .diskWrite _ => isTrue trivial
  | .writeLog _ => isTrue trivial

section

variable {s : State} {home : Nat → UInt32} {r : Nat → UInt32} {l : Nat → Bool} {i j : Nat}
  {α : Type} {m : FsM α} {Q : α → State → Prop}

/-- A function without `unlock`. -/
theorem Mute.sure (hm : Mute m) (h : Ensures anywhere.regime m s Q) :
    Sure Room (Rightly l) m s Q := by
  refine Ensures.sure (R := anywhere.regime) h fun e he ↦ ?_
  obtain ⟨c, t⟩ := e
  have hc : c.Silent := (hm s).2 _ he
  cases c with
  | get device block => trivial
  | diskWrite block => trivial
  | writeLog block => trivial
  | unlock i => exact hc.elim

/-- No reference count is about to wrap around. -/
def Bounded (r : Nat → UInt32) : Prop := ∀ i, (r i).toNat + 4 < 2 ^ 32

theorem one_le_succ {x : UInt32} (h : x.toNat + 4 < 2 ^ 32) : 1 ≤ x + 1 ∧ 1 ≤ x + 1 + 1 := by
  have h1 : (1 : UInt32).toNat = 1 := rfl
  simp only [UInt32.le_iff_toNat_le, UInt32.toNat_add, h1]
  omega

/-- The reference that is left while another one is held. -/
theorem Bounded.one_le {r : Nat → UInt32} (hb : Bounded r) (i j : Nat) :
    1 ≤ Function.update (Function.update r i (r i + 1)) j
      (Function.update r i (r i + 1) j + 1) i := by
  by_cases hij : i = j
  · subst hij
    rw [Function.update_self, Function.update_self]
    exact (one_le_succ (hb i)).2
  · rw [Function.update_of_ne hij, Function.update_self]
    exact (one_le_succ (hb i)).1

/-- A reference taken and given back. -/
theorem give_back (r : Nat → UInt32) (i : Nat) :
    Function.update (Function.update r i (r i + 1)) i
      (Function.update r i (r i + 1) i - 1) = r := by
  rw [Function.update_self, Function.update_idem, UInt32.add_sub_cancel, Function.update_eq_self]

/-- A reference exchanged for another one. -/
theorem exchange (r : Nat → UInt32) (i j : Nat) :
    Function.update (Function.update (Function.update r i (r i + 1)) j
        (Function.update r i (r i + 1) j + 1)) i
      (Function.update (Function.update r i (r i + 1)) j
        (Function.update r i (r i + 1) j + 1) i - 1) = Function.update r j (r j + 1) := by
  by_cases hij : i = j
  · subst hij
    simp only [Function.update_self, Function.update_idem, UInt32.add_sub_cancel]
  · rw [Function.update_of_ne hij, Function.update_self, UInt32.add_sub_cancel,
      Function.update_of_ne (Ne.symm hij), Function.update_comm (Ne.symm hij),
      Function.update_idem, Function.update_eq_self]

namespace Inode

/-- `unlock` of a locked inode returns. -/
theorem unlock_runs (hl : locks s i = true) (hr : 1 ≤ refs s i) :
    Runs Room (unlock i) s () (s.setInode i fun x ↦ { x with locked := false }) := by
  refine runs_bind_iff.mpr ⟨(), s, ⟨rfl, rfl, ?_⟩, runs_bind_iff.mpr ⟨(), s, ⟨?_, rfl, ?_⟩,
    runs_bind_iff.mpr ⟨(), s, ⟨?_, rfl, ?_⟩, rfl, rfl, ?_⟩⟩⟩
  · exact fun e he ↦ List.mem_singleton.mp he ▸ trivial
  · exact if_pos hl
  · exact fun e he ↦ by cases he
  · exact if_pos hr
  · exact fun e he ↦ by cases he
  · exact fun e he ↦ by cases he

/-- `unlock` of an inode that the caller holds. -/
theorem unlock_tally (h : Tally s r l) {l₀ : Nat → Bool} (hl : l i = true) (h₀ : l₀ i = false)
    (hr : 1 ≤ r i) :
    Sure Room (Rightly l₀) (unlock i) s fun _ t ↦
      t = s.setInode i fun x ↦ { x with locked := false } := by
  have hcall : Rightly l₀ (.unlock i) s := ⟨h.locks ▸ hl, h₀, h.refs ▸ hr⟩
  refine sure_bind (sure_call (Q := fun _ t ↦ t = s) hcall rfl) ?_
  rintro _ _ - rfl
  refine Mute.sure (mute_assert_bind fun _ ↦ mute_assert_bind fun _ ↦ mute_modify _) ?_
  exact ensures_assert_bind False.elim trivial fun _ ↦
    ensures_assert_bind False.elim trivial fun _ ↦ ensures_modify rfl

/-- `unlock` of an inode that the caller holds keeps a sound state. -/
theorem unlock_sound (h : Sound home s r l) {l₀ : Nat → Bool} (hi : i < s.itable.next)
    (hl : l i = true) (h₀ : l₀ i = false) (hr : 1 ≤ r i) :
    Sure Room (Rightly l₀) (unlock i) s fun _ t ↦
      Sound home t r (Function.update l i false) ∧ t.itable.next = s.itable.next ∧
        Shown s t := by
  refine (unlock_tally h.toTally hl h₀ hr).imp ?_
  rintro _ t rfl
  exact ⟨h.setInode rfl rfl rfl (fun _ ↦ rfl) (h.toTally.setLocked hi false), rfl,
    shown_setInode s i _⟩

/-- `unlock` and `put` of an inode. -/
theorem leave_sound {β : Type} {r' : Nat → UInt32} {k : FsM β} {Q : β → State → Prop}
    (h : Sound home s r (Function.update l i true)) (hi : i < s.itable.next) (hl : l i = false)
    (hr : 1 ≤ r i) (hr' : Function.update r i (r i - 1) = r')
    (hk : ∀ t, Sound home t r' l → t.itable.next = s.itable.next → Shown s t →
      Sure Room (Rightly l) k t Q) :
    Sure Room (Rightly l) (do
      unlock i
      put i
      k) s Q := by
  refine sure_bind (unlock_sound h hi (Function.update_self ..) hl hr) ?_
  rintro _ t - ⟨ht, hn, hst⟩
  refine sure_bind ((mute_put i).sure (put_sound ht (hn ▸ hi))) ?_
  rintro _ u - ⟨hu, hnu, htu⟩
  rw [hr', lock_back hl] at hu
  exact hk u hu (hnu.trans hn) (hst.trans htu)

/-- What `open` leaves behind: a reference to what it returns, which is where the path leads. -/
def Opened (r : Nat → UInt32) (l : Nat → Bool) (s : State) (goal : Option UInt32 × Name)
    (found : Option Nat × Name) (t : State) : Prop :=
  Shown s t ∧ found.2 = goal.2 ∧ ∃ home, match found.1 with
    | none => goal.1 = none ∧ Sound home t r l
    | some ip => goal.1 = some (home ip) ∧ Sound home t (Function.update r ip (r ip + 1)) l ∧
        ip < t.itable.next

/-- The code of `open` behind its loop. -/
theorem openEnd_sound (parent : Bool) (name : Name)
    (h : Sound home s (Function.update r i (r i + 1)) l) (hi : i < s.itable.next) :
    Sure Room (Rightly l) (do
      if parent then
        put i
        pure (none, name)
      else pure (some i, name)) s
        (Opened r l s (if parent then none else some (home i), name)) := by
  split
  · refine sure_bind ((mute_put i).sure (put_sound h hi)) ?_
    rintro _ t - ⟨ht, -, hst⟩
    rw [give_back] at ht
    exact sure_pure ⟨hst, rfl, home, rfl, ht⟩
  · exact sure_pure ⟨.refl s, rfl, home, rfl, h, hi⟩

/-- The loop of `open`. -/
theorem openFrom_sound (hb : Bounded r) (parent : Bool) (n : Nat) (path : List UInt8)
    (name : Name) (h : Sound home s (Function.update r i (r i + 1)) l) (hi : i < s.itable.next) :
    Sure Room (Rightly l) (openFrom parent n i path name) s
      (Opened r l s (walk s parent n (home i) path name)) := by
  induction n generalizing s home i path name with
  | zero => exact openEnd_sound parent name h hi
  | succ n ih =>
    unfold openFrom walk
    cases skipElement path name with
    | none => exact openEnd_sound parent name h hi
    | some p =>
      obtain ⟨rest, name'⟩ := p
      dsimp only
      have hone : 1 ≤ Function.update r i (r i + 1) i := by
        rw [Function.update_self]
        exact (one_le_succ (hb i)).1
      refine sure_bind ((mute_lock i).sure (lock_sound h hi False.elim)) ?_
      rintro _ t - ⟨ht, hnt, -, hl, hv, hst⟩
      have hit : i < t.itable.next := hnt ▸ hi
      have hdinode : (t.itable.inodes i).dinode = dinodeOf s (home i) := by
        rw [(ht.toNodes.valid i hit hv).1, dinodeOf_congr hst.view hst.superBlock]
      refine sure_gets_bind ?_
      rw [hdinode]
      split
      · exact leave_sound ht hit hl hone (give_back r i) fun u hu _ htu ↦
          sure_pure ⟨hst.trans htu, rfl, home, rfl, hu⟩
      · split
        · refine sure_bind (unlock_sound ht hit (Function.update_self ..) hl hone) ?_
          rintro _ u - ⟨hu, hnu, htu⟩
          rw [lock_back hl] at hu
          exact sure_pure ⟨hst.trans htu, rfl, home, rfl, hu, hnu ▸ hit⟩
        · refine sure_bind ((mute_dirLookup i name').sure (dirLookup_sound ht hit hv False.elim name')) ?_
          rw [hdinode, hst.listed]
          rintro found u - hu
          cases found with
          | none =>
            obtain ⟨hnone, hu⟩ := hu
            have hiu : i < u.itable.next := by
              rw [hu.frame]
              exact hit
            rw [hnone]
            exact leave_sound (ht.reads hu) hiu hl hone (give_back r i) fun w hw _ huw ↦
              sure_pure ⟨(hst.trans hu.shown).trans huw, rfl, home, rfl, hw⟩
          | some j =>
            obtain ⟨home', m, hsome, hu⟩ := hu
            rw [hsome]
            refine leave_sound hu.sound (Nat.lt_of_lt_of_le hit hu.next) hl (hb.one_le i j)
              (exchange r i j) fun w hw hnw huw ↦ ?_
            have hsw := (hst.trans hu.shown).trans huw
            refine (ih rest name' hw (hnw ▸ hu.known)).imp ?_
            rw [hu.number, hsw.walk]
            exact fun x y hxy ↦ ⟨hsw.trans hxy.1, hxy.2⟩

/-- `open` returns what the path leads to, and keeps a sound state. -/
theorem openPath_sound (h : Sound home s r l) (hb : Bounded r) (path : List UInt8) (parent : Bool)
    (name : Name) :
    Sure Room (Rightly l) (openPath path parent name) s
      (Opened r l s (resolve s (home s.cwd) path parent name)) := by
  unfold openPath resolve
  split
  · obtain ⟨hdev, hroot⟩ := h.root
    rw [← hdev]
    refine sure_bind ((mute_get _ _).sure (get_sound h hroot)) ?_
    rintro j t - ⟨home', ht⟩
    refine (openFrom_sound hb parent _ path name ht.sound ht.known).imp ?_
    rw [ht.number, ht.shown.walk]
    exact fun x y hxy ↦ ⟨ht.shown.trans hxy.1, hxy.2⟩
  · refine sure_gets_bind ?_
    have hdup : Ensures anywhere.regime (dup s.cwd) s fun j t ↦ j = s.cwd ∧
        Sound home t (Function.update r j (r j + 1)) l ∧ j < t.itable.next ∧ Shown s t :=
      ensures_modify_bind (ensures_pure ⟨rfl, h.setInode rfl rfl rfl (fun _ ↦ rfl)
        (h.toTally.setRefs h.cwd (· + 1)), h.cwd, shown_setInode s _ _⟩)
    refine sure_bind ((mute_dup _).sure hdup) ?_
    rintro j t - ⟨rfl, ht, hj, hst⟩
    refine (openFrom_sound hb parent _ path name ht hj).imp ?_
    rw [hst.walk]
    exact fun x y hxy ↦ ⟨hst.trans hxy.1, hxy.2⟩

end Inode
end

end Orfos.Fs
