import Orfos.Fs.Direct

/-!
# Writing files

`Inode::write` in the direct blocks of a file. It puts its bytes into the blocks of the file, and
allocates blocks where there are none. It returns as long as the log has room for two blocks for
every block of its range and one more.
-/

namespace Orfos.Fs

open Orfos.Base Orfos.Base.Traced Orfos.Lib

/-- From `s` to `t` a function that works on an inode has changed its disk inode at most, and the
cache and the header of the log. -/
def During (s : State) (i : Nat) (t : State) : Prop :=
  t = { s with
    cache := t.cache
    log := { s.log with header := t.log.header }
    itable := (s.setInode i fun x ↦ { x with dinode := (t.itable.inodes i).dinode }).itable }

/-- How many blocks a range of `n` bytes lies in. -/
def rounds (o n : Nat) : Nat :=
  if n = 0 then 0 else (o + n - 1) / BLOCK_SIZE + 1 - o / BLOCK_SIZE

/-- All blocks are marked. -/
def Crowded (s : State) : Prop := ∀ b < s.superBlock.size, marked s b = true

/-- What programs that have to return need to log `n` blocks, some of them new. -/
structure Affords (s : State) (n : Nat) : Prop where
  room : s.log.RoomFor n
  wrap : s.superBlock.size.toNat + BITS_PER_BLOCK < 2 ^ 32

section

variable {T : Terms} {s t u : State} {i o k e : Nat} {f : Nat → UInt8} {b : UInt32}

theorem During.inodes (h : During s i t) : t.itable.inodes i =
    { s.itable.inodes i with dinode := (t.itable.inodes i).dinode } := by
  have hnode := congrArg (fun u : State ↦ u.itable.inodes i) h
  simpa only [State.setInode, Function.update_self] using hnode

theorem During.trans (h : During s i t) (h' : During t i u) : During s i u := by
  unfold During at *
  rw [h', h]
  simp only [State.setInode, Function.update_self, Function.update_idem]

theorem Records.during (h : Records s t) (i : Nat) : During s i t := by
  have hitable : t.itable = s.itable := by
    rw [h]
  have hsame : (s.setInode i fun x ↦
      { x with dinode := (t.itable.inodes i).dinode }).itable = s.itable := by
    rw [hitable]
    exact congrArg State.itable (setInode_same rfl)
  unfold During
  rw [hsame]
  exact h

theorem During.setting (h : During s i t) : Setting s t := by
  refine ⟨?_, ?_, ?_, ?_, ?_, ?_, ?_⟩ <;> rw [h]

theorem During.disk (h : During s i t) : t.disk = s.disk := by rw [h]

theorem During.outstanding (h : During s i t) : t.log.outstanding = s.log.outstanding := by rw [h]

theorem during_setDinode (s : State) (i : Nat) (g : DiskInode → DiskInode) :
    During s i (s.setInode i fun x ↦ { x with dinode := g x.dinode }) := by
  unfold During
  simp only [State.setInode, Function.update_self]

/-- A range that begins in a block, and what is behind that block. -/
theorem rounds_succ {n : Nat} (o : Nat) (hn : 0 < n) :
    rounds o n = rounds (o + min n (BLOCK_SIZE - o % BLOCK_SIZE))
      (n - min n (BLOCK_SIZE - o % BLOCK_SIZE)) + 1 := by
  unfold rounds
  rw [if_neg hn.ne']
  change (o + n - 1) / 1024 + 1 - o / 1024 =
    (if n - min n (1024 - o % 1024) = 0 then 0 else
      (o + min n (1024 - o % 1024) + (n - min n (1024 - o % 1024)) - 1) / 1024 + 1 -
        (o + min n (1024 - o % 1024)) / 1024) + 1
  split <;> omega

theorem Affords.mono {m n : Nat} (h : Affords s n) (hm : m ≤ n) : Affords s m :=
  ⟨h.room.mono hm, h.wrap⟩

/-- What is left when some of the blocks are logged. -/
theorem Affords.after {m n : Nat} (h : Affords s (n + m)) (hd : During s i t)
    (hl : t.log.header.length ≤ s.log.header.length + m) : Affords t n := by
  obtain ⟨⟨hfits, hroom, hbegun⟩, hwrap⟩ := h
  have hset := hd.setting
  refine ⟨⟨by omega, ?_, by rwa [hd.outstanding]⟩, by rwa [hset.superBlock]⟩
  rw [hset.size]
  omega

/-! ### Blocks for a file -/

/-- How far a log has grown with a block for a file. -/
theorem logs_of_allocates {a : UInt32}
    (h : (a = 0 ∧ Idle s ∅ t ∧ ∀ c < s.superBlock.size, Fs.marked s c = true) ∨ Granted s ∅ a t) :
    t.log = s.log ∨ a ∈ t.log.header ∧ t.log.header.length ≤ s.log.header.length + 2 := by
  obtain ⟨-, hidle, -⟩ | ha := h
  · exact .inl (by rw [hidle.frame])
  · have hfirst := s.log.length_logged_le (bblock a s.superBlock)
    have hsecond := (s.log.logged (bblock a s.superBlock)).length_logged_le a
    refine .inr ⟨?_, ?_⟩ <;> rw [ha.log]
    · exact Log.mem_logged _ _
    · omega

/-- A block that `allocateBlock` has found becomes a block of the file. -/
theorem Direct.place {a : UInt32} {j : Fin NUM_DIRECT_BLOCKS} (hs : Direct s i)
    (hj : directs s i j = 0) (hr : Records s t)
    (ha : (a = 0 ∧ Idle s ∅ t ∧ ∀ c < s.superBlock.size, Fs.marked s c = true) ∨ Granted s ∅ a t)
    (f : Nat → UInt8) (o : Nat) (u : State)
    (hu : u = t.setInode i fun x ↦ { x with dinode :=
      { x.dinode with directBlocks := Function.update x.dinode.directBlocks j a } }) :
    During s i u ∧ Wrote s i f o 0 0 u ∧ Open u ∅ ∧
      (u.itable.inodes i).dinode.size = (s.itable.inodes i).dinode.size ∧ directs u i j = a ∧
        (a = 0 → Crowded u) := by
  have h := hs.inside.taken hs.layout hs.guarded ha
  have hlog := hs.mem_of_allocates ha
  have ht : Open t ∅ := by
    obtain ⟨-, hreads⟩ | ⟨-, -, -, ht, -⟩ := h
    · exact hreads.inside
    · exact ht
  have hitable : t.itable = s.itable := by
    rw [hr]
  have hdirects : directs u i = Function.update (directs s i) j a := by
    rw [directs, directs, ← hitable, hu]
    simp only [State.setInode, Function.update_self]
  have hnode : u.itable.inodes i = { s.itable.inodes i with dinode :=
      { (s.itable.inodes i).dinode with directBlocks := directs u i } } := by
    rw [hdirects, directs, ← hitable, hu]
    simp only [State.setInode, Function.update_self]
  have hduring : During s i u := (hr.during i).trans (hu ▸ during_setDinode t i fun d ↦
    { d with directBlocks := Function.update d.directBlocks j a })
  have hset := hduring.setting
  have hview : view u = view t := view_congr (hu ▸ rfl) (hu ▸ rfl) (hu ▸ rfl)
  have hmarked : ∀ b, marked u b = marked t b := fun b ↦ by
    rw [marked, marked, hview, hu]
    rfl
  have hself : directs u i j = a := by
    rw [hdirects, Function.update_self]
  have hcrowded : a = 0 → Crowded u := by
    rintro rfl b hb
    rw [hset.superBlock] at hb
    obtain ⟨-, hidle, hall⟩ | ha := ha
    · rw [hmarked, ← hall b hb, marked, marked, hidle.view, hidle.frame]
    · have hdata := hs.guarded 0 ha.lt ha.free
      rw [dataStart] at hdata
      exact absurd hdata (Nat.not_succ_le_zero _)
  refine ⟨hduring, ?_, ht.congr (hu ▸ rfl) (hu ▸ rfl), by rw [hnode], hself, hcrowded⟩
  by_cases hzero : a = 0
  · -- no block was found, and nothing has changed
    have hkept : directs u i = directs s i := by
      rw [hdirects, hzero, ← hj, Function.update_eq_self]
    obtain ⟨-, hreads⟩ | ⟨hlt, hfree, -⟩ := h
    · have hsame : u.log = s.log := by
        rw [hu, ← show t.log = s.log by rw [hreads.frame]]
        rfl
      refine hs.unwritten hset (by rw [hnode]) (by rw [hnode])
        ⟨(s.itable.inodes i).dinode.size, ?_⟩ (by rw [hview, hreads.view])
        (hsame ▸ List.Subset.refl _) f o
      rw [hnode, hkept]
      rfl
    · subst hzero
      have hdata := hs.guarded 0 hlt hfree
      rw [dataStart] at hdata
      exact absurd hdata (Nat.not_succ_le_zero _)
  · obtain ⟨hlt, hfree, -, -, hmarks, hleft⟩ := h.spec hs.layout hs.guarded hzero
    have hne : ∀ b, InUse s b → b ≠ a := by
      rintro b hb rfl
      rw [hb.marked] at hfree
      cases hfree
    have hheader : u.log.header = t.log.header := by
      rw [hu]
      rfl
    have hkeep : ∀ b, InUse s b → view u b = view s b := fun b hb ↦ by
      rw [hview, hleft b (.inr hb.data) (hne b hb)]
    have hother : ∀ l, l ≠ j → directs u i l = directs s i l := fun l hl ↦ by
      rw [hdirects, Function.update_of_ne hl]
    refine ⟨hset, by rw [hnode], by rw [hnode], ⟨_, by rw [hnode]⟩, fun l m hlm hl ↦ ?_,
      fun l hl ↦ hother l fun he ↦ hl (he ▸ hj), fun l hl hl' ↦ ?_, fun b hb ↦ ?_,
      fun _ _ _ hlow hhigh ↦ by omega, fun l q _ hl _ ↦ by rw [hkeep _ (hs.owned l hl)],
      fun b hb _ ↦ hkeep b hb, fun m hm _ ↦ ?_, fun b hb huse ↦ .inl (hlog b (hheader ▸ hb) huse)⟩
    · by_cases hlj : l = j
      · by_cases hmj : m = j
        · rw [hlj, hmj]
        · rw [hlj, hself, hother m hmj] at hlm
          exact absurd hlm.symm (hne _ (hs.owned m (hlm ▸ hzero)))
      · by_cases hmj : m = j
        · rw [hmj, hself, hother l hlj] at hlm
          rw [hother l hlj] at hl
          exact absurd hlm (hne _ (hs.owned l hl))
        · rw [hother l hlj, hother m hmj] at hlm
          exact hs.once l m hlm (hother l hlj ▸ hl)
    · by_cases hlj : l = j
      · rw [hlj, hself]
        exact ⟨hlt, hfree⟩
      · rw [hother l hlj] at hl'
        exact absurd hl hl'
    · rw [hmarked, hmarks b hb, Bool.or_eq_true, decide_eq_true_eq]
      refine or_congr_right' fun hm ↦ ⟨?_, ?_⟩
      · rintro rfl
        exact ⟨hzero, j, hself⟩
      · rintro ⟨hb0, l, hl⟩
        by_cases hlj : l = j
        · rw [← hl, hlj, hself]
        · rw [hother l hlj] at hl
          exact absurd (hl ▸ (hs.owned l (hl ▸ hb0)).marked) hm
    · have hblock := (hs.layout.iblock_toNat hm).2
      have hdata := hs.guarded a hlt hfree
      have horder := hs.layout.order
      rw [dinodeOf, dinodeOf, hview, hset.superBlock, hleft _ (.inl hblock)]
      intro he
      rw [he] at hblock
      omega

namespace Inode

/-- `bmap` of a direct block gives a block to the file if it has none there. -/
theorem bmap_places (hT : T.total → Affords s 2) (hc : T.crash s.disk) (hs : Direct s i)
    {bn : UInt32} (hbn : bn.toNat < NUM_DIRECT_BLOCKS) (f : Nat → UInt8) (o : Nat) :
    Ensures T.regime (bmap i bn) s fun a t ↦
      During s i t ∧ Wrote s i f o 0 0 t ∧ Open t ∅ ∧
        (t.itable.inodes i).dinode.size = (s.itable.inodes i).dinode.size ∧
          a = directs t i ⟨bn.toNat, hbn⟩ ∧ (a = 0 → Crowded t) ∧
            (t.log = s.log ∨
              a ∈ t.log.header ∧ t.log.header.length ≤ s.log.header.length + 2) := by
  unfold bmap bmapDirect
  rw [dif_pos hbn]
  refine ensures_gets_bind ?_
  dsimp only
  split
  · next hzero =>
    rw [hs.device]
    have hready := allocateBlock_ready (fun ht ↦ ⟨(hT ht).room, rfl, (hT ht).wrap⟩) hc
      hs.inside.calm
    refine ensures_bind hready ?_
    rintro a t hat
    have hr : Records s t := by
      obtain ⟨-, hidle, -⟩ | ⟨-, hr⟩ := hat
      · unfold Records
        rw [hidle.frame]
      · exact hr
    have ha := hat.imp_right And.left
    have hlogs := logs_of_allocates ha
    refine ensures_modify_bind (ensures_gets ?_)
    obtain ⟨hduring, hw, hopen, hsize, hself, hcrowded⟩ :=
      hs.place (j := ⟨bn.toNat, hbn⟩) hzero hr ha f o _ rfl
    refine ⟨hduring, hw, hopen, hsize, rfl, ?_⟩
    change (directs _ i ⟨bn.toNat, hbn⟩ = 0 → _) ∧ (_ ∨ directs _ i ⟨bn.toNat, hbn⟩ ∈ _ ∧ _)
    rw [hself]
    exact ⟨hcrowded, hlogs⟩
  · next hne =>
    exact ensures_gets ⟨(Records.refl s).during i,
      hs.unwritten (.refl s) rfl rfl ⟨_, rfl⟩ rfl (List.Subset.refl _) f o, hs.inside, rfl, rfl,
        fun hzero ↦ absurd hzero hne, .inl rfl⟩

end Inode

/-! ### Bytes for a block -/

/-- The function `f` has the bytes of memory from an address on. -/
def Gives (s : State) (userSrc : Bool) (src : UInt64) (f : Nat → UInt8) : Prop :=
  ∀ x b, s.sourceByte userSrc (src + UInt64.ofNat x) = some b → f x = b

/-- The bytes of memory behind some of them. -/
theorem Gives.after {userSrc : Bool} {src : UInt64} (h : Gives s userSrc src f) (hset : Setting s t)
    (m : Nat) : Gives t userSrc (src + UInt64.ofNat m) fun x ↦ f (m + x) := by
  intro x b hb
  rw [hset.sourceByte, UInt64.add_assoc, ← UInt64.ofNat_add] at hb
  exact h (m + x) b hb

/-- A program after a change of the state. -/
theorem ensures_of_modify {α : Type} {R : Regime State Call} {g : State → State} {m : FsM α}
    {Q : α → State → Prop} (h : Ensures R (modify g >>= fun _ ↦ m) s Q) : Ensures R m (g s) Q := h

/-- A round of `write` copies bytes to a block of the file and logs it. Where the copy is broken
off, a block that is in the log keeps the bytes until then. -/
theorem Inode.copy_ensures {α : Type} {rest broken : FsM α} {Q : α → State → Prop} {userSrc : Bool}
    {j : Fin NUM_DIRECT_BLOCKS} {q len : Nat} {src : UInt64} (hT : T.total → Affords s 1)
    (hc : T.crash s.disk) (hs : Direct s i) (hj : directs s i j ≠ 0) (hpos : 0 < len)
    (hq : q + len ≤ BLOCK_SIZE) (hf : Gives s userSrc src f)
    (hrest : ∀ t, Records s t → Wrote s i f (BLOCK_SIZE * j.val + q) len len t → Open t ∅ →
      t.log = s.log.logged (directs s i j) →
      (∀ x < len, (s.sourceByte userSrc (src + UInt64.ofNat x)).isSome) →
      Ensures T.regime rest t Q)
    (hbroken : ∀ t e, e ≤ len → (e = 0 ∨ directs s i j ∈ t.log.header) → Records s t →
      Wrote s i f (BLOCK_SIZE * j.val + q) 0 e t → Open t ∅ → t.log = s.log →
      (∃ x < len, s.sourceByte userSrc (src + UInt64.ofNat x) = none) →
      Ensures T.regime broken t Q) :
    Ensures T.regime (do
      let bp ← BufferCache.get s.log.device (directs s i j)
      Buffer.read bp
      let copied ← eitherCopyin bp q userSrc src len
      if copied then
        writeLog bp
        BufferCache.release bp
        rest
      else
        BufferCache.release bp
        broken) s Q := by
  have hout : ¬ InLog s.log.start s.log.size (directs s i j) := by
    have horder := hs.layout.order
    have hdata := (hs.owned j hj).data
    exact hs.layout.notMem_log (by omega)
  refine hold_ensures hs.inside.calm hc (fun _ ↦ Finset.notMem_empty _)
    fun bp t hn hlt hp ht hv ↦ ?_
  have hlog : t.log = s.log := by rw [hlt.frame]
  have hdt : t.disk = s.disk := hlt.records.disk
  refine ensures_bind (eitherCopyin_copies bp q src len) ?_
  rintro copied u ⟨m, hm, hall, hfail, g, hg, rfl⟩
  have hset := (hlt.records.during i).setting
  have hsource : ∀ x < m, s.sourceByte userSrc (src + UInt64.ofNat x) = some (g x) := fun x hx ↦ by
    rw [← hg x hx, hset.sourceByte]
  refine ensures_of_modify (s := t) (g := fun v ↦ v.setBuffer bp fun x ↦
    { x with data := putBytes x.data q m g }) ?_
  cases copied with
  | true =>
    obtain rfl := hall rfl
    refine store_log_then_ready (Log.RoomFor.logsAt 0 fun htot ↦ ?_) (by rwa [hlog])
      (T.crash_of_eq hc hdt) (Finset.mem_insert_self _ _) hp (fun data ↦ putBytes data q m g)
      fun u hmu hlu hroom hu hvu ↦ ?_
    · rw [hlog]
      exact (hT htot).room
    rw [hlog] at hlu hroom
    rw [Finset.erase_insert hn] at hu
    rw [hv] at hvu
    have hrecords := hlt.records.trans hmu.records
    have hlists : u.log.Lists := hlu ▸ hs.inside.lists.logged hroom hout
    have hnode : u.itable.inodes i = s.itable.inodes i := by
      rw [hrecords]
    refine hrest u hrecords (hs.store hj hq (hrecords.during i).setting hnode hvu (fun b hb ↦ ?_)
      (.inr ⟨rfl, fun x hx ↦ hf x _ (hsource x hx)⟩)) (hlists.toOpen hu) hlu fun x hx ↦ ?_
    · rw [hlu] at hb
      exact (Log.mem_of_logged hb).imp_right fun he ↦ ⟨hpos, he⟩
    · exact Option.isSome_of_eq_some (hsource x hx)
  | false =>
    obtain ⟨hmlen, hnone⟩ := hfail rfl
    rw [hset.sourceByte] at hnone
    refine ensures_bind (store_ensures ht (Finset.mem_insert_self _ _) hp
      fun data ↦ putBytes data q m g) ?_
    rintro _ u ⟨hlu, hpu, hu, hvu⟩
    have hdu : u.disk = s.disk := hlu.records.disk.trans hdt
    refine ensures_bind (release_view_ensures hu (T.crash_of_eq hc hdu)
      (Finset.mem_insert_self _ _) hpu) ?_
    rintro _ w ⟨hlw, hw, hvw⟩
    have hlocal := (hlt.trans hlu).trans hlw
    have hrecords := hlocal.records
    have hnode : w.itable.inodes i = s.itable.inodes i := by
      rw [hrecords]
    have hlogw : w.log = s.log := by rw [hlocal.frame]
    rw [Finset.erase_insert hn] at hw
    have hopen : Open w ∅ := hs.inside.of_local hlocal hw
    rw [hv] at hvu
    by_cases hpin : directs s i j ∈ s.log.header.toFinset
    · rw [if_pos hpin, hvu] at hvw
      refine hbroken w m hm (.inr ?_) hrecords (hs.store hj (by omega)
        (hrecords.during i).setting hnode hvw (fun b hb ↦ .inl (hlogw ▸ hb)) (.inl rfl)) hopen hlogw
        ⟨m, hmlen, hnone⟩
      rw [hlogw]
      exact List.mem_toFinset.mp hpin
    · -- the buffer is dropped with what was copied
      have hback : view w = view s := by
        rw [hvw, if_neg hpin, hvu, Function.update_idem, hdu]
        exact Function.update_eq_iff.mpr
          ⟨(hs.inside.calm.view_eq_disk hpin (Finset.notMem_empty _)).symm, fun _ _ ↦ rfl⟩
      exact hbroken w 0 (Nat.zero_le _) (.inl rfl) hrecords
        (hs.unwritten (hrecords.during i).setting (by rw [hnode]) (by rw [hnode])
          ⟨_, by rw [hnode]⟩ hback (hlogw ▸ List.Subset.refl _) f _) hopen hlogw ⟨m, hmlen, hnone⟩

/-! ### The loop -/

/-- A copy to a block of the file that was broken off: the block was new, or in the log before. -/
def Torn (s : State) (i o k e : Nat) : Prop :=
  k < e ∧ ∃ j : Fin NUM_DIRECT_BLOCKS, BLOCK_SIZE * j.val ≤ o + k ∧
    o + e ≤ BLOCK_SIZE * (j.val + 1) ∧ (k ≠ 0 → o + k = BLOCK_SIZE * j.val) ∧
      (directs s i j = 0 ∨ directs s i j ∈ s.log.header)

/-- What the loop of `write` leaves behind from any of its rounds on: it has written `k` bytes of
`rem`, and may have broken off a copy of more. The log has grown by at most `g` blocks. -/
structure Loop (s : State) (i : Nat) (userSrc : Bool) (f : Nat → UInt8) (src : UInt64)
    (o rem k e g : Nat) (t : State) : Prop where
  le : k ≤ rem
  during : During s i t
  wrote : Wrote s i f o k e t
  inside : Open t ∅
  mapped : ∀ x < k, (s.sourceByte userSrc (src + UInt64.ofNat x)).isSome
  broken : e = k ∨ k < rem ∧ Torn s i o k e
  short : k < rem → Crowded t ∨
    ∃ x, k ≤ x ∧ x < rem ∧ s.sourceByte userSrc (src + UInt64.ofNat x) = none
  logs : t.log.header.length ≤ s.log.header.length + g

/-- A round that ends the loop without a byte. -/
theorem Loop.none {userSrc : Bool} {src : UInt64} {offset tot : UInt32} {rem g : Nat}
    (hd : During s i t)
    (hz : (t.itable.inodes i).dinode.size = (s.itable.inodes i).dinode.size)
    (hw : Wrote s i f offset.toNat 0 0 t) (ht : Open t ∅) (hshort : 0 < rem → Crowded t)
    (hl : t.log.header.length ≤ s.log.header.length + g) : ∃ k e,
      (offset, tot) = (offset + UInt32.ofNat k, tot + UInt32.ofNat k) ∧
        (t.itable.inodes i).dinode.size = (s.itable.inodes i).dinode.size ∧
          Loop s i userSrc f src offset.toNat rem k e g t :=
  ⟨0, 0, by simp, hz, Nat.zero_le _, hd, hw, ht, fun x hx ↦ absurd hx (Nat.not_lt_zero x), .inl rfl,
    fun h ↦ .inl (hshort h), hl⟩

/-- The rounds behind a round, which begin with a block. -/
theorem Loop.after {userSrc : Bool} {src : UInt64} {m rem g : Nat} (hs : Direct s i)
    (hd : During s i t) (hw : Wrote s i f o m m t) (hbound : 0 < rem → BLOCK_SIZE ∣ o + m)
    (hmapped : ∀ x < m, (s.sourceByte userSrc (src + UInt64.ofNat x)).isSome)
    (hlogs : t.log.header.length ≤ s.log.header.length + 2)
    (h : Loop t i userSrc (fun x ↦ f (m + x)) (src + UInt64.ofNat m) (o + m) rem k e g u) :
    Loop s i userSrc f src o (m + rem) (m + k) (m + e) (g + 2) u := by
  refine ⟨Nat.add_le_add_left h.le m, hd.trans h.during,
    hw.trans h.wrote (fun _ _ ↦ rfl) rfl (by omega), h.inside, fun x hx ↦ ?_, ?_, fun hlt ↦ ?_, ?_⟩
  · by_cases hxm : x < m
    · exact hmapped x hxm
    · have hlater := h.mapped (x - m) (by omega)
      rwa [hd.setting.sourceByte, UInt64.add_assoc, ← UInt64.ofNat_add,
        Nat.add_sub_cancel' (Nat.le_of_not_lt hxm)] at hlater
  · obtain he | ⟨hrem, hlt, j, hlow, hhigh, hstart, hlog⟩ := h.broken
    · exact .inl (congrArg (m + ·) he)
    have hbegin : o + m + k = BLOCK_SIZE * j.val := by
      by_cases hk : k = 0
      · obtain ⟨c, hc⟩ := hbound (by omega)
        change 1024 * j.val ≤ o + m + k at hlow
        change o + m + e ≤ 1024 * (j.val + 1) at hhigh
        change o + m = 1024 * c at hc
        change o + m + k = 1024 * j.val
        omega
      · exact hstart hk
    refine .inr ⟨by omega, by omega, j, by omega, by omega, fun _ ↦ by omega, ?_⟩
    by_cases hzero : directs s i j = 0
    · exact .inl hzero
    · -- the block is not one of those that the first round has logged
      rw [hw.kept j hzero] at hlog
      refine .inr ?_
      obtain hold | ⟨l, p, hl, -, hp, hpl⟩ :=
        hw.logged _ (hlog.resolve_left hzero) (hs.owned j hzero)
      · exact hold
      · obtain rfl := hs.once l j hl (hl ▸ hzero)
        have hmul := Nat.div_mul_le_self p BLOCK_SIZE
        rw [hpl, Nat.mul_comm] at hmul
        omega
  · refine (h.short (by omega)).imp_right ?_
    rintro ⟨x, hkx, hx, hnone⟩
    rw [hd.setting.sourceByte, UInt64.add_assoc, ← UInt64.ofNat_add] at hnone
    exact ⟨m + x, by omega, by omega, hnone⟩
  · have hrest := h.logs
    omega

/-- The loop of `write` in the direct blocks of a file. -/
theorem Inode.writeFrom_writes {userSrc : Bool} {n : Nat} {src : UInt64}
    {length offset tot : UInt32}
    (hT : T.total → Affords s (2 * rounds offset.toNat (length.toNat - tot.toNat) + 1))
    (hc : T.crash s.disk) (hs : Direct s i) (htot : tot ≤ length)
    (hn : length.toNat - tot.toNat ≤ n)
    (hend : offset.toNat + (length.toNat - tot.toNat) ≤ NUM_DIRECT_BLOCKS * BLOCK_SIZE)
    (hf : Gives s userSrc src f) :
    Ensures T.regime (writeFrom i userSrc length n src offset tot) s fun r t ↦ ∃ k e,
      r = (offset + UInt32.ofNat k, tot + UInt32.ofNat k) ∧
        (t.itable.inodes i).dinode.size = (s.itable.inodes i).dinode.size ∧
          Loop s i userSrc f src offset.toNat (length.toNat - tot.toNat) k e
            (2 * rounds offset.toNat (length.toNat - tot.toNat)) t := by
  induction n generalizing s src offset tot f with
  | zero =>
    exact ensures_pure (Loop.none ((Records.refl s).during i) rfl
      (hs.unwritten (.refl s) rfl rfl ⟨_, rfl⟩ rfl (List.Subset.refl _) f _) hs.inside
      (fun hpos ↦ by omega) (Nat.le_add_right _ _))
  | succ n ih =>
    have hend' : offset.toNat + (length.toNat - tot.toNat) ≤ 12288 := hend
    have hlen := length.toNat_lt
    unfold writeFrom
    split
    · next hlt =>
      have hlt' := UInt32.lt_iff_toNat_lt.mp hlt
      have hmore : 0 < length.toNat - tot.toNat := Nat.sub_pos_of_lt hlt'
      have hrounds := rounds_succ offset.toNat hmore
      have hdiv : (offset / UInt32.ofNat BLOCK_SIZE).toNat = offset.toNat / 1024 := by
        rw [UInt32.toNat_div]
        rfl
      have hbn : (offset / UInt32.ofNat BLOCK_SIZE).toNat < NUM_DIRECT_BLOCKS := by
        rw [hdiv]
        change offset.toNat / 1024 < 12
        omega
      refine ensures_bind (bmap_places (fun ht ↦ (hT ht).mono (by omega)) hc hs hbn f
        offset.toNat) ?_
      rintro a t ⟨hdt, hwt, ht, hzt, rfl, hcrowded, hlt⟩
      have hst := hwt.direct hs ht
      split
      · next hzero =>
        refine ensures_pure (Loop.none hdt hzt hwt ht (fun _ ↦ hcrowded hzero) ?_)
        obtain he | ⟨-, hle⟩ := hlt
        · rw [he]
          exact Nat.le_add_right _ _
        · omega
      · next hne =>
        refine ensures_gets_bind ?_
        rw [hst.device]
        have hrem : (length - tot).toNat = length.toNat - tot.toNat :=
          UInt32.toNat_sub_of_le _ _ htot
        have hplace : BLOCK_SIZE * (offset / UInt32.ofNat BLOCK_SIZE).toNat +
            offset.toNat % BLOCK_SIZE = offset.toNat := by
          rw [hdiv]
          exact Nat.div_add_mod _ _
        have hft : Gives t userSrc src f := fun x b hb ↦
          hf x b (by rwa [hdt.setting.sourceByte] at hb)
        have hq : offset.toNat % BLOCK_SIZE +
            min (length - tot).toNat (BLOCK_SIZE - offset.toNat % BLOCK_SIZE) ≤ BLOCK_SIZE := by
          change offset.toNat % 1024 + min _ (1024 - offset.toNat % 1024) ≤ 1024
          omega
        have hpos : 0 < min (length - tot).toNat (BLOCK_SIZE - offset.toNat % BLOCK_SIZE) := by
          change 0 < min _ (1024 - offset.toNat % 1024)
          omega
        dsimp only
        have hsize : BLOCK_SIZE = 1024 := rfl
        have hsizes : ∀ u, Records t u →
            (u.itable.inodes i).dinode.size = (s.itable.inodes i).dinode.size := fun u hu ↦ by
          rw [← hzt, hu]
        -- a block that is new is in the log already
        have hgrown : ∀ u : State, u.log = t.log.logged
            (directs t i ⟨(offset / UInt32.ofNat BLOCK_SIZE).toNat, hbn⟩) →
            u.log.header.length ≤ s.log.header.length + 2 := fun u hu ↦ by
          rw [hu]
          obtain he | ⟨hmem, hle⟩ := hlt
          · rw [he]
            exact (Log.length_logged_le _ _).trans (Nat.le_succ _)
          · rwa [Log.logged, if_pos hmem]
        refine copy_ensures (fun htot ↦ ?_) (T.crash_of_eq hc hdt.disk) hst hne hpos hq hft
          (fun u hru hwu hu hlu hmu ↦ ?_) (fun u e he hlog hru hwu hu hlu hnone ↦ ?_)
        · refine ((hT htot).mono (by omega : 1 + 2 ≤ _)).after hdt ?_
          obtain he | ⟨-, hle⟩ := hlt
          · rw [he]
            exact Nat.le_add_right _ _
          · exact hle
        · rw [hplace] at hwu
          obtain ⟨m, hm⟩ : ∃ m, m = min (length - tot).toNat
            (BLOCK_SIZE - offset.toNat % BLOCK_SIZE) := ⟨_, rfl⟩
          rw [← hrem, ← hm, hrem] at hrounds
          rw [← hm] at hwu hmu ⊢
          rw [hrem, hsize] at hm
          have hm32 : (UInt32.ofNat m).toNat = m := by
            rw [UInt32.toNat_ofNat']
            exact Nat.mod_eq_of_lt (by omega)
          have hoff : (offset + UInt32.ofNat m).toNat = offset.toNat + m := by
            rw [UInt32.toNat_add, hm32]
            exact Nat.mod_eq_of_lt (by omega)
          have hnext : (tot + UInt32.ofNat m).toNat = tot.toNat + m := by
            rw [UInt32.toNat_add, hm32]
            exact Nat.mod_eq_of_lt (by omega)
          have hleft : length.toNat - (tot.toNat + m) = length.toNat - tot.toNat - m :=
            Nat.sub_add_eq _ _ _
          have hwm : Wrote s i f offset.toNat m m u :=
            hwt.trans hwu (fun x _ ↦ by rw [Nat.zero_add]) (by omega) (by omega)
          have hdm := hdt.trans (hru.during i)
          have hbound : 0 < length.toNat - (tot.toNat + m) → BLOCK_SIZE ∣ offset.toNat + m := by
            intro hmore
            refine ⟨offset.toNat / 1024 + 1, ?_⟩
            change _ = 1024 * _
            omega
          refine (ih (fun htot ↦ ?_) (T.crash_of_eq hc hdm.disk) (hwm.direct hs hu) ?_ ?_ ?_
            (hf.after hdm.setting m)).imp ?_
          · rw [hoff, hnext, hleft]
            refine ((hT htot).mono (by omega : 2 * rounds (offset.toNat + m)
              (length.toNat - tot.toNat - m) + 1 + 2 ≤ _)).after hdm (hgrown u hlu)
          · rw [UInt32.le_iff_toNat_le, hnext]
            omega
          · rw [hnext]
            omega
          · rw [hoff, hnext]
            change _ ≤ 12288
            omega
          · rintro r v ⟨k, e, rfl, hzv, hloop⟩
            rw [hoff, hnext, hleft] at hloop
            refine ⟨m + k, m + e, ?_, hzv.trans (hsizes u hru), ?_⟩
            · rw [UInt32.ofNat_add, UInt32.add_assoc, UInt32.add_assoc]
            · have hall : m + (length.toNat - tot.toNat - m) = length.toNat - tot.toNat := by
                omega
              have hafter := Loop.after hs hdm hwm (hleft ▸ hbound) (fun x hx ↦ ?_) (hgrown u hlu)
                hloop
              · rw [hall] at hafter
                rw [hrounds]
                exact hafter
              · rw [← hdt.setting.sourceByte]
                exact hmu x hx
        · rw [hplace] at hwu
          have hwe : Wrote s i f offset.toNat 0 e u :=
            hwt.trans hwu (fun x _ ↦ by rw [Nat.zero_add]) rfl (by omega)
          have hlogs : u.log.header.length ≤
              s.log.header.length + 2 * rounds offset.toNat (length.toNat - tot.toNat) := by
            rw [hlu]
            obtain he | ⟨-, hle⟩ := hlt
            · rw [he]
              exact Nat.le_add_right _ _
            · omega
          refine ensures_pure ⟨0, e, by simp, hsizes u hru, Nat.zero_le _,
            hdt.trans (hru.during i), hwe, hu, fun x hx ↦ absurd hx (Nat.not_lt_zero x), ?_, fun _ ↦ ?_, hlogs⟩
          swap
          · obtain ⟨x, hx, hx'⟩ := hnone
            rw [hdt.setting.sourceByte] at hx'
            refine .inr ⟨x, Nat.zero_le _, ?_, hx'⟩
            rw [← hrem]
            exact hx.trans_le (min_le_left _ _)
          obtain rfl | hepos := Nat.eq_zero_or_pos e
          · exact .inl rfl
          · refine .inr ⟨hmore, hepos, ⟨_, hbn⟩, ?_, ?_, fun hk ↦ absurd rfl hk, ?_⟩
            · rw [Nat.add_zero]
              exact (Nat.le_add_right _ _).trans_eq hplace
            · change e ≤ min _ (1024 - offset.toNat % 1024) at he
              change offset.toNat + e ≤ 1024 * ((offset / UInt32.ofNat BLOCK_SIZE).toNat + 1)
              rw [hdiv]
              omega
            · by_cases hzero : directs s i ⟨(offset / UInt32.ofNat BLOCK_SIZE).toNat, hbn⟩ = 0
              · exact .inl hzero
              · refine .inr ?_
                have hmem := hlog.resolve_left hepos.ne'
                rw [hwt.kept _ hzero] at hmem
                obtain hold | ⟨-, p, -, hlow, hhigh, -⟩ := hwe.logged _ hmem (hs.owned _ hzero)
                · exact hold
                · omega
    · next hge =>
      rw [UInt32.lt_iff_toNat_lt] at hge
      exact ensures_pure (Loop.none ((Records.refl s).during i) rfl
        (hs.unwritten (.refl s) rfl rfl ⟨_, rfl⟩ rfl (List.Subset.refl _) f _) hs.inside
        (fun hpos ↦ by omega) (Nat.le_add_right _ _))


/-! ### Writes -/

/-- What `write` has done: nothing, if the offset is behind the end of the file, and otherwise it
has written `k` bytes. It has logged at most `g` blocks. -/
def Wrotes (s : State) (i : Nat) (userSrc : Bool) (f : Nat → UInt8) (src : UInt64)
    (offset length : UInt32) (res : Int32) (t : State) : Prop :=
  (s.itable.inodes i).dinode.size < offset ∧ res = -1 ∧ t = s ∨
    offset ≤ (s.itable.inodes i).dinode.size ∧ ∃ k e, res = (UInt32.ofNat k).toInt32 ∧
      Loop s i userSrc f src offset.toNat length.toNat k e
        (2 * rounds offset.toNat length.toNat + 1) t ∧ Saved s i f offset.toNat k e t

/-- The end of `write` stores the inode with its size. -/
theorem Loop.update {userSrc : Bool} {src : UInt64} {rem g : Nat} {z : UInt32}
    (hT : T.total → Affords s (g + 1)) (hc : T.crash s.disk) (hs : Direct s i)
    (h : Loop s i userSrc f src o rem k e g t)
    (hz : z.toNat = max (s.itable.inodes i).dinode.size.toNat (o + k)) :
    Ensures T.regime (Inode.update i)
      (t.setInode i fun x ↦ { x with dinode := { x.dinode with size := z } }) fun _ u ↦
        Loop s i userSrc f src o rem k e (g + 1) u ∧ Saved s i f o k e u := by
  have ht := h.wrote.direct hs h.inside
  set v := t.setInode i fun x ↦ { x with dinode := { x.dinode with size := z } } with hv
  have hnode : v.itable.inodes i = { t.itable.inodes i with
      dinode := { (t.itable.inodes i).dinode with size := z } } := Function.update_self ..
  have hopen : Open v ∅ := h.inside.congr rfl rfl
  have hle : k ≤ e := by
    obtain rfl | ⟨-, hlt, -⟩ := h.broken
    · exact le_rfl
    · exact hlt.le
  have hmax : e = max e (k + 0) := (max_eq_left hle).symm
  have hdv : During t i v := during_setDinode t i fun d ↦ { d with size := z }
  have hsized : Wrote t i f (o + k) 0 0 v :=
    ht.unwritten hdv.setting (by rw [hnode]) (by rw [hnode]) ⟨z, by rw [hnode]⟩
      (view_congr rfl rfl rfl) (List.Subset.refl _) f _
  have hsv : Wrote s i f o k e v :=
    h.wrote.trans hsized (fun x hx ↦ absurd hx (Nat.not_lt_zero x)) rfl hmax
  have hvd := hsv.direct hs hopen
  have hout : ¬ InLog v.log.start v.log.size (iblock (v.itable.inodes i).inum v.superBlock) := by
    have hplace := (hvd.layout.iblock_toNat hvd.inum).1
    exact hvd.layout.notMem_log (by omega)
  refine (Inode.update_ready (Log.RoomFor.logsAt 0 fun htot ↦ ?_) hopen
    (T.crash_of_eq hc (h.during.disk.trans rfl)) hvd.device (fun _ ↦ Finset.notMem_empty _)
    hout).imp ?_
  · exact (((hT htot).mono (by omega : 1 + g ≤ _)).after h.during h.logs).room
  rintro _ u ⟨hm, hlu, hu, hvu⟩
  have hrecords := hm.records
  have hnodeu : u.itable.inodes i = v.itable.inodes i := by
    rw [hrecords]
  obtain ⟨hstored, hslot⟩ := hvd.stored (hrecords.during i).setting hnodeu hvu hlu f (o + k)
  have hsu : Wrote s i f o k e u :=
    hsv.trans hstored (fun x hx ↦ absurd hx (Nat.not_lt_zero x)) rfl hmax
  have hcrowded : Crowded t → Crowded u := by
    intro hall b hb
    rw [hstored.setting.superBlock] at hb
    refine (hstored.marks b hb).mpr (.inl ((hsized.marks b hb).mpr (.inl (hall b hb))))
  have hlogs : u.log.header.length ≤ s.log.header.length + (g + 1) := by
    have hgrown := v.log.length_logged_le (iblock (v.itable.inodes i).inum v.superBlock)
    have hlogs := h.logs
    rw [hlu]
    change _ ≤ t.log.header.length + 1 at hgrown
    omega
  refine ⟨⟨h.le, h.during.trans (hdv.trans (hrecords.during i)), hsu, hu, h.mapped, h.broken,
    fun hlt ↦ (h.short hlt).imp_left hcrowded, hlogs⟩, hsu, ?_, ?_⟩
  · rw [hnodeu, hnode]
    exact hz
  · rw [hnodeu, ← hslot, hsv.inum]

/-- `Inode::write` in the direct blocks of a file, from the bytes `f` in memory. -/
theorem Inode.write_writes {userSrc : Bool} {src : UInt64} {length offset : UInt32}
    (hT : T.total → Affords s (2 * rounds offset.toNat length.toNat + 1)) (hc : T.crash s.disk)
    (hs : Direct s i) (hend : offset.toNat + length.toNat ≤ NUM_DIRECT_BLOCKS * BLOCK_SIZE)
    (hf : Gives s userSrc src f) :
    Ensures T.regime (write i userSrc src offset length) s
      (Wrotes s i userSrc f src offset length) := by
  have hend' : offset.toNat + length.toNat ≤ 12288 := hend
  have hsum : (offset + length).toNat = offset.toNat + length.toNat := by
    rw [UInt32.toNat_add]
    exact Nat.mod_eq_of_lt (by omega)
  have hwrap : ¬ offset + length < offset := by
    rw [UInt32.lt_iff_toNat_lt, hsum]
    omega
  have hmax : ¬ (offset + length).toNat > MAX_FILE * BLOCK_SIZE := by
    rw [hsum]
    change ¬ offset.toNat + length.toNat > 274432
    omega
  refine ensures_gets_bind ?_
  rw [if_neg hmax]
  split
  · next hbehind => exact ensures_pure (.inl ⟨hbehind.resolve_right hwrap, rfl, rfl⟩)
  · next hin =>
    have hle : offset ≤ (s.itable.inodes i).dinode.size := UInt32.not_lt.mp fun h ↦ hin (.inl h)
    have hzero : length.toNat - (0 : UInt32).toNat = length.toNat := Nat.sub_zero _
    have htot : 0 ≤ length := UInt32.le_iff_toNat_le.mpr (Nat.zero_le _)
    refine ensures_bind (writeFrom_writes (by rwa [hzero]) hc hs htot le_rfl (by rwa [hzero]) hf) ?_
    rintro _ t ⟨k, e, rfl, hzt, hloop⟩
    rw [hzero] at hloop
    have hk : k ≤ length.toNat := hloop.le
    have hoff : (offset + UInt32.ofNat k).toNat = offset.toNat + k := by
      rw [UInt32.toNat_add, UInt32.toNat_ofNat', Nat.mod_eq_of_lt (a := k) (by omega)]
      exact Nat.mod_eq_of_lt (by omega)
    have hres : (0 : UInt32) + UInt32.ofNat k = UInt32.ofNat k := UInt32.zero_add _
    have hfinish : ∀ u, Ensures T.regime (update i) u (fun _ v ↦
        Loop s i userSrc f src offset.toNat length.toNat k e
          (2 * rounds offset.toNat length.toNat + 1) v ∧ Saved s i f offset.toNat k e v) →
        Ensures T.regime (do
          update i
          pure (0 + UInt32.ofNat k).toInt32) u (Wrotes s i userSrc f src offset length) :=
        fun u hu ↦ by
      refine ensures_bind hu fun _ v hv ↦ ensures_pure (.inr ⟨hle, k, e, ?_, hv⟩)
      rw [hres]
    refine ensures_gets_bind ?_
    dsimp only
    rw [hzt]
    split
    · next hgt =>
      refine ensures_modify_bind (hfinish _ (hloop.update hT hc hs ?_))
      rw [gt_iff_lt, UInt32.lt_iff_toNat_lt, hoff] at hgt
      rw [hoff]
      omega
    · next hle' =>
      have hsame : t.setInode i (fun x ↦
          { x with dinode := { x.dinode with size := (s.itable.inodes i).dinode.size } }) = t :=
        setInode_same (by rw [← hzt])
      refine hfinish t ?_
      rw [← hsame]
      refine hloop.update hT hc hs ?_
      rw [gt_iff_lt, UInt32.lt_iff_toNat_lt, hoff] at hle'
      omega

end
end Orfos.Fs
