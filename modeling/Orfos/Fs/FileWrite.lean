import Orfos.Fs.Contents
import Orfos.Fs.FileRead
import Orfos.Fs.Operations
import Orfos.Fs.Writing

/-!
# Writing through a file

`File::write` splits its bytes into chunks, and writes each in an operation of its own. In the direct
blocks of a file that is what one write of all the bytes does. When it returns, the bytes are on the
disk; where it is cut off, a whole number of chunks is.
-/

namespace Orfos.Fs

open Orfos.Base Orfos.Base.Traced Orfos.Lib

namespace Inode

/-- A round of the loop of `File::write`: the calls for one chunk. -/
def writeChunk (i : Nat) (address : UInt64) (offset len : UInt32) : FsM Int32 := do
  beginOp
  lock i
  let res ← write i true address offset len
  unlock i
  endOp
  pure res

/-- The loop of `File::write`, from byte `done` on, for at most `fuel` rounds. It returns the result
and the offset of the file. -/
def writeChunks (i : Nat) (address : UInt64) (n : Int32) :
    Nat → Int32 → UInt32 → FsM (Int32 × UInt32)
  | 0, done, offset => pure (if done = n then n else -1, offset)
  | fuel + 1, done, offset =>
    if done < n then do
      let len := if n - done > Syscall.File.max then Syscall.File.max else n - done
      let res ← writeChunk i (address + Syscall.ofInt done) offset len.toUInt32
      let offset := if res > 0 then offset + res.toUInt32 else offset
      if res ≠ len then
        pure (if done = n then n else -1, offset)
      else
        writeChunks i address n fuel (done + res) offset
    else
      pure (if done = n then n else -1, offset)

/-- What `File::write` does with an inode file at an offset. -/
def writeFile (i : Nat) (address : UInt64) (n : Int32) (offset : UInt32) : FsM (Int32 × UInt32) :=
  writeChunks i address n n.toInt.toNat 0 offset

end Inode

/-- A file that is open while nobody works on the file system. -/
structure Writable (s : State) (i : Nat) : Prop where
  rest : Resting s
  present : Present s i
  valid : (s.itable.inodes i).valid = true
  free : (s.itable.inodes i).locked = false
  counted : 1 ≤ (s.itable.inodes i).refCount
  wrap : s.superBlock.size.toNat + BITS_PER_BLOCK < 2 ^ 32

/-- From `s` to `t` an operation that is over has changed the disk, and a disk inode in memory. -/
def Between (s : State) (i : Nat) (t : State) : Prop :=
  t = { s with
    cache := t.cache
    disk := t.disk
    itable := (s.setInode i fun x ↦ { x with dinode := (t.itable.inodes i).dinode }).itable }

/-- The bytes that a write finds in memory. -/
def State.sourceBytes (s : State) (userSrc : Bool) (src : UInt64) (x : Nat) : UInt8 :=
  (s.sourceByte userSrc (src + UInt64.ofNat x)).getD 0

/-- Some of the bytes from `x` on, in front of `n`, are not there. -/
def Lacks (s : State) (address : UInt64) (x n : Nat) : Prop :=
  ∃ y, x ≤ y ∧ y < n ∧ s.sourceByte true (address + UInt64.ofNat y) = none

/-- A chunk of `n` bytes `f` at an address was written: `k` bytes of it, and all of them unless there
was no more room on the disk or no more source. -/
structure Chunk (s : State) (i : Nat) (address : UInt64) (f : Nat → UInt8) (o n k e : Nat)
    (t : State) : Prop extends Saved s i f o k e t where
  le : k ≤ n
  mapped : ∀ x < k, (s.sourceByte true (address + UInt64.ofNat x)).isSome
  spilled : Spilled s i o k e
  counted : e = k ∨ k < n
  whole : k < n → Crowded t ∨ Lacks s address k n

/-- `k` of the `n` bytes at an address are in a file from the offset `o` on. They are whole chunks, or
there was no more room on the disk or no more source. -/
structure Partly (s : State) (i : Nat) (address : UInt64) (o n k e : Nat) (t : State) : Prop
    extends Saved s i (s.sourceBytes true address) o k e t where
  le : k ≤ n
  mapped : ∀ x < k, (s.sourceByte true (address + UInt64.ofNat x)).isSome
  spilled : Spilled s i o k e
  whole : k < n → Syscall.File.max.toInt.toNat ∣ k ∨ Crowded t ∨ Lacks s address k n

/-- The bytes at an address. -/
def State.source (s : State) (address : UInt64) (k : Nat) : List UInt8 :=
  (List.range k).map (s.sourceBytes true address)

/-- The contents of a disk on which `k` of the `n` bytes at an address are in a file from the offset
`o` on. Nothing else has changed in the files, and the file system is healthy. -/
structure Landed (s : State) (i : Nat) (address : UInt64) (o n k : Nat) (d : UInt32 → Block) :
    Prop where
  le : k ≤ n
  mapped : ∀ x < k, (s.sourceByte true (address + UInt64.ofNat x)).isSome
  whole : k < n → Syscall.File.max.toInt.toNat ∣ k ∨
    (∀ b < s.superBlock.size, bitOf s.superBlock d b = true) ∨ Lacks s address k n
  healthy : Healthy s.superBlock d
  files : ∀ m < s.superBlock.numInodes, Fs.files s.superBlock d m =
    put (Fs.files s.superBlock s.disk) (s.itable.inodes i).inum o (s.source address k) m
  node : ∃ b z, inodeIn s.superBlock d (s.itable.inodes i).inum =
    { inodeIn s.superBlock s.disk (s.itable.inodes i).inum with directBlocks := b, size := z }
  others : ∀ m < s.superBlock.numInodes, m ≠ (s.itable.inodes i).inum →
    inodeIn s.superBlock d m = inodeIn s.superBlock s.disk m

section

variable {T : Terms} {s t u : State} {i o k e : Nat} {f : Nat → UInt8} {b : UInt32}

/-- The source of a write has its bytes. -/
theorem gives_sourceBytes (s : State) (userSrc : Bool) (src : UInt64) :
    Gives s userSrc src (s.sourceBytes userSrc src) := by
  intro x b hb
  rw [State.sourceBytes, hb, Option.getD_some]

/-- Blocks that are in use are not in the log. -/
theorem InUse.notMem_log (h : InUse s b) (hs : Layout s) :
    ¬ InLog s.log.start s.log.size b := by
  have horder := hs.order
  have hdata := h.data
  exact hs.notMem_log (by omega)

/-- What was written does not change while the log is put in its place. -/
theorem Saved.settle (h : Saved s i f o k e t) (hs : Direct s i) (ht : Open t ∅)
    (hset : Setting t u) (hdev : (u.itable.inodes i).device = (t.itable.inodes i).device)
    (hinum : (u.itable.inodes i).inum = (t.itable.inodes i).inum)
    (hnode : (u.itable.inodes i).dinode = (t.itable.inodes i).dinode)
    (hv : SameHome t.log (view t) (view u)) (hl : u.log.header = []) : Saved s i f o k e u := by
  have hdt := h.direct hs ht
  have hlayout := hdt.layout
  have horder := hlayout.order
  have hsb := h.setting.superBlock
  have hdirects : directs u i = directs t i := by
    rw [directs, hnode, directs]
  have hmarked : ∀ b < s.superBlock.size, marked u b = marked t b := fun b hb ↦ by
    have hplace := hlayout.bblock_toNat (hsb ▸ hb)
    rw [marked, marked, hset.superBlock, hv _ (hlayout.notMem_log (by omega))]
  have hslot : ∀ m < s.superBlock.numInodes, dinodeOf u m = dinodeOf t m := fun m hm ↦ by
    have hplace := hlayout.iblock_toNat (hsb ▸ hm)
    rw [dinodeOf, dinodeOf, hset.superBlock, hv _ (hlayout.notMem_log (by omega))]
  have hkeep : ∀ b, InUse t b → view u b = view t b := fun b hb ↦ hv b (hb.notMem_log hlayout)
  refine ⟨⟨h.setting.trans hset, hdev.trans h.device, hinum.trans h.inum, ?_, hdirects ▸ h.once,
    fun j hj ↦ by rw [hdirects, h.kept j hj], fun j hj hj' ↦ ?_, fun b hb ↦ ?_,
    fun j q hq hlow hhigh ↦ ?_, fun j q hq hj hout ↦ ?_, fun b hb hnot ↦ ?_, fun m hm hne ↦ ?_,
    fun b hb ↦ ?_⟩, ?_, ?_⟩
  · rw [hnode, hdirects]
    exact h.node
  · rw [hdirects] at hj' ⊢
    exact h.fresh j hj hj'
  · rw [hmarked b hb, h.marks b hb, hdirects]
  · obtain ⟨hne, hbyte⟩ := h.written j q hq hlow hhigh
    rw [hdirects, hkeep _ (hdt.owned j hne)]
    exact ⟨hne, hbyte⟩
  · rw [hkeep _ (h.inUse (hs.owned j hj)), h.old j q hq hj hout]
  · rw [hkeep _ (h.inUse hb), h.others b hb hnot]
  · rw [hslot m hm, h.slots m hm hne]
  · rw [hl] at hb
    cases hb
  · rw [hnode, h.length]
  · rw [hslot _ hs.inum, hnode, h.slot]

/-- The marks of a file that was written are those of its blocks. -/
theorem Wrote.crowded (h : Wrote s i f o k e t) (h' : Wrote s i f o k e u)
    (hd : directs u i = directs t i) (ht : Crowded t) : Crowded u := by
  intro b hb
  have hb' : b < s.superBlock.size := by rwa [h'.setting.superBlock] at hb
  rw [h'.marks b hb', hd, ← h.marks b hb']
  refine ht b ?_
  rwa [h.setting.superBlock]

/-- A write in a state that only the lock and the operation tell from another. -/
theorem Saved.behind (h : Wrote s i f o 0 0 t)
    (hnode : (t.itable.inodes i).dinode = (s.itable.inodes i).dinode) (h' : Saved t i f o k e u) :
    Saved s i f o k e u := by
  refine ⟨h.trans h'.toWrote (fun x _ ↦ by rw [Nat.zero_add]) (Nat.zero_add k).symm (by omega),
    ?_, ?_⟩
  · rw [h'.length, hnode]
  · rw [← h'.slot, h.inum]

/-- A write, and a change of the lock behind it. -/
theorem Saved.unlock (h : Saved s i f o k e t) (hs : Direct s i) (ht : Open t ∅) (hle : k ≤ e) :
    Saved s i f o k e (t.setInode i fun x ↦ { x with locked := false }) := by
  have hnode : (t.setInode i fun x ↦ { x with locked := false }).itable.inodes i =
      { t.itable.inodes i with locked := false } := Function.update_self ..
  have hview : view (t.setInode i fun x ↦ { x with locked := false }) = view t :=
    view_congr rfl rfl rfl
  have hset : Setting t (t.setInode i fun x ↦ { x with locked := false }) :=
    ⟨rfl, rfl, rfl, rfl, rfl, rfl, rfl⟩
  have hw : Wrote t i f (o + k) 0 0 (t.setInode i fun x ↦ { x with locked := false }) :=
    (h.direct hs ht).unwritten hset (by rw [hnode]) (by rw [hnode])
      ⟨_, by rw [hnode]⟩ hview (List.Subset.refl _) f _
  refine ⟨h.trans hw (fun x hx ↦ absurd hx (Nat.not_lt_zero x)) rfl (by omega), ?_, ?_⟩
  · rw [hnode, h.length]
  · rw [hnode, ← h.slot, dinodeOf, hview]
    rfl

/-- A chunk is in at most four blocks. -/
theorem rounds_le {n : Nat} (o : Nat) (hn : n ≤ 3072) : 2 * rounds o n + 1 ≤ MAX_OP_BLOCKS := by
  unfold rounds
  split
  · decide
  · change 2 * ((o + n - 1) / 1024 + 1 - o / 1024) + 1 ≤ 10
    omega

/-- A file that `File::write` has locked in its operation. -/
theorem Writable.locked (h : Writable s i) {v : State}
    (hv : v = ({ s with log := { s.log with outstanding := 1 } } : State).setInode i
      fun x ↦ { x with locked := true }) (hopen : Open v ∅) (f : Nat → UInt8) (o : Nat) :
    Direct v i ∧ Wrote s i f o 0 0 v := by
  have hnode : v.itable.inodes i = { s.itable.inodes i with locked := true } := by
    rw [hv]
    exact Function.update_self ..
  have hset : Setting s v := by
    rw [hv]
    exact ⟨rfl, rfl, rfl, rfl, rfl, rfl, rfl⟩
  have hw : Wrote s i f o 0 0 v := h.present.direct.unwritten hset (by rw [hnode]) (by rw [hnode])
    ⟨_, by rw [hnode]⟩ (hv ▸ view_congr rfl rfl rfl) (by rw [hv]; exact List.Subset.refl _) f o
  exact ⟨hw.direct h.present.direct hopen, hw⟩

/-- The calls of `File::write` for one chunk put it on the disk. -/
theorem Inode.writeChunk_ensures {V : (UInt32 → Block) → Prop} {log : Log} {address : UInt64}
    {offset len : UInt32} (h : Writable s i) (hstart : s.log.start = log.start)
    (hsize : s.log.size = log.size)
    (hlen : len.toNat ≤ 3072) (ho : offset ≤ (s.itable.inodes i).dinode.size)
    (hend : offset.toNat + len.toNat ≤ NUM_DIRECT_BLOCKS * BLOCK_SIZE)
    (hf : Gives s true address f) (hold : V s.disk)
    (hnew : ∀ k e t, Chunk s i address f offset.toNat len.toNat k e t → Open t ∅ → V (view t)) :
    Ensures (passing log V).regime (writeChunk i address offset len) s fun res t ↦
      Writable t i ∧ Between s i t ∧ ∃ k e, res = (UInt32.ofNat k).toInt32 ∧
        Chunk s i address f offset.toNat len.toNat k e t := by
  have hc : (passing log V).crash s.disk := (h.rest.recovers hold).congr hstart.symm hsize.symm
  refine ensures_bind (beginOp_ensures h.rest hc) ?_
  rintro _ t ⟨rfl, ht, hroom⟩
  set v := ({ s with log := { s.log with outstanding := 1 } } : State).setInode i
    fun x ↦ { x with locked := true } with hv
  have hnode : v.itable.inodes i = { s.itable.inodes i with locked := true } :=
    Function.update_self ..
  have hopen : Open v ∅ := ht.congr rfl rfl
  obtain ⟨hdirect, hsv⟩ := h.locked hv hopen f offset.toNat
  -- the inode is in memory, and is not loaded again
  have hlock : Ensures (passing log V).regime (lock i)
      { s with log := { s.log with outstanding := 1 } } fun _ t ↦ t = v := by
    refine ensures_assert_bind (fun _ ↦ h.counted) hc fun _ ↦
      ensures_assert_bind (fun _ ↦ h.free) hc fun _ ↦ ensures_modify_bind (ensures_gets_bind ?_)
    rw [← hv, hnode, if_neg (not_not_intro h.valid)]
    exact ensures_pure rfl
  refine ensures_bind hlock ?_
  rintro _ _ rfl
  have haffords : Affords v (2 * rounds offset.toNat len.toNat + 1) :=
    ⟨hroom.mono (rounds_le _ hlen), h.wrap⟩
  have hfv : Gives v true address f := fun x b hb ↦ hf x b (by rwa [hsv.setting.sourceByte] at hb)
  refine ensures_bind (write_writes (fun _ ↦ haffords) hc hdirect hend hfv) ?_
  rintro res t (⟨hbehind, -⟩ | ⟨-, k, e, rfl, hloop, hsaved⟩)
  · rw [hnode] at hbehind
    exact absurd hbehind (UInt32.not_lt.mpr ho)
  have hdt : t.disk = s.disk := hloop.during.disk
  have hnodet := hloop.during.inodes
  rw [hnode] at hnodet
  -- `unlock`
  set w := t.setInode i fun x ↦ { x with locked := false } with hw
  have hnodew : w.itable.inodes i = { t.itable.inodes i with locked := false } :=
    Function.update_self ..
  have hct : (passing log V).crash t.disk := by rwa [hdt]
  have hunlock : Ensures (passing log V).regime (unlock i) t fun _ u ↦ u = w := by
    refine ensures_call_bind hct fun _ ↦ ensures_assert_bind (fun _ ↦ ?_) hct fun _ ↦
      ensures_assert_bind (fun _ ↦ ?_) hct fun _ ↦ ensures_modify rfl
    · rw [hnodet]
    · rw [hnodet]
      exact h.counted
  refine ensures_bind hunlock ?_
  rintro _ _ rfl
  have hle : k ≤ e := by
    obtain rfl | ⟨-, hlt, -⟩ := hloop.broken
    · exact le_rfl
    · exact hlt.le
  have hst : Saved s i f offset.toNat k e t := .behind hsv (by rw [hnode]) hsaved
  have hsw : Saved s i f offset.toNat k e w := hst.unlock h.present.direct hloop.inside hle
  have hopenw : Open w ∅ := hloop.inside.congr rfl rfl
  have hlogw : w.log = { v.log with header := t.log.header } := by
    change t.log = _
    rw [hloop.during]
  have hdirects : directs v i = directs s i := by rw [directs, hnode, directs]
  have hspilled : Spilled s i offset.toNat k e := by
    obtain he | ⟨-, hlt, j, hlow, hhigh, -, hnew⟩ := hloop.broken
    · exact .inl he
    · rw [hdirects] at hnew
      refine .inr ⟨hlt, j, hlow, hhigh, hnew.resolve_right fun hlogged ↦ ?_⟩
      change _ ∈ s.log.header at hlogged
      rw [h.rest.header] at hlogged
      cases hlogged
  have hchunk : ∀ u, Saved s i f offset.toNat k e u →
      directs u i = directs t i → Chunk s i address f offset.toNat len.toNat k e u := by
    intro u hu hdirects
    have hsource := hsv.setting.sourceByte
    refine ⟨hu, hloop.le, fun x hx ↦ ?_, hspilled, hloop.broken.imp_right And.left, fun hk ↦ ?_⟩
    · rw [← hsource]
      exact hloop.mapped x hx
    · rw [Lacks, ← hsource]
      exact (hloop.short hk).imp_left (hst.crowded hu.toWrote hdirects)
  have hcw : Chunk s i address f offset.toNat len.toNat k e w :=
    hchunk w hsw (by rw [directs, hnodew, directs])
  refine ensures_bind (endOp_ensures hopenw (by rw [hlogw]; rfl) (by rw [hlogw]; exact h.rest.committing)
    (by rw [hlogw]; change headerOf (t.disk _) = []; rw [hdt]; exact h.rest.disk)
    (by rw [hlogw]; exact h.rest.room) (by rw [hlogw]; exact hstart) (by rw [hlogw]; exact hsize)
    (by change V t.disk; rwa [hdt]) (hnew k e w hcw hopenw)) ?_
  rintro _ u ⟨hfu, hrest, hhome⟩
  have hnodeu : u.itable.inodes i = w.itable.inodes i := by
    rw [hfu]
  have hset : Setting w u := by
    rw [hfu]
    exact ⟨rfl, rfl, rfl, rfl, rfl, rfl, rfl⟩
  have hsu : Saved s i f offset.toNat k e u := hsw.settle h.present.direct hopenw hset (by rw [hnodeu])
    (by rw [hnodeu]) (by rw [hnodeu]) (by rwa [hrest.view]) hrest.header
  have hcu : Chunk s i address f offset.toNat len.toNat k e u :=
    hchunk u hsu (by rw [directs, hnodeu, hnodew, directs])
  have hinside : offset.toNat + k ≤ NUM_DIRECT_BLOCKS * BLOCK_SIZE := by
    have hkn := hloop.le
    omega
  refine ensures_pure ⟨⟨hrest, hsu.present h.present hrest.toOpen ?_ hinside, ?_, ?_, ?_, ?_⟩, ?_,
    k, e, rfl, hcu⟩
  · exact UInt32.le_iff_toNat_le.mp ho
  · rw [hnodeu, hnodew, hnodet]
    exact h.valid
  · rw [hnodeu, hnodew]
  · rw [hnodeu, hnodew, hnodet]
    exact h.counted
  · rw [hsu.setting.superBlock]
    exact h.wrap
  · have hlog : ({ s.log with header := [], outstanding := 0 } : Log) = s.log := by
      have hheader := h.rest.header
      have hout := h.rest.outstanding
      cases hl : s.log
      rw [hl] at hheader hout
      subst hheader hout
      rfl
    have hfree : ∀ d, { s.itable.inodes i with locked := false, dinode := d } =
        { s.itable.inodes i with dinode := d } := fun d ↦ by rw [← h.free]
    have hframe := hloop.during
    unfold During at hframe
    unfold Between
    refine hfu.trans ?_
    rw [hnodeu, hw, hframe, hv]
    simp only [State.setInode, Function.update_self, Function.update_idem]
    rw [hlog, hfree]

/-! ### The chunks -/

/-- An `int` that is not negative as an address. -/
theorem ofInt_ofNat {m : Nat} (hm : m < 2 ^ 31) :
    Syscall.ofInt (Int32.ofNat m) = UInt64.ofNat m := by
  have hmax : (m : Int) ≤ Int32.maxValue.toInt := by
    change (m : Int) ≤ 2147483647
    omega
  rw [Syscall.ofInt, Int32.toInt64_ofNat' (by exact_mod_cast hmax), Int64.toUInt64_ofNat']

theorem ofNat_inj_iff {m n : Nat} (hm : m < 2 ^ 31) (hn : n < 2 ^ 31) :
    Int32.ofNat m = Int32.ofNat n ↔ m = n := by
  refine ⟨fun h ↦ ?_, fun h ↦ by rw [h]⟩
  have hint := congrArg Int32.toInt h
  rw [Int32.toInt_ofNat_of_lt hm, Int32.toInt_ofNat_of_lt hn] at hint
  exact Int.ofNat_inj.mp hint

/-- The length of the next chunk. -/
theorem chunk_length {m n : Nat} (hn : n < 2 ^ 31) (hm : m ≤ n) :
    (if Int32.ofNat n - Int32.ofNat m > Syscall.File.max then Syscall.File.max
      else Int32.ofNat n - Int32.ofNat m) = Int32.ofNat (min (n - m) 3072) := by
  have hmax : Syscall.File.max = Int32.ofNat 3072 := rfl
  have hiff : Int32.ofNat n - Int32.ofNat m > Syscall.File.max ↔ 3072 < n - m := by
    rw [← Int32.ofNat_sub n m hm, hmax, gt_iff_lt, Int32.ofNat_lt_iff_lt (by omega) (by omega)]
  by_cases hlt : 3072 < n - m
  · rw [if_pos (hiff.mpr hlt), Nat.min_eq_right hlt.le, hmax]
  · rw [if_neg (mt hiff.mp hlt), Nat.min_eq_left (Nat.le_of_not_lt hlt), Int32.ofNat_sub n m hm]

/-- No bytes of a write. -/
theorem Writable.partly (h : Writable s i) (address : UInt64) (n : Nat)
    (ho : o ≤ (s.itable.inodes i).dinode.size.toNat) : Partly s i address o n 0 0 s := by
  have hw : Wrote s i (s.sourceBytes true address) o 0 0 s :=
    h.present.direct.unwritten (.refl s) rfl rfl ⟨_, rfl⟩ rfl (List.Subset.refl _) _ _
  exact ⟨⟨hw, (max_eq_left ho).symm, h.present.slot⟩, Nat.zero_le _,
    fun x hx ↦ absurd hx (Nat.not_lt_zero x), .inl rfl, fun _ ↦ .inl (Nat.dvd_zero _)⟩

/-- A chunk behind chunks. -/
theorem Partly.append {address : UInt64} {m n : Nat} (h : Partly s i address o n m m t)
    (hdvd : 3072 ∣ m)
    (h' : Chunk t i (address + UInt64.ofNat m) (fun x ↦ s.sourceBytes true address (m + x)) (o + m)
      (min (n - m) 3072) k e u) : Partly s i address o n (m + k) (m + e) u := by
  have hsource : ∀ x, t.sourceByte true (address + UInt64.ofNat m + UInt64.ofNat x) =
      s.sourceByte true (address + UInt64.ofNat (m + x)) := fun x ↦ by
    rw [h.setting.sourceByte, UInt64.add_assoc, ← UInt64.ofNat_add]
  have hmn := h.le
  have hkn := h'.le
  have hlength := h.length
  refine ⟨⟨h.toWrote.trans h'.toWrote (fun _ _ ↦ rfl) rfl (by omega), ?_, ?_⟩, by omega,
    fun x hx ↦ ?_, ?_, fun hlt ↦ ?_⟩
  · rw [h'.length, hlength]
    omega
  · rw [← h'.slot, h.inum]
  · by_cases hxm : x < m
    · exact h.mapped x hxm
    · have hlater := h'.mapped (x - m) (by omega)
      rwa [hsource, Nat.add_sub_cancel' (Nat.le_of_not_lt hxm)] at hlater
  · -- a block that is new for the chunk is new for the write
    obtain rfl | ⟨hke, j, hlow, hhigh, hnew⟩ := h'.spilled
    · exact .inl rfl
    · refine .inr ⟨by omega, j, by omega, by omega, ?_⟩
      by_contra hj
      rw [h.kept j hj] at hnew
      exact hj hnew
  · by_cases hk : k = min (n - m) 3072
    · obtain ⟨c, rfl⟩ := hdvd
      refine .inl ⟨c + 1, ?_⟩
      change _ = 3072 * (c + 1)
      omega
    · refine .inr ((h'.whole (by omega)).imp_right ?_)
      rintro ⟨y, hky, hy, hnone⟩
      rw [hsource] at hnone
      exact ⟨m + y, by omega, by omega, hnone⟩

/-- The disk with a part of the bytes. -/
theorem Partly.landed {address : UInt64} {n : Nat} (h : Partly s i address o n k e t)
    (hs : Writable s i) (ht : Open t ∅) (ho : o ≤ (s.itable.inodes i).dinode.size.toNat)
    (hend : o + n ≤ NUM_DIRECT_BLOCKS * BLOCK_SIZE) : Landed s i address o n k (view t) := by
  have hk : o + k ≤ NUM_DIRECT_BLOCKS * BLOCK_SIZE := by
    have hkn := h.le
    omega
  refine ⟨h.le, h.mapped, fun hlt ↦ (h.whole hlt).imp_right (Or.imp_left fun hfull b hb ↦ ?_),
    h.healthy hs.present ht ho hk, fun m hm ↦ ?_, ?_, fun m hm hne ↦ ?_⟩
  · have hsb := h.setting.superBlock
    have hmark := hfull b (by rwa [hsb])
    rwa [marked, hsb] at hmark
  · rw [h.files_put hs.present ht h.spilled ho hk hm, hs.rest.view, State.source]
  · rw [← hs.rest.view]
    exact h.inodeIn_eq hs.present hs.present.inum
  · rw [← hs.rest.view]
    exact h.inodeIn_of_ne hm hne

/-- The log has no part in what a write has done. -/
theorem Landed.congr {address : UInt64} {n : Nat} {d d' : UInt32 → Block}
    (h : Landed s i address o n k d) (hs : Present s i) (hd : SameHome s.log d d') :
    Landed s i address o n k d' := by
  have hv : ∀ b : UInt32, s.superBlock.inodeStart.toNat ≤ b.toNat → d' b = d b :=
    fun b hb ↦ hd b (hs.layout.notMem_log hb)
  refine ⟨h.le, h.mapped, fun hlt ↦ (h.whole hlt).imp_right (Or.imp_left fun hfull b hb ↦ ?_),
    h.healthy.congr hs.layout hv, fun m hm ↦ ?_, ?_, fun m hm hne ↦ ?_⟩
  · have hplace := hs.layout.bblock_toNat hb
    have horder := hs.layout.order
    rw [bitOf, hv _ (by omega)]
    exact hfull b hb
  · rw [files_congr h.healthy hs.layout hv hm, h.files m hm]
  · rw [inodeIn_congr hs.layout hv hs.inum]
    exact h.node
  · rw [inodeIn_congr hs.layout hv hm, h.others m hm hne]

theorem Between.trans (h : Between s i t) (h' : Between t i u) : Between s i u := by
  unfold Between at *
  rw [h', h]
  simp only [State.setInode, Function.update_self, Function.update_idem]

theorem between_self (s : State) (i : Nat) : Between s i s := by
  unfold Between
  rw [show (s.setInode i fun x ↦ { x with dinode := (s.itable.inodes i).dinode }).itable = s.itable
    from congrArg State.itable (setInode_same rfl)]

/-- The loop of `File::write`, with `m` bytes written. -/
theorem Inode.writeChunks_ensures {address : UInt64} {n fuel m : Nat} {offset : UInt32}
    (hs : Writable s i) (ho : o ≤ (s.itable.inodes i).dinode.size.toNat)
    (hend : o + n ≤ NUM_DIRECT_BLOCKS * BLOCK_SIZE) (ht : Writable t i) (hst : Between s i t)
    (h : Partly s i address o n m m t) (hdvd : 3072 ∣ m ∨ m = n) (hfuel : n - m ≤ fuel)
    (hoff : offset.toNat = o + m) :
    Ensures (passing s.log fun d ↦ ∃ k, Landed s i address o n k d).regime
      (writeChunks i address (Int32.ofNat n) fuel (Int32.ofNat m) offset) t fun r u ↦
        Writable u i ∧ Between s i u ∧ ∃ k, Landed s i address o n k u.disk ∧
          r = (if k = n then Int32.ofNat n else -1, UInt32.ofNat (o + k)) := by
  have hend' : o + n ≤ 12288 := hend
  have hmn := h.le
  -- the loop is left with `k` bytes written
  have hstop : ∀ k e u (r : Int32) (offset : UInt32), r = (if k = n then Int32.ofNat n else -1) →
      offset.toNat = o + k → Partly s i address o n k e u → Writable u i → Between s i u →
      Ensures (passing s.log fun d ↦ ∃ k, Landed s i address o n k d).regime
        (pure (r, offset) : FsM (Int32 × UInt32)) u fun r u ↦
          Writable u i ∧ Between s i u ∧ ∃ k, Landed s i address o n k u.disk ∧
            r = (if k = n then Int32.ofNat n else -1, UInt32.ofNat (o + k)) := by
    rintro k e u _ offset rfl hoff h hu hsu
    have hland := h.landed hs hu.rest.toOpen ho hend
    rw [hu.rest.view] at hland
    refine ensures_pure ⟨hu, hsu, k, hland, ?_⟩
    rw [← hoff, UInt32.ofNat_toNat]
  have hend_eq : ∀ m ≤ n, (if Int32.ofNat m = Int32.ofNat n then Int32.ofNat n else -1) =
      if m = n then Int32.ofNat n else -1 := fun m hm ↦
    if_congr (ofNat_inj_iff (by omega) (by omega)) rfl rfl
  induction fuel generalizing t m offset with
  | zero => exact hstop m m t _ offset (hend_eq m hmn) hoff h ht hst
  | succ fuel ih =>
    have hlt : Int32.ofNat m < Int32.ofNat n ↔ m < n :=
      Int32.ofNat_lt_iff_lt (by omega) (by omega)
    unfold writeChunks
    by_cases hm : m < n
    case neg =>
      rw [if_neg (mt hlt.mp hm)]
      exact hstop m m t _ offset (hend_eq m hmn) hoff h ht hst
    rw [if_pos (hlt.mpr hm), chunk_length (by omega) hmn, ofInt_ofNat (by omega)]
    have hdvd' := hdvd.resolve_right hm.ne
    set c := min (n - m) 3072 with hc
    have hc32 : c < 2 ^ 31 := by omega
    have hlen : (Int32.ofNat c).toUInt32.toNat = c := by
      rw [Int32.toUInt32_ofNat', UInt32.toNat_ofNat_of_lt' (Nat.lt_trans hc32 (by decide))]
    have hlength := h.length
    have hgives : Gives t true (address + UInt64.ofNat m)
        fun x ↦ s.sourceBytes true address (m + x) :=
      (gives_sourceBytes s true address).after h.setting m
    have hnew : ∀ k e v, Chunk t i (address + UInt64.ofNat m)
        (fun x ↦ s.sourceBytes true address (m + x)) offset.toNat (Int32.ofNat c).toUInt32.toNat
          k e v → Open v ∅ → ∃ k, Landed s i address o n k (view v) := by
      intro k e v hv hopen
      rw [hlen, hoff] at hv
      exact ⟨m + k, (h.append hdvd' hv).landed hs hopen ho hend⟩
    have hold := h.landed hs ht.rest.toOpen ho hend
    rw [ht.rest.view] at hold
    refine ensures_bind (writeChunk_ensures ht h.setting.start h.setting.size
      (by omega) ?_ (by rw [hoff, hlen]; omega) hgives ⟨m, hold⟩ hnew) ?_
    · rw [UInt32.le_iff_toNat_le, hlength, hoff]
      exact le_max_right ..
    rintro res u ⟨hu, htu, k, e, rfl, hchunk⟩
    rw [hlen, hoff] at hchunk
    have hkc := hchunk.le
    have happend := h.append hdvd' hchunk
    have hres : (UInt32.ofNat k).toInt32 = Int32.ofNat k := UInt32.toInt32_ofNat' ..
    rw [hres]
    have hoff' : (if Int32.ofNat k > 0 then offset + (Int32.ofNat k).toUInt32 else offset).toNat =
        o + (m + k) := by
      have hpos : Int32.ofNat k > 0 ↔ 0 < k := Int32.ofNat_lt_iff_lt (by decide) (by omega)
      by_cases hk : 0 < k
      · have hk32 : k < 2 ^ 32 := by omega
        rw [if_pos (hpos.mpr hk), Int32.toUInt32_ofNat', UInt32.toNat_add, hoff,
          UInt32.toNat_ofNat_of_lt' hk32]
        omega
      · rw [if_neg (mt hpos.mp hk), hoff]
        omega
    by_cases hk : k = c
    · subst hk
      rw [if_neg (not_not_intro rfl), ← Int32.ofNat_add]
      obtain rfl | hlt := hchunk.counted
      · exact ih hu (hst.trans htu) happend (by omega) (by omega) hoff' happend.le
      · exact absurd hlt (Nat.lt_irrefl _)
    · rw [if_pos (mt (ofNat_inj_iff (by omega) hc32).mp hk), hend_eq m hmn, if_neg hm.ne]
      exact hstop (m + k) (m + e) u _ _ (if_neg (by omega)).symm hoff' happend hu (hst.trans htu)

/-- The disks that a write of an inode file may pass through. -/
def Lands (s : State) (i : Nat) (address : UInt64) (offset : UInt32) (n : Int32)
    (d : UInt32 → Block) : Prop :=
  ∃ k, Landed s i address offset.toNat n.toInt.toNat k d

/-- What a write of an inode file has done when it returns. -/
structure Wrought (s : State) (i : Nat) (address : UInt64) (offset : UInt32) (n : Int32) (k : Nat)
    (r : Int32 × UInt32) (t : State) : Prop where
  writable : Writable t i
  between : Between s i t
  landed : Landed s i address offset.toNat n.toInt.toNat k t.disk
  result : r.1 = if (k : Int) = n.toInt then n else -1
  offset : r.2.toNat = offset.toNat + k

/-- `File::write` returns with some of its bytes on the disk, and passes through disks with fewer. -/
theorem Inode.writeFile_ensures (address : UInt64) {n : Int32} {offset : UInt32} (hs : Writable s i)
    (ho : offset ≤ (s.itable.inodes i).dinode.size)
    (hend : offset.toNat + n.toInt.toNat ≤ NUM_DIRECT_BLOCKS * BLOCK_SIZE) :
    Ensures (passing s.log (Lands s i address offset n)).regime (writeFile i address n offset) s
      fun r t ↦ ∃ k, Wrought s i address offset n k r t := by
  have ho' := UInt32.le_iff_toNat_le.mp ho
  have hempty := hs.partly address n.toInt.toNat ho'
  by_cases hn : n.toInt < 0
  · -- there is no round
    have hzero : n.toInt.toNat = 0 := Int.toNat_of_nonpos hn.le
    have hne : (0 : Int32) ≠ n := by
      rintro rfl
      exact absurd hn (by decide)
    have hland := hempty.landed hs hs.rest.toOpen ho' hend
    rw [hs.rest.view] at hland
    rw [writeFile, hzero, writeChunks, if_neg hne]
    refine ensures_pure ⟨0, hs, between_self s i, hland, ?_, rfl⟩
    exact (if_neg (by omega)).symm
  · have hnat : n = Int32.ofNat n.toInt.toNat := by
      apply Int32.toInt_inj.mp
      have hlt := n.toInt_lt
      rw [Int32.toInt_ofNat_of_lt (by omega)]
      omega
    have hloop := writeChunks_ensures hs ho' hend hs (between_self s i)
      hempty (.inl (Nat.dvd_zero _)) (Nat.sub_le ..) (Nat.add_zero _).symm
    rw [← hnat] at hloop
    refine hloop.imp fun r t ⟨ht, hst, k, hland, hr⟩ ↦ ⟨k, ht, hst, hland, ?_, ?_⟩
    · rw [hr]
      exact if_congr (by omega) rfl rfl
    · have hkn := hland.le
      have hlast : NUM_DIRECT_BLOCKS * BLOCK_SIZE = 12288 := rfl
      rw [hr]
      exact UInt32.toNat_ofNat_of_lt' (by change _ < 4294967296; omega)

section

open Syscall Memory

variable {π : Type} {K : Rest State Nat π} {k : Kernel State Nat π} {f : Nat}

/-- A disk with the empty files 5 and 6. The blocks in front of the data are marked. -/
def emptyDisk (b : UInt32) : Block :=
  if b = 33 then
    let file : DiskInode := ⟨T_FILE, 0, 0, 1, 0, fun _ ↦ 0, 0⟩
    file.store 384 (file.store 320 Block.zero)
  else if b = 46 then fun k ↦ if k.val < 5 then 255 else if k.val = 5 then 127 else 0
  else Block.zero

/-- The two files are in memory, and there is a page of user memory. -/
def empty : State :=
  let s := ((started emptyDisk).newInode 1 5).newInode 1 6
  let s := s.setInode 0 fun x ↦ { x with valid := true, dinode := dinodeOf s 5 }
  let s := s.setInode 1 fun x ↦ { x with valid := true, dinode := dinodeOf s 6 }
  { s with user := fun n ↦ if n = 0 then some fun _ ↦ 7 else none }

end

end
end Orfos.Fs
