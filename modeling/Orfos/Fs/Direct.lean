import Orfos.Fs.Bitmap
import Orfos.Fs.Copyin

/-!
# Files in direct blocks

What a write does to the content of a file in its direct blocks: the bytes are in the blocks of the
file, new ones among them, and the blocks of others are as they were. Writes one behind the other
are one write.
-/

namespace Orfos.Fs

open Orfos.Base Orfos.Base.Traced Orfos.Lib

/-- The direct blocks of an in-memory inode. -/
def directs (s : State) (i : Nat) : Fin NUM_DIRECT_BLOCKS → UInt32 :=
  (s.itable.inodes i).dinode.directBlocks

/-- A data block that is in use. -/
structure InUse (s : State) (b : UInt32) : Prop where
  data : dataStart s.superBlock ≤ b.toNat
  lt : b < s.superBlock.size
  marked : marked s b = true

/-- What a consistent file system says about the direct blocks of an inode: they are different, and
in use. The blocks that are not marked are data blocks. -/
structure Direct (s : State) (i : Nat) : Prop where
  inside : Open s ∅
  layout : Layout s
  guarded : Guarded s
  device : (s.itable.inodes i).device = s.log.device
  inum : (s.itable.inodes i).inum < s.superBlock.numInodes
  once : ∀ j l, directs s i j = directs s i l → directs s i j ≠ 0 → j = l
  owned : ∀ j, directs s i j ≠ 0 → InUse s (directs s i j)

/-- Two states of one file system, with the same memory. -/
structure Setting (s t : State) : Prop where
  superBlock : t.superBlock = s.superBlock
  start : t.log.start = s.log.start
  size : t.log.size = s.log.size
  device : t.log.device = s.log.device
  user : t.user = s.user
  kernel : t.kernel = s.kernel
  overrun : t.overrun = s.overrun

/-- From `s` to `t` the bytes `f` are written to a file, `k` of them from the offset `o` on. A copy
that was broken off may have changed the bytes behind them, up to `o + e`. -/
structure Wrote (s : State) (i : Nat) (f : Nat → UInt8) (o k e : Nat) (t : State) : Prop where
  setting : Setting s t
  device : (t.itable.inodes i).device = (s.itable.inodes i).device
  inum : (t.itable.inodes i).inum = (s.itable.inodes i).inum
  node : ∃ size, (t.itable.inodes i).dinode =
    { (s.itable.inodes i).dinode with directBlocks := directs t i, size := size }
  once : ∀ j l, directs t i j = directs t i l → directs t i j ≠ 0 → j = l
  kept : ∀ j, directs s i j ≠ 0 → directs t i j = directs s i j
  fresh : ∀ j, directs s i j = 0 → directs t i j ≠ 0 →
    directs t i j < s.superBlock.size ∧ marked s (directs t i j) = false
  marks : ∀ b < s.superBlock.size,
    marked t b = true ↔ marked s b = true ∨ b ≠ 0 ∧ ∃ j, directs t i j = b
  written : ∀ j q, q < BLOCK_SIZE → o ≤ BLOCK_SIZE * j.val + q → BLOCK_SIZE * j.val + q < o + k →
    directs t i j ≠ 0 ∧
      byteAt (view t (directs t i j)) q = f (BLOCK_SIZE * j.val + q - o)
  old : ∀ j q, q < BLOCK_SIZE → directs s i j ≠ 0 →
    ¬ (o ≤ BLOCK_SIZE * j.val + q ∧ BLOCK_SIZE * j.val + q < o + e) →
      byteAt (view t (directs s i j)) q = byteAt (view s (directs s i j)) q
  others : ∀ b, InUse s b → (∀ j, directs s i j ≠ b) → view t b = view s b
  slots : ∀ m < s.superBlock.numInodes, m ≠ (s.itable.inodes i).inum → dinodeOf t m = dinodeOf s m
  logged : ∀ b ∈ t.log.header, InUse s b → b ∈ s.log.header ∨
    ∃ j p, directs s i j = b ∧ o ≤ p ∧ p < o + k ∧ p / BLOCK_SIZE = j.val

/-- A write of `k` bytes that has come to its end: the size is at least the end of the bytes, and the
slot of the inode is that in memory. -/
structure Saved (s : State) (i : Nat) (f : Nat → UInt8) (o k e : Nat) (t : State) : Prop
    extends Wrote s i f o k e t where
  length : (t.itable.inodes i).dinode.size.toNat =
    max (s.itable.inodes i).dinode.size.toNat (o + k)
  slot : dinodeOf t (s.itable.inodes i).inum = (t.itable.inodes i).dinode

section

variable {s t u : State} {i o k k' e e' : Nat} {f f' : Nat → UInt8} {b : UInt32}

theorem Setting.refl (s : State) : Setting s s := ⟨rfl, rfl, rfl, rfl, rfl, rfl, rfl⟩

theorem Setting.trans (h : Setting s t) (h' : Setting t u) : Setting s u :=
  ⟨h'.superBlock.trans h.superBlock, h'.start.trans h.start, h'.size.trans h.size,
    h'.device.trans h.device, h'.user.trans h.user, h'.kernel.trans h.kernel,
    h'.overrun.trans h.overrun⟩

theorem Setting.sourceByte (h : Setting s t) : t.sourceByte = s.sourceByte := by
  funext userSrc a
  rw [State.sourceByte, State.sourceByte, State.userByte, State.userByte, h.user, h.kernel]

theorem Setting.layout (h : Setting s t) (hs : Layout s) : Layout t :=
  hs.congr h.start h.size h.superBlock

/-- Blocks in use are those with the marks. -/
theorem InUse.congr (h : InUse s b) (hsb : t.superBlock = s.superBlock)
    (hm : Fs.marked t b = true) : InUse t b :=
  ⟨hsb ▸ h.data, hsb ▸ h.lt, hm⟩

/-- The number 0 stands for no block. -/
theorem InUse.ne_zero (h : InUse s b) : b ≠ 0 := by
  rintro rfl
  have hdata := h.data
  rw [dataStart] at hdata
  exact Nat.not_succ_le_zero _ hdata

/-- The blocks of a file after a write are those before it and blocks that were free. -/
theorem Wrote.of_directs (h : Wrote s i f o k e t) (hb : InUse s b)
    (hnot : ∀ j, directs s i j ≠ b) (j : Fin NUM_DIRECT_BLOCKS) : directs t i j ≠ b := by
  rintro rfl
  by_cases hzero : directs s i j = 0
  · have hfree := (h.fresh j hzero hb.ne_zero).2
    rw [hb.marked] at hfree
    cases hfree
  · exact hnot j (h.kept j hzero).symm

/-- What is in use stays in use. -/
theorem Wrote.inUse (h : Wrote s i f o k e t) (hb : InUse s b) : InUse t b :=
  hb.congr h.setting.superBlock ((h.marks b hb.lt).mpr (.inl hb.marked))

/-- A consistent file is consistent after a write. -/
theorem Wrote.direct (h : Wrote s i f o k e t) (hs : Direct s i) (ht : Open t ∅) : Direct t i := by
  have hsb := h.setting.superBlock
  refine ⟨ht, h.setting.layout hs.layout, fun b hb hfree ↦ ?_, ?_, ?_, h.once, fun j hj ↦ ?_⟩
  · rw [hsb] at hb ⊢
    refine hs.guarded b hb ?_
    by_contra hm
    rw [(h.marks b hb).mpr (.inl (by simpa using hm))] at hfree
    cases hfree
  · rw [h.device, h.setting.device]
    exact hs.device
  · rw [h.inum, hsb]
    exact hs.inum
  · by_cases hzero : directs s i j = 0
    · obtain ⟨hlt, hfree⟩ := h.fresh j hzero hj
      refine ⟨?_, hsb ▸ hlt, (h.marks _ hlt).mpr (.inr ⟨hj, j, rfl⟩)⟩
      rw [hsb]
      exact hs.guarded _ hlt hfree
    · rw [h.kept j hzero]
      exact h.inUse (hs.owned j hzero)

/-- A write to the blocks that a file has. -/
theorem Direct.wrote (hs : Direct s i) (hset : Setting s t)
    (hdev : (t.itable.inodes i).device = (s.itable.inodes i).device)
    (hinum : (t.itable.inodes i).inum = (s.itable.inodes i).inum)
    (hnode : ∃ size, (t.itable.inodes i).dinode = { (s.itable.inodes i).dinode with size := size })
    (hmarked : ∀ b < s.superBlock.size, marked t b = marked s b)
    (hwritten : ∀ j q, q < BLOCK_SIZE → o ≤ BLOCK_SIZE * j.val + q →
      BLOCK_SIZE * j.val + q < o + k → directs s i j ≠ 0 ∧
        byteAt (view t (directs s i j)) q = f (BLOCK_SIZE * j.val + q - o))
    (hold : ∀ j q, q < BLOCK_SIZE → directs s i j ≠ 0 →
      ¬ (o ≤ BLOCK_SIZE * j.val + q ∧ BLOCK_SIZE * j.val + q < o + e) →
        byteAt (view t (directs s i j)) q = byteAt (view s (directs s i j)) q)
    (hothers : ∀ b, InUse s b → (∀ j, directs s i j ≠ b) → view t b = view s b)
    (hslots : ∀ m < s.superBlock.numInodes, m ≠ (s.itable.inodes i).inum →
      dinodeOf t m = dinodeOf s m)
    (hlogged : ∀ b ∈ t.log.header, InUse s b → b ∈ s.log.header ∨
      ∃ j p, directs s i j = b ∧ o ≤ p ∧ p < o + k ∧ p / BLOCK_SIZE = j.val) :
    Wrote s i f o k e t := by
  have hdirects : directs t i = directs s i := by
    obtain ⟨size, hsize⟩ := hnode
    rw [directs, hsize, directs]
  refine ⟨hset, hdev, hinum, hdirects ▸ hnode, hdirects ▸ hs.once, fun j _ ↦ by rw [hdirects],
    fun j h h' ↦ ?_, fun b hb ↦ ?_, hdirects ▸ hwritten, hold, hothers, hslots, hlogged⟩
  · rw [hdirects] at h'
    exact absurd h h'
  · rw [hmarked b hb, hdirects]
    refine ⟨.inl, ?_⟩
    rintro (hm | ⟨hne, j, rfl⟩)
    · exact hm
    · exact (hs.owned j hne).marked

/-- Nothing is written to a file whose blocks are the same. -/
theorem Direct.unwritten (hs : Direct s i) (hset : Setting s t)
    (hdev : (t.itable.inodes i).device = (s.itable.inodes i).device)
    (hinum : (t.itable.inodes i).inum = (s.itable.inodes i).inum)
    (hnode : ∃ size, (t.itable.inodes i).dinode = { (s.itable.inodes i).dinode with size := size })
    (hv : view t = view s) (hl : t.log.header ⊆ s.log.header) (f : Nat → UInt8) (o : Nat) :
    Wrote s i f o 0 0 t := by
  refine hs.wrote hset hdev hinum hnode (fun b _ ↦ ?_) (fun _ _ _ hlow hhigh ↦ by omega)
    (fun _ _ _ _ _ ↦ by rw [hv]) (fun _ _ _ ↦ by rw [hv]) (fun m _ _ ↦ ?_)
    fun b hb _ ↦ .inl (hl hb)
  · rw [marked, marked, hv, hset.superBlock]
  · rw [dinodeOf, dinodeOf, hv, hset.superBlock]

/-- Writes one behind the other. -/
theorem Wrote.trans {l m : Nat} (h : Wrote s i f o k e t) (h' : Wrote t i f' (o + k) k' e' u)
    (hf : ∀ x < k', f' x = f (k + x)) (hl : l = k + k') (hm : m = max e (k + e')) :
    Wrote s i f o l m u := by
  subst hl hm
  have hsb := h.setting.superBlock
  have hnum := h.inum
  refine ⟨h.setting.trans h'.setting, h'.device.trans h.device, h'.inum.trans hnum, ?_, h'.once,
    fun j hj ↦ ?_, fun j hzero hj ↦ ?_, fun b hb ↦ ?_, fun j q hq hlow hhigh ↦ ?_,
    fun j q hq hj hout ↦ ?_, fun b hb hnot ↦ ?_, fun m hm hne ↦ ?_, fun b hb huse ↦ ?_⟩
  · obtain ⟨size, hsize⟩ := h.node
    obtain ⟨size', hsize'⟩ := h'.node
    refine ⟨size', ?_⟩
    rw [hsize', hsize]
  · have hkept := h.kept j hj
    rw [h'.kept j (hkept ▸ hj), hkept]
  · by_cases hmid : directs t i j = 0
    · obtain ⟨hlt, hfree⟩ := h'.fresh j hmid hj
      rw [hsb] at hlt
      refine ⟨hlt, ?_⟩
      by_contra hm
      rw [(h.marks _ hlt).mpr (.inl (by simpa using hm))] at hfree
      cases hfree
    · rw [h'.kept j hmid]
      exact h.fresh j hzero hmid
  · rw [h'.marks b (hsb ▸ hb), h.marks b hb, or_assoc]
    refine or_congr_right ⟨?_, .inr⟩
    rintro (⟨hne, j, rfl⟩ | hnew)
    · exact ⟨hne, j, h'.kept j hne⟩
    · exact hnew
  · by_cases hfirst : BLOCK_SIZE * j.val + q < o + k
    · obtain ⟨hne, hbyte⟩ := h.written j q hq hlow hfirst
      have hkept := h'.kept j hne
      refine ⟨hkept ▸ hne, ?_⟩
      rw [hkept, h'.old j q hq hne (by omega), hbyte]
    · obtain ⟨hne, hbyte⟩ := h'.written j q hq (by omega) (by omega)
      refine ⟨hne, ?_⟩
      rw [hbyte, hf _ (by omega)]
      congr 1
      omega
  · have hkept := h.kept j hj
    have hlater := h'.old j q hq (hkept ▸ hj) (by omega)
    rw [hkept] at hlater
    rw [hlater, h.old j q hq hj (by omega)]
  · rw [h'.others b (h.inUse hb) (h.of_directs hb hnot), h.others b hb hnot]
  · rw [h'.slots m (hsb ▸ hm) (hnum ▸ hne), h.slots m hm hne]
  · obtain hold | ⟨j, p, hj, hlow, hhigh, hp⟩ := h'.logged b hb (h.inUse huse)
    · obtain hold | ⟨j, p, hj, hlow, hhigh, hp⟩ := h.logged b hold huse
      · exact .inl hold
      · exact .inr ⟨j, p, hj, hlow, by omega, hp⟩
    · refine .inr ⟨j, p, ?_, by omega, by omega, hp⟩
      by_contra hne
      refine h.of_directs huse (fun l hl ↦ hne ?_) j hj
      have hkept := h.kept l (hl ▸ huse.ne_zero)
      have hlj := h.once l j (by rw [hkept, hl, hj]) (by rw [hkept, hl]; exact huse.ne_zero)
      rw [← hlj, hl]

/-! ### Blocks for a file -/

/-- The marks after `allocateBlock`, and the blocks that it leaves alone. -/
theorem Taken.spec {a : UInt32} (h : Taken s a t) (hs : Layout s) (hg : Guarded s) (ha : a ≠ 0) :
    a < s.superBlock.size ∧ marked s a = false ∧ Works s t ∧ Open t ∅ ∧
      (∀ b < s.superBlock.size, marked t b = (marked s b || decide (b = a))) ∧
      ∀ b, b.toNat < s.superBlock.bmapStart.toNat ∨ dataStart s.superBlock ≤ b.toNat → b ≠ a →
        view t b = view s b := by
  obtain ⟨hzero, -⟩ | ⟨hlt, hfree, hw, hopen, hv⟩ := h
  · exact absurd hzero ha
  have hdata := hg a hlt hfree
  obtain ⟨hplace, hbelow⟩ := hs.bblock_toNat hlt
  have hsb : t.superBlock = s.superBlock := by rw [hw]
  refine ⟨hlt, hfree, hw, hopen, fun b hb ↦ ?_, fun b hb hne ↦ ?_⟩
  · have hne : bblock b s.superBlock ≠ a := by
      rintro rfl
      exact absurd (hs.bblock_toNat hb).2 (Nat.not_lt.mpr hdata)
    have hbit := @bitOf_update s.superBlock (view s) a b
      (setBit (view s (bblock a s.superBlock)) (a.toNat % BITS_PER_BLOCK))
      (fun _ ↦ true) fun j ↦ by
        rw [bitAt_setBit _ _ (by change a.toNat % 8192 / 8 < 1024; omega)]
        by_cases hj : j = a.toNat % BITS_PER_BLOCK <;> simp [hj]
    rw [bitOf] at hbit
    rw [marked, hsb, hv, Function.update_of_ne hne, hbit, bitOf]
    by_cases he : b = a <;> simp [he, marked]
  · have hne' : b ≠ bblock a s.superBlock := by
      rintro rfl
      omega
    rw [hv, Function.update_of_ne hne, Function.update_of_ne hne']

theorem Log.mem_of_logged {log : Log} {c : UInt32} (h : b ∈ (log.logged c).header) :
    b ∈ log.header ∨ b = c := by
  rw [Log.logged] at h
  split at h
  · exact .inl h
  · exact (List.mem_append.mp h).imp_right List.mem_singleton.mp

/-- `allocateBlock` logs no block that is in use. -/
theorem Direct.mem_of_allocates {a : UInt32} (hs : Direct s i)
    (h : (a = 0 ∧ Idle s ∅ t ∧ ∀ c < s.superBlock.size, Fs.marked s c = true) ∨ Granted s ∅ a t) :
    ∀ b ∈ t.log.header, InUse s b → b ∈ s.log.header := by
  intro b hb huse
  obtain ⟨-, hidle, -⟩ | ha := h
  · rwa [hidle.frame] at hb
  · rw [ha.log] at hb
    obtain hb | rfl := Log.mem_of_logged hb
    · obtain hb | rfl := Log.mem_of_logged hb
      · exact hb
      · exact absurd (hs.layout.bblock_toNat ha.lt).2 (Nat.not_lt.mpr huse.data)
    · have hfree := ha.free
      rw [huse.marked] at hfree
      cases hfree

/-- Bytes that are stored in a block of the file are written, all of them or none. -/
theorem Direct.store (hs : Direct s i) {j : Fin NUM_DIRECT_BLOCKS} (hj : directs s i j ≠ 0)
    {q m : Nat} (hq : q + m ≤ BLOCK_SIZE) {g : Nat → UInt8} (hset : Setting s u)
    (hnode : u.itable.inodes i = s.itable.inodes i)
    (hv : view u = Function.update (view s) (directs s i j)
      (putBytes (view s (directs s i j)) q m g))
    (hl : ∀ b ∈ u.log.header, b ∈ s.log.header ∨ 0 < k ∧ b = directs s i j)
    (hk : k = 0 ∨ k = m ∧ ∀ x < m, f x = g x) :
    Wrote s i f (BLOCK_SIZE * j.val + q) k m u := by
  have hown := hs.owned j hj
  have hleft : ∀ b, b ≠ directs s i j → view u b = view s b := fun b hb ↦ by
    rw [hv, Function.update_of_ne hb]
  have hself : ∀ q', q' < BLOCK_SIZE → byteAt (view u (directs s i j)) q' =
      if q ≤ q' ∧ q' < q + m then g (q' - q) else byteAt (view s (directs s i j)) q' := by
    intro q' hq'
    rw [hv, Function.update_self, byteAt_putBytes _ _ _ _ _ hq']
  refine hs.wrote hset (by rw [hnode]) (by rw [hnode]) ⟨_, by rw [hnode]⟩ (fun b hb ↦ ?_)
    (fun l q' hq' hlow hhigh ↦ ?_) (fun l q' hq' hl hout ↦ ?_)
    (fun b _ hnot ↦ hleft b (hnot j).symm) (fun n hn _ ↦ ?_) fun b hb _ ↦ ?_
  · have hne : bblock b s.superBlock ≠ directs s i j := by
      intro he
      have hbelow := (hs.layout.bblock_toNat hb).2
      rw [he] at hbelow
      exact absurd hbelow (Nat.not_lt.mpr hown.data)
    rw [marked, marked, hset.superBlock, hleft _ hne]
  · obtain rfl | ⟨rfl, hf⟩ := hk
    · omega
    · have hq1024 : q + k ≤ 1024 := hq
      have hq' : q' < 1024 := hq'
      obtain rfl : l = j := by
        apply Fin.ext
        change 1024 * j.val + q ≤ 1024 * l.val + q' at hlow
        change 1024 * l.val + q' < 1024 * j.val + q + k at hhigh
        omega
      refine ⟨hj, ?_⟩
      rw [hself q' hq', if_pos (by omega), hf _ (by omega)]
      congr 1
      omega
  · by_cases he : directs s i l = directs s i j
    · obtain rfl := hs.once l j he hl
      rw [hself q' hq', if_neg (by omega)]
    · rw [hleft _ he]
  · have hblock := (hs.layout.iblock_toNat hn).2
    have horder := hs.layout.order
    have hdata := hown.data
    rw [dinodeOf, dinodeOf, hset.superBlock, hleft]
    intro he
    rw [he] at hblock
    omega
  · obtain hold | ⟨hpos, rfl⟩ := hl b hb
    · exact .inl hold
    · refine .inr ⟨j, BLOCK_SIZE * j.val + q, rfl, le_rfl, by omega, ?_⟩
      have hlt : q < BLOCK_SIZE := by omega
      rw [Nat.mul_add_div (by decide), Nat.div_eq_of_lt hlt, Nat.add_zero]

/-- The slot of the inode is stored. -/
theorem Direct.stored (hs : Direct s i) (hset : Setting s t) (hnode : t.itable.inodes i =
    s.itable.inodes i) (hv : view t = Function.update (view s)
      (iblock (s.itable.inodes i).inum s.superBlock)
      ((s.itable.inodes i).dinode.store (dinodeAt (s.itable.inodes i).inum)
        (view s (iblock (s.itable.inodes i).inum s.superBlock))))
    (hl : t.log = s.log.logged (iblock (s.itable.inodes i).inum s.superBlock))
    (f : Nat → UInt8) (o : Nat) :
    Wrote s i f o 0 0 t ∧ dinodeOf t (s.itable.inodes i).inum = (s.itable.inodes i).dinode := by
  have hblock := (hs.layout.iblock_toNat hs.inum).2
  have horder := hs.layout.order
  have hleft : ∀ b, (s.superBlock.bmapStart.toNat ≤ b.toNat) → view t b = view s b := by
    intro b hb
    rw [hv, Function.update_of_ne]
    rintro rfl
    omega
  have hkeep : ∀ b, InUse s b → view t b = view s b := fun b hb ↦ by
    have hdata := hb.data
    exact hleft b (by omega)
  have hslots := fun m (hm : m < s.superBlock.numInodes) ↦
    hs.layout.dinodeOf_store hs.inum hm hset.superBlock hv
  refine ⟨hs.wrote hset (by rw [hnode]) (by rw [hnode]) ⟨_, by rw [hnode]⟩ (fun b hb ↦ ?_)
    (fun _ _ _ hlow hhigh ↦ by omega) (fun l q _ hl _ ↦ by rw [hkeep _ (hs.owned l hl)])
    (fun b hb _ ↦ hkeep b hb) (fun m hm hne ↦ by rw [hslots m hm, if_neg hne])
    fun b hb huse ↦ .inl ?_, by rw [hslots _ hs.inum, if_pos rfl]⟩
  · have hplace := (hs.layout.bblock_toNat hb).1
    rw [marked, marked, hset.superBlock, hleft _ (by omega)]
  · rw [hl] at hb
    obtain hb | rfl := Log.mem_of_logged hb
    · exact hb
    · have hdata := huse.data
      omega

end
end Orfos.Fs
