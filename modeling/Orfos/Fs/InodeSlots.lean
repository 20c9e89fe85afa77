import Orfos.Fs.Dropping
import Orfos.Fs.Slots

/-!
# What `update` writes and `lock` reads

`update` logs the in-memory inode in its slot, and `lock` loads the slot again. A block that drops
out of the cache on the way shows what is on the disk: the inode's own block if its buffer has no
reference left, or a block of a crowded bucket.
-/

namespace Orfos.Fs

open Orfos.Base Orfos.Base.Traced Orfos.Lib

/-- The bytes of a disk inode in its block. -/
def slotBytes (data : Block) (n : UInt32) (k : Fin 64) : UInt8 := byteAt data (dinodeAt n + k)

/-- Getting, logging and releasing block `b` takes the buffer of block `c` out of the cache. -/
def Lost (s : State) (b c : UInt32) : Prop :=
  if c = b then (entry s b).2.refCount + (if b ∈ s.log.header then 0 else 1) = 0
  else s.cache.bufferTable.Drops (key s.log.device b) (key s.log.device c)

instance (s : State) (b c : UInt32) : Decidable (Lost s b c) :=
  inferInstanceAs (Decidable (if c = b then
    (entry s b).2.refCount + (if b ∈ s.log.header then 0 else 1) = 0
    else s.cache.bufferTable.Drops (key s.log.device b) (key s.log.device c)))

/-- The content of the blocks with an in-memory inode in its slot. -/
def Inode.updated (s : State) (i : Nat) : UInt32 → Block :=
  Function.update (content s) (iblock (s.itable.inodes i).inum s.superBlock)
    ((s.itable.inodes i).dinode.store (dinodeAt (s.itable.inodes i).inum)
      (content s (iblock (s.itable.inodes i).inum s.superBlock)))

/-! ### Slots -/

theorem dinodeAt_add_le (n : UInt32) : dinodeAt n + 64 ≤ BLOCK_SIZE := by
  have hlt : n.toNat % 16 < 16 := Nat.mod_lt _ (by decide)
  change 64 * (n.toNat % 16) + 64 ≤ 1024
  omega

/-- Different inodes of one block have slots apart, wherever the inodes start. -/
theorem dinodeAt_apart {n m : UInt32} {sb : SuperBlock} (hne : m ≠ n)
    (hb : iblock m sb = iblock n sb) :
    dinodeAt m + 64 ≤ dinodeAt n ∨ dinodeAt n + 64 ≤ dinodeAt m := by
  have hdiv : m.toNat / 16 = n.toNat / 16 := by
    have h : m / UInt32.ofNat INODES_PER_BLOCK = n / UInt32.ofNat INODES_PER_BLOCK :=
      UInt32.add_right_inj sb.inodeStart |>.mp (by simpa [iblock, UInt32.add_comm] using hb)
    have hn := congrArg UInt32.toNat h
    rw [UInt32.toNat_div, UInt32.toNat_div] at hn
    exact hn
  have hnm : m.toNat ≠ n.toNat := fun he ↦ hne (UInt32.toNat_inj.mp he)
  change 64 * (m.toNat % 16) + 64 ≤ 64 * (n.toNat % 16) ∨
    64 * (n.toNat % 16) + 64 ≤ 64 * (m.toNat % 16)
  omega

section

variable {a b : Block} {o j : Nat}

theorem byteAt_of_getLe {n : Nat} (h : getLe a o n = getLe b o n) {k : Nat} (hk : k < n) :
    byteAt a (o + k) = byteAt b (o + k) := by
  rw [← ofNat_getLe_div a hk, ← ofNat_getLe_div b hk, h]

theorem getLe_of_getU16 (h : getU16 a o = getU16 b o) : getLe a o 2 = getLe b o 2 := by
  have hn := congrArg UInt16.toNat h
  have ha : getLe a o 2 < 65536 := getLe_lt a o 2
  have hb : getLe b o 2 < 65536 := getLe_lt b o 2
  rw [getU16, getU16, UInt16.toNat_ofNat', UInt16.toNat_ofNat'] at hn
  omega

theorem getLe_of_getU32 (h : getU32 a o = getU32 b o) : getLe a o 4 = getLe b o 4 := by
  have hn := congrArg UInt32.toNat h
  have ha : getLe a o 4 < 4294967296 := getLe_lt a o 4
  have hb : getLe b o 4 < 4294967296 := getLe_lt b o 4
  rw [getU32, getU32, UInt32.toNat_ofNat', UInt32.toNat_ofNat'] at hn
  omega

namespace DiskInode

/-- Storing a disk inode changes no byte outside of its slot. -/
theorem byteAt_store_other (d : DiskInode) (data : Block) (h : j < o ∨ o + 64 ≤ j) :
    byteAt (d.store o data) j = byteAt data j := by
  have hlen : (List.ofFn d.directBlocks).length = 12 := List.length_ofFn
  have hget : getLe (d.store o data) j 1 = getLe data j 1 := by
    simp (disch := omega) only [store, putU16, putU32, getLe_putLe_disjoint,
      getLe_putBlocks_disjoint]
  simpa using byteAt_of_getLe hget (Nat.zero_lt_one)

/-- The bytes of a slot decide what is loaded from it. -/
theorem load_congr (h : ∀ k < 64, byteAt a (o + k) = byteAt b (o + k)) : load a o = load b o := by
  have hget : ∀ k n, k + n ≤ 64 → getLe a (o + k) n = getLe b (o + k) n := fun k n hk ↦
    getLe_congr fun l hl ↦ by
      rw [Nat.add_assoc]
      exact h (k + l) (by omega)
  have hword : ∀ k, k + 2 ≤ 64 → getU16 a (o + k) = getU16 b (o + k) := fun k hk ↦
    congrArg UInt16.ofNat (hget k 2 hk)
  have hlong : ∀ k, k + 4 ≤ 64 → getU32 a (o + k) = getU32 b (o + k) := fun k hk ↦
    congrArg UInt32.ofNat (hget k 4 hk)
  have hdirect : ∀ k : Fin NUM_DIRECT_BLOCKS,
      getU32 a (o + 12 + 4 * k.val) = getU32 b (o + 12 + 4 * k.val) := by
    intro k
    have hk : k.val < 12 := k.isLt
    rw [Nat.add_assoc]
    exact hlong _ (by omega)
  have htype : getU16 a o = getU16 b o := hword 0 (by omega)
  rw [load, load, htype, hword 2 (by omega), hword 4 (by omega), hword 6 (by omega),
    hlong 8 (by omega), hlong 60 (by omega), funext hdirect]

/-- A disk inode has no byte that its fields do not show. -/
theorem byteAt_of_load (h : load a o = load b o) {k : Nat} (hk : k < 64) :
    byteAt a (o + k) = byteAt b (o + k) := by
  have htype := congrArg type h
  have hmajor := congrArg major h
  have hminor := congrArg minor h
  have hlinks := congrArg numLinks h
  have hsize := congrArg size h
  have hdirect := fun l ↦ congrFun (congrArg directBlocks h) l
  have hindirect := congrArg indirectBlock h
  have hword : ∀ q, getU16 a (o + q) = getU16 b (o + q) → q ≤ k → k < q + 2 →
      byteAt a (o + k) = byteAt b (o + k) := by
    intro q hq hqk hkq
    have hbyte := byteAt_of_getLe (getLe_of_getU16 hq) (k := k - q) (by omega)
    rwa [show o + q + (k - q) = o + k by omega] at hbyte
  have hlong : ∀ q, getU32 a (o + q) = getU32 b (o + q) → q ≤ k → k < q + 4 →
      byteAt a (o + k) = byteAt b (o + k) := by
    intro q hq hqk hkq
    have hbyte := byteAt_of_getLe (getLe_of_getU32 hq) (k := k - q) (by omega)
    rwa [show o + q + (k - q) = o + k by omega] at hbyte
  rcases Nat.lt_or_ge k 2 with h0 | h0
  · exact hword 0 htype (by omega) (by omega)
  rcases Nat.lt_or_ge k 4 with h2 | h2
  · exact hword 2 hmajor (by omega) (by omega)
  rcases Nat.lt_or_ge k 6 with h4 | h4
  · exact hword 4 hminor (by omega) (by omega)
  rcases Nat.lt_or_ge k 8 with h6 | h6
  · exact hword 6 hlinks (by omega) (by omega)
  rcases Nat.lt_or_ge k 12 with h8 | h8
  · exact hlong 8 hsize (by omega) (by omega)
  rcases Nat.lt_or_ge k 60 with h12 | h12
  · have hl := hdirect ⟨(k - 12) / 4, by change _ < 12; omega⟩
    refine hlong (12 + 4 * ((k - 12) / 4)) ?_ (by omega) (by omega)
    rw [← Nat.add_assoc]
    exact hl
  · exact hlong 60 hindirect (by omega) (by omega)

end DiskInode

/-- A slot shows the same bytes exactly if it shows the same disk inode. -/
theorem slotBytes_eq_iff {n : UInt32} : slotBytes a n = slotBytes b n ↔
    DiskInode.load a (dinodeAt n) = DiskInode.load b (dinodeAt n) := by
  constructor
  · intro h
    exact DiskInode.load_congr fun k hk ↦ congrFun h ⟨k, hk⟩
  · intro h
    funext k
    exact DiskInode.byteAt_of_load h k.isLt

end

/-! ### Updating and locking -/

section

variable {s t u : State} {b c : UInt32} {i j : Nat} {p : Prop}

theorem content_congr (hs : slot t c = slot s c) (hd : t.disk = s.disk) :
    content t c = content s c := by
  cases h : slot s c with
  | none => rw [content_of_none h, content_of_none (hs.trans h), hd]
  | some v => rw [content_of_slot h, content_of_slot (hs.trans h), hd]

/-- A lock that nobody holds is free, also if the block is not cached. -/
theorem entry_unlocked (h : ∀ i buf, slot s b = some (i, buf) → buf.locked = false) :
    (entry s b).2.locked = false := by
  cases hs : slot s b with
  | none =>
    rw [entry, hs]
    rfl
  | some v =>
    rw [entry_of_slot hs]
    exact h v.1 v.2 hs

/-- What is left of a buffer that was logged and released. -/
theorem log_release_slots {buf : Buffer} (hp : Placed s) (hs : slot s b = some (i, buf)) :
    Ensures (freely False) (do
      writeLog i
      BufferCache.release i) s fun _ t ↦
        t = { s with cache := t.cache, log := s.log.logged b } ∧ Placed t ∧
        slot t = Function.update (slot s) b
          (if buf.refCount + (if b ∈ s.log.header then 0 else 1) - 1 = 0 then none
          else some (i, { buf with
            locked := false
            refCount := buf.refCount + (if b ∈ s.log.header then 0 else 1) - 1 })) := by
  refine ensures_bind (writeLog_slots hp (fun _ ↦ trivial) id hs) ?_
  rintro _ t ⟨ht, hpt, hst⟩
  have hself := congrFun hst b
  rw [Function.update_self] at hself
  refine (release_slots hpt trivial hself False.elim).imp fun _ u hu ↦ ⟨?_, hu.placed, ?_⟩
  · rw [hu.frame, ht]
  · rw [hu.slot, hst, Function.update_idem]

/-- The slots after a block was got, changed, logged and released. -/
theorem change_slots {f : Block → Block} (hp : Placed s) :
    Ensures (freely False) (do
      let bp ← BufferCache.get s.log.device b
      Buffer.read bp
      modify fun s ↦ s.setBuffer bp fun x ↦ { x with data := f x.data }
      writeLog bp
      BufferCache.release bp) s fun _ t ↦
        t = { s with cache := t.cache, log := s.log.logged b } ∧ Placed t ∧
        ∃ i buf, buf.locked = false ∧ buf.valid = true ∧ buf.data = f (content s b) ∧
          slot t = Function.update (slot (s.entered b)) b
            (if Lost s b b then none else some (i, buf)) := by
  refine hold_slots hp (fun _ ↦ trivial) False.elim fun i t ht ↦ ensures_modify_bind ?_
  have hset := slots_setBuffer ht.placed ht.self (fun x ↦ { x with data := f x.data }) rfl rfl
  have hall := ht.trans hset
  have hframe := hall.frame
  rw [entered_frame] at hframe
  have hlog : (t.setBuffer i fun x ↦ { x with data := f x.data }).log = s.log := by rw [hframe]
  refine (log_release_slots hset.placed hset.self).imp ?_
  rintro _ u ⟨hu, hpu, hsu⟩
  rw [hlog, hall.slot, Function.update_idem] at hsu
  have hcount : ∀ r x : UInt32, r + 1 + x - 1 = r + x := by
    intro r x
    grind
  dsimp only at hsu
  rw [hcount] at hsu
  have hlost : slot u = Function.update (slot (s.entered b)) b (if Lost s b b then none
      else some (i, { (entry s b).2 with
        valid := true
        refCount := (entry s b).2.refCount + (if b ∈ s.log.header then 0 else 1)
        locked := false
        data := f (content s b) })) := by
    rw [hsu]
    congr 1
    exact if_congr (by rw [Lost, if_pos rfl]) rfl rfl
  refine ⟨?_, hpu, i, _, rfl, rfl, rfl, hlost⟩
  rw [hu, hlog, hframe]

/-- The contents after a block was got, changed, logged and released. -/
theorem change_content {f : Block → Block} (hp : Placed s) :
    Ensures (freely False) (do
      let bp ← BufferCache.get s.log.device b
      Buffer.read bp
      modify fun s ↦ s.setBuffer bp fun x ↦ { x with data := f x.data }
      writeLog bp
      BufferCache.release bp) s fun _ t ↦
        t = { s with cache := t.cache, log := s.log.logged b } ∧ Placed t ∧
        (entry t b).2.locked = false ∧ ∀ c, content t c =
          if Lost s b c then s.disk c
          else Function.update (content s) b (f (content s b)) c := by
  refine (change_slots hp).imp ?_
  rintro _ t ⟨ht, hpt, i, buf, hunlocked, hvalid, hdata, hslot⟩
  have hdisk : t.disk = s.disk := by rw [ht]
  have hself : slot t b = if Lost s b b then none else some (i, buf) := by
    rw [hslot, Function.update_self]
  refine ⟨ht, hpt, ?_, fun c ↦ ?_⟩
  · refine entry_unlocked fun j bf hs ↦ ?_
    rw [hself] at hs
    split at hs
    · cases hs
    · cases hs
      exact hunlocked
  · by_cases hc : c = b
    · subst hc
      rw [Function.update_self]
      split
      · next hlost =>
        rw [if_pos hlost] at hself
        rw [content_of_none hself, hdisk]
      · next hkept =>
        rw [if_neg hkept] at hself
        rw [content_of_slot hself, if_pos hvalid, hdata]
    · have hother : slot t c = if Lost s b c then none else slot s c := by
        rw [hslot, Function.update_of_ne hc, slot_entered hp, if_neg hc]
        exact if_congr (by rw [Lost, if_neg hc]) rfl rfl
      rw [Function.update_of_ne hc]
      split
      · next hlost =>
        rw [if_pos hlost] at hother
        rw [content_of_none hother, hdisk]
      · next hkept =>
        rw [if_neg hkept] at hother
        exact content_congr hother hdisk

/-- `update` leaves the in-memory inode in its slot, unless its block is lost. -/
theorem Inode.update_content (hp : Placed s) (hdev : (s.itable.inodes i).device = s.log.device) :
    Ensures (freely False) (Inode.update i) s fun _ t ↦
      t = { s with
        cache := t.cache
        log := s.log.logged (iblock (s.itable.inodes i).inum s.superBlock) } ∧ Placed t ∧
      (entry t (iblock (s.itable.inodes i).inum s.superBlock)).2.locked = false ∧
      ∀ c, content t c = if Lost s (iblock (s.itable.inodes i).inum s.superBlock) c then s.disk c
        else Inode.updated s i c := by
  refine ensures_gets_bind (ensures_gets_bind ?_)
  rw [hdev]
  exact change_content hp

/-- `lock` loads an inode that is not valid from its slot. -/
theorem Inode.lock_reads (hp : Placed s) (hdev : (s.itable.inodes i).device = s.log.device)
    (href : p → 1 ≤ (s.itable.inodes i).refCount)
    (hlocked : p → (s.itable.inodes i).locked = false)
    (hvalid : (s.itable.inodes i).valid = false)
    (hfree : p → (entry s (iblock (s.itable.inodes i).inum s.superBlock)).2.locked = false)
    (htype : p → (DiskInode.load (content s (iblock (s.itable.inodes i).inum s.superBlock))
      (dinodeAt (s.itable.inodes i).inum)).type ≠ 0) :
    Ensures (freely p) (Inode.lock i) s fun _ t ↦ (t.itable.inodes i).dinode =
      DiskInode.load (content s (iblock (s.itable.inodes i).inum s.superBlock))
        (dinodeAt (s.itable.inodes i).inum) := by
  refine ensures_assert_bind href trivial fun _ ↦ ?_
  refine ensures_assert_bind hlocked trivial fun _ ↦ ?_
  refine ensures_modify_bind (ensures_gets_bind ?_)
  set s₁ := s.setInode i fun x ↦ { x with locked := true } with hs₁
  have hnode : s₁.itable.inodes i = { s.itable.inodes i with locked := true } := by
    simp [hs₁, State.setInode]
  have hp₁ : Placed s₁ := (Placing.of_cache rfl rfl).placed hp
  have hentry : ∀ b, entry s₁ b = entry s b := fun _ ↦ rfl
  have hcontent : ∀ b, content s₁ b = content s b := fun _ ↦ rfl
  rw [hnode, if_pos (by simp [hvalid])]
  refine ensures_gets_bind ?_
  dsimp only
  rw [hdev]
  refine hold_slots hp₁ (fun _ ↦ trivial) (fun hT ↦ by rw [hentry]; exact hfree hT) ?_
  intro bp t ht
  rw [hcontent] at ht
  refine ensures_modify_bind ?_
  obtain ⟨-, hbuf⟩ := slot_eq_some_iff.mp ht.self
  rw [hbuf]
  dsimp only
  set d := DiskInode.load (content s (iblock (s.itable.inodes i).inum s.superBlock))
    (dinodeAt (s.itable.inodes i).inum) with hd
  set t₁ := t.setInode i fun x ↦ { x with dinode := d } with ht₁
  have hpt : Placed t₁ := (Placing.of_cache rfl rfl).placed ht.placed
  have hself : slot t₁ (iblock (s.itable.inodes i).inum s.superBlock) = _ := ht.self
  refine ensures_bind (release_slots hpt trivial hself fun _ ↦ rfl) ?_
  intro _ u hu
  have hframe := congrArg State.itable hu.frame
  have hitable : u.itable = t₁.itable := hframe
  have hloaded : ((u.setInode i fun x ↦ { x with valid := true }).itable.inodes i).dinode = d := by
    simp [State.setInode, hitable, ht₁]
  refine ensures_modify_bind (ensures_assert (fun hT ↦ ?_) trivial fun _ ↦ hloaded)
  rw [hloaded]
  exact htype hT

end

end Orfos.Fs
