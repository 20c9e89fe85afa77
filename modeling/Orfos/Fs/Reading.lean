import Orfos.Fs.Copyout

/-!
# Reading files

What `Inode::read` does. A range of a file is read up to the end of the file, to the first page of
user memory that is not there, or to the first block that `bmap` does not find. Where `bmap` finds
no block it allocates one, and that is the only way in which a read changes anything but the memory
that it copies to.
-/

namespace Orfos.Fs

open Orfos.Base Orfos.Base.Traced Orfos.Lib

/-! ### The blocks of a file -/

/-- The block of a file at a block number, 0 for none. -/
def blockOf (s : State) (d : DiskInode) (bn : Nat) : UInt32 :=
  if h : bn < NUM_DIRECT_BLOCKS then d.directBlocks ⟨bn, h⟩
  else if d.indirectBlock = 0 then 0
  else getU32 (view s d.indirectBlock) (4 * (bn - NUM_DIRECT_BLOCKS))

/-- `bmap` finds the block. It does not read the indirect block, which has to be cached. -/
def Known (s : State) (d : DiskInode) (bn : Nat) : Prop :=
  blockOf s d bn ≠ 0 ∧ (bn < NUM_DIRECT_BLOCKS ∨ (slot s d.indirectBlock).isSome = true)

instance (s : State) (d : DiskInode) (bn : Nat) : Decidable (Known s d bn) :=
  inferInstanceAs (Decidable (_ ∧ _))

/-- The byte of a file at an offset. -/
def fileByte (s : State) (d : DiskInode) (o : Nat) : UInt8 :=
  byteAt (view s (blockOf s d (o / BLOCK_SIZE))) (o % BLOCK_SIZE)

/-- The byte of a file at an offset, if `bmap` finds its block. -/
def knownByte (s : State) (d : DiskInode) (o : Nat) : Option UInt8 :=
  if Known s d (o / BLOCK_SIZE) then some (fileByte s d o) else none

/-- Nobody has a block of the file or of the bitmap, and those that are cached have been read. -/
structure Readable (s : State) (i : Nat) : Prop where
  placed : Placed s
  device : (s.itable.inodes i).device = s.log.device
  size : (s.itable.inodes i).dinode.size.toNat ≤ MAX_FILE * BLOCK_SIZE
  blocks : ∀ bn, Known s (s.itable.inodes i).dinode bn →
    Settled s (blockOf s (s.itable.inodes i).dinode bn)
  indirect : (s.itable.inodes i).dinode.indirectBlock ≠ 0 →
    Unheld s (s.itable.inodes i).dinode.indirectBlock
  bitmap : ∀ b < s.superBlock.size, Settled s (bblock b s.superBlock)
  apart : (s.itable.inodes i).dinode.indirectBlock ≠ 0 →
    ∀ b < s.superBlock.size, bblock b s.superBlock ≠ (s.itable.inodes i).dinode.indirectBlock
  blockRange : s.superBlock.size.toNat + BITS_PER_BLOCK < 2 ^ 32

section

variable {X Z : Prop} {s t u : State} {i : Nat} {b : UInt32} {bp : Nat} {buf : Buffer}

theorem Undisturbed.blockOf (h : Undisturbed s t) : blockOf t = blockOf s := by
  funext d bn
  rw [Fs.blockOf, Fs.blockOf, h.view]

theorem Undisturbed.known_iff (h : Undisturbed s t) (d : DiskInode) (bn : Nat) :
    Known t d bn ↔ Known s d bn := by
  rw [Known, Known, h.blockOf, h.slots]

theorem Undisturbed.fileByte (h : Undisturbed s t) : fileByte t = fileByte s := by
  funext d o
  rw [Fs.fileByte, Fs.fileByte, h.blockOf, h.view]

theorem Undisturbed.readable (h : Undisturbed s t) (hs : Readable s i) : Readable t i := by
  obtain ⟨-, hdev, hsize, hblocks, hindirect, hbitmap, hapart, hrange⟩ := hs
  refine ⟨h.placed, ?_, ?_, fun bn hbn ↦ ?_, fun hne ↦ ?_, fun b hb ↦ ?_, ?_, ?_⟩
  · rw [h.itable, h.log]; exact hdev
  · rw [h.itable]; exact hsize
  · rw [h.itable, h.known_iff] at hbn
    rw [h.itable, h.blockOf]
    exact h.settled (hblocks bn hbn)
  · rw [h.itable] at hne ⊢
    rw [Unheld, h.slots]
    exact hindirect hne
  · rw [h.superBlock] at hb ⊢
    exact h.settled (hbitmap b hb)
  · rw [h.itable, h.superBlock]; exact hapart
  · rw [h.superBlock]; exact hrange

/-- A search of the bitmap while another block is looked at. -/
theorem Looking.full_iff (h : Looking s t b bp buf)
    (hb : ∀ c < s.superBlock.size, bblock c s.superBlock ≠ b) : Full t ↔ Full s := by
  have hmarked : ∀ c < s.superBlock.size, marked t c = marked s c := by
    intro c hc
    rw [marked, marked, view, view, h.superBlock, h.slot_of_ne (hb c hc), h.disk]
  unfold Full
  rw [h.superBlock]
  exact forall₂_congr fun c hc ↦ by rw [hmarked c hc]

namespace Inode

/-- `bmap` of a direct block. -/
theorem bmapDirect_looks (h : Readable s i) (bn : Fin NUM_DIRECT_BLOCKS)
    (hX : ¬ Known s (s.itable.inodes i).dinode bn → ¬ Full s → X)
    (hZ : Z → s.log.outstanding < 1) :
    Delivers (looks X Z) (bmapDirect i bn) s fun a t ↦ Undisturbed s t ∧ SameMemory s t ∧
      (Known s (s.itable.inodes i).dinode bn ∧ a = blockOf s (s.itable.inodes i).dinode bn ∨
        ¬ Known s (s.itable.inodes i).dinode bn ∧ a = 0 ∧ Full s) := by
  have hblock : blockOf s (s.itable.inodes i).dinode bn =
      (s.itable.inodes i).dinode.directBlocks bn := dif_pos bn.isLt
  refine delivers_gets_bind ?_
  dsimp only
  split
  · next hzero =>
    have hunknown : ¬ Known s (s.itable.inodes i).dinode bn := fun hk ↦ hk.1 (hblock.trans hzero)
    rw [h.device]
    refine delivers_bind (allocateBlock_looks h.placed (hX hunknown) hZ h.blockRange h.bitmap) ?_
    rintro _ t ⟨rfl, hfull, ht, hm⟩
    have hsame : t.setInode i (fun x ↦ { x with dinode := { x.dinode with
        directBlocks := Function.update x.dinode.directBlocks bn 0 } }) = t := by
      apply setInode_same
      rw [ht.itable]
      have hupdate := Function.update_eq_self bn (s.itable.inodes i).dinode.directBlocks
      rw [hzero] at hupdate
      rw [hupdate]
    refine delivers_modify_bind (delivers_gets ?_)
    rw [hsame, ht.itable]
    exact ⟨ht, hm, .inr ⟨hunknown, hzero, hfull⟩⟩
  · next hne =>
    refine delivers_gets ⟨.refl h.placed, .refl s, .inl ⟨⟨?_, .inl bn.isLt⟩, hblock.symm⟩⟩
    rw [hblock]
    exact hne

/-- `bmap` of a block in the indirect block. -/
theorem bmapIndirect_looks (h : Readable s i) {bn : Nat} (hbn : NUM_DIRECT_BLOCKS ≤ bn)
    (hX : ¬ Known s (s.itable.inodes i).dinode bn → ¬ Full s → X)
    (hZ : Z → s.log.outstanding < 1) :
    Delivers (looks X Z) (bmapIndirect i (bn - NUM_DIRECT_BLOCKS)) s fun a t ↦
      Undisturbed s t ∧ SameMemory s t ∧
      (Known s (s.itable.inodes i).dinode bn ∧ a = blockOf s (s.itable.inodes i).dinode bn ∨
        ¬ Known s (s.itable.inodes i).dinode bn ∧ a = 0 ∧ Full s) := by
  have hhigh : ¬ bn < NUM_DIRECT_BLOCKS := Nat.not_lt.mpr hbn
  by_cases hzero : (s.itable.inodes i).dinode.indirectBlock = 0
  · have hunknown : ¬ Known s (s.itable.inodes i).dinode bn := by
      intro hk
      apply hk.1
      rw [blockOf, dif_neg hhigh, if_pos hzero]
    refine delivers_gets_bind ?_
    dsimp only
    rw [if_pos hzero, h.device]
    refine delivers_bind (allocateBlock_looks h.placed (hX hunknown) hZ h.blockRange h.bitmap) ?_
    rintro _ t ⟨rfl, hfull, ht, hm⟩
    have hsame : t.setInode i (fun x ↦ { x with dinode := { x.dinode with
        indirectBlock := 0 } }) = t := by
      apply setInode_same
      rw [ht.itable, ← hzero]
    refine delivers_modify_bind (delivers_gets_bind ?_)
    rw [hsame, ht.itable, if_pos hzero]
    exact delivers_pure ⟨ht, hm, .inr ⟨hunknown, rfl, hfull⟩⟩
  · have hblock : blockOf s (s.itable.inodes i).dinode bn =
        getU32 (view s (s.itable.inodes i).dinode.indirectBlock)
          (4 * (bn - NUM_DIRECT_BLOCKS)) := by
      rw [blockOf, dif_neg hhigh, if_neg hzero]
    refine delivers_gets_bind ?_
    dsimp only
    rw [if_neg hzero]
    refine delivers_gets_bind ?_
    rw [if_neg hzero, h.device]
    refine peek h.placed (h.indirect hzero) fun bp t ht hm ↦ ?_
    refine delivers_gets_bind ?_
    rw [ht.buffer]
    dsimp only
    have hdata : (slot s (s.itable.inodes i).dinode.indirectBlock).isSome = true →
        (entry s (s.itable.inodes i).dinode.indirectBlock).2.data =
          view s (s.itable.inodes i).dinode.indirectBlock := by
      intro hsome
      obtain ⟨p, hp⟩ := Option.isSome_iff_exists.mp hsome
      rw [entry, view, hp]
      rfl
    split
    · next haddress =>
      have hunknown : ¬ Known s (s.itable.inodes i).dinode bn := by
        rintro ⟨hne, hlow | hsome⟩
        · exact hhigh hlow
        · rw [hblock, ← hdata hsome] at hne
          exact hne haddress
      have hdev : s.log.device = t.log.device := by rw [ht.log]
      rw [hdev]
      have hsb := ht.superBlock
      have hfull := ht.full_iff (h.apart hzero)
      refine delivers_bind (allocateBlock_looks ht.placed (fun hf ↦ hX hunknown (mt hfull.mpr hf))
        (by rw [ht.log]; exact hZ) (by rw [hsb]; exact h.blockRange) ?_) ?_
      · rw [hsb]
        exact fun c hc ↦ ht.settled (h.apart hzero c hc) (h.bitmap c hc)
      rintro _ u ⟨rfl, hf, hu, hmu⟩
      have hsu := ht.undisturbed hu
      have hsame : u.setBuffer bp (fun x ↦
          { x with data := putU32 x.data (4 * (bn - NUM_DIRECT_BLOCKS)) 0 }) = u := by
        apply setBuffer_same
        rw [hsu.buffer]
        dsimp only
        rw [← haddress, putU32_getU32_same]
      refine delivers_modify_bind ?_
      rw [hsame, if_neg (by simp)]
      refine delivers_bind hsu.release ?_
      rintro _ w ⟨hw, hmw, hdw⟩
      refine delivers_gets ⟨hw, (hm.trans hmu).trans hmw, .inr ⟨hunknown, ?_, hfull.mp hf⟩⟩
      rw [hdw]
      exact haddress
    · next haddress =>
      have hsome : (slot s (s.itable.inodes i).dinode.indirectBlock).isSome = true := by
        by_contra hnone
        apply haddress
        rw [Option.not_isSome_iff_eq_none] at hnone
        rw [entry, hnone]
        exact getU32_zero _
      rw [hdata hsome, ← hblock] at haddress
      refine delivers_bind ht.release ?_
      rintro _ w ⟨hw, hmw, hdw⟩
      refine delivers_gets ⟨hw, hm.trans hmw, .inl ⟨⟨haddress, .inr hsome⟩, ?_⟩⟩
      rw [hdw, hblock, ← hdata hsome]

/-- `bmap` finds a block that is known, and else allocates one or finds that the disk is full. -/
theorem bmap_looks (h : Readable s i) (bn : UInt32) (hbn : bn.toNat < MAX_FILE)
    (hX : ¬ Known s (s.itable.inodes i).dinode bn.toNat → ¬ Full s → X)
    (hZ : Z → s.log.outstanding < 1) :
    Delivers (looks X Z) (bmap i bn) s fun a t ↦ Undisturbed s t ∧ SameMemory s t ∧
      (Known s (s.itable.inodes i).dinode bn.toNat ∧
          a = blockOf s (s.itable.inodes i).dinode bn.toNat ∨
        ¬ Known s (s.itable.inodes i).dinode bn.toNat ∧ a = 0 ∧ Full s) := by
  unfold bmap
  split
  · next hlow => exact bmapDirect_looks h ⟨bn.toNat, hlow⟩ hX hZ
  · next hhigh =>
    have hbn' : bn.toNat < 12 + 256 := hbn
    have hhigh' : ¬ bn.toNat < 12 := hhigh
    have hin : bn.toNat - NUM_DIRECT_BLOCKS < NUM_INDIRECT_BLOCKS := by
      change bn.toNat - 12 < 256
      omega
    exact delivers_assert_bind hin (bmapIndirect_looks h (Nat.not_lt.mp hhigh) hX hZ)

end Inode
end

/-! ### Reads -/

/-- How many of `n` bytes of a file `bmap` finds before the first block that it does not find. -/
def found (s : State) (d : DiskInode) (offset : UInt32) (n : Nat) : Nat :=
  extent (knownByte s d) offset.toNat n

/-- The length that `Inode::read` has clipped to the size of the file. -/
def clipped (size offset length : UInt32) : Nat :=
  if offset > size ∨ offset + length < offset then 0
  else if offset + length > size then (size - offset).toNat else length.toNat

/-- What a read of `n` bytes of a file leaves behind: the bytes that were found and that have a
place are copied, and nothing else has changed. -/
structure HasRead (s : State) (d : DiskInode) (userDst : Bool) (dst : UInt64) (offset : UInt32)
    (n : Nat) (len : Int32) (t : State) : Prop where
  undisturbed : Undisturbed s t
  copied : Copied s userDst dst (fun k ↦ fileByte s d (offset.toNat + k))
    (reach s userDst dst (found s d offset n)) t
  result : len = if reach s userDst dst (found s d offset n) = found s d offset n then
    (UInt32.ofNat (found s d offset n)).toInt32 else -1
  short : reach s userDst dst (found s d offset n) = found s d offset n →
    found s d offset n = n ∨ Full s

section

variable {X Z : Prop} {s t u : State} {i m n : Nat} {userDst : Bool} {dst : UInt64}
  {offset length : UInt32} {d : DiskInode} {f : Nat → UInt8}

theorem found_of_unknown (h : ¬ Known s d (offset.toNat / BLOCK_SIZE)) :
    found s d offset n = 0 := extent_of_none (if_neg h)

theorem found_le (s : State) (d : DiskInode) (offset : UInt32) (n : Nat) :
    found s d offset n ≤ n := extent_le _ _ _

theorem isSome_knownByte {o : Nat} : (knownByte s d o).isSome ↔ Known s d (o / BLOCK_SIZE) := by
  unfold knownByte
  split <;> simpa

/-- The bytes before `found` are in known blocks. -/
theorem known_of_lt_found {k : Nat} (h : k < found s d offset n) :
    Known s d ((offset.toNat + k) / BLOCK_SIZE) :=
  isSome_knownByte.mp (isSome_of_lt_extent h)

/-- The byte behind those that are found is in no known block. -/
theorem unknown_of_found_lt (h : found s d offset n < n) :
    ¬ Known s d ((offset.toNat + found s d offset n) / BLOCK_SIZE) :=
  fun hk ↦ not_isSome_extent h (isSome_knownByte.mpr hk)

theorem slice_getD (data : Block) {o len k : Nat} (h : k < len) :
    (Inode.slice data o len).getD k 0 = byteAt data (o + k) := by
  rw [List.getD_eq_getElem?_getD, Inode.slice, List.getElem?_map, List.getElem?_range h]
  rfl

/-- The bytes of a file in one block. -/
theorem fileByte_of_block {o k : Nat} (h : o % BLOCK_SIZE + k < BLOCK_SIZE) :
    fileByte s d (o + k) = byteAt (view s (blockOf s d (o / BLOCK_SIZE))) (o % BLOCK_SIZE + k) := by
  have h' : o % 1024 + k < 1024 := h
  have hdiv : (o + k) / BLOCK_SIZE = o / BLOCK_SIZE := by
    change (o + k) / 1024 = o / 1024
    omega
  have hmod : (o + k) % BLOCK_SIZE = o % BLOCK_SIZE + k := by
    change (o + k) % 1024 = o % 1024 + k
    omega
  rw [fileByte, hdiv, hmod]

namespace Inode

/-- The loop of `read` from any of its rounds on. -/
theorem readFrom_looks (h : Readable s i) (hd : (s.itable.inodes i).dinode = d)
    (hu : userDst = true → UserBelow s) (hend : offset.toNat + length.toNat ≤ d.size.toNat)
    (hX : reach s userDst dst (found s d offset length.toNat) = found s d offset length.toNat →
      found s d offset length.toNat < length.toNat → ¬ Full s → X)
    (hZ : Z → s.log.outstanding < 1) (tot : UInt32) (ht : Undisturbed s t)
    (hc : Copied s userDst dst (fun k ↦ fileByte s d (offset.toNat + k)) tot.toNat t)
    (hreach : tot.toNat ≤ reach s userDst dst (found s d offset length.toNat))
    (hn : length.toNat ≤ n + tot.toNat) :
    Delivers (looks X Z) (readFrom i userDst length n (dst + UInt64.ofNat tot.toNat) (offset + tot)
      tot) t (HasRead s d userDst dst offset length.toNat) := by
  have hsize : d.size.toNat ≤ 268 * 1024 := hd ▸ h.size
  have hB := found_le s d offset length.toNat
  have hR := reach_le s userDst dst (found s d offset length.toNat)
  -- the loop ends behind the last byte, or before a block that is not found
  have hstop : ∀ (tot : UInt32) v, Undisturbed s v →
      Copied s userDst dst (fun k ↦ fileByte s d (offset.toNat + k)) tot.toNat v →
      tot.toNat = found s d offset length.toNat →
      tot.toNat ≤ reach s userDst dst (found s d offset length.toNat) →
      (tot.toNat = length.toNat ∨ Full s) →
      HasRead s d userDst dst offset length.toNat tot.toInt32 v := by
    intro tot v hv hcv hfound hle hfull
    have hall : reach s userDst dst (found s d offset length.toNat) =
        found s d offset length.toNat := by omega
    refine ⟨hv, ?_, ?_, fun _ ↦ ?_⟩
    · rw [hall, ← hfound]
      exact hcv
    · rw [if_pos hall, ← hfound, UInt32.ofNat_toNat]
    · rw [← hfound]
      exact hfull
  induction n generalizing tot t with
  | zero =>
    have hall : tot.toNat = length.toNat := by omega
    exact delivers_pure (hstop tot t ht hc (by omega) hreach (.inl hall))
  | succ n ih =>
    unfold readFrom
    split
    · next hlt =>
      have hlt' := UInt32.lt_iff_toNat_lt.mp hlt
      have hoff : (offset + tot).toNat = offset.toNat + tot.toNat := by
        rw [UInt32.toNat_add]
        exact Nat.mod_eq_of_lt (by omega)
      have hbn : ((offset + tot) / UInt32.ofNat BLOCK_SIZE).toNat =
          (offset.toNat + tot.toNat) / 1024 := by
        rw [UInt32.toNat_div, hoff]
        rfl
      have hdt : (t.itable.inodes i).dinode = d := by rw [ht.itable, hd]
      have hunknown : ¬ Known s d ((offset.toNat + tot.toNat) / 1024) →
          tot.toNat = found s d offset length.toNat := by
        intro hk
        by_contra hne
        have hlow : tot.toNat < found s d offset length.toNat := by omega
        exact hk (known_of_lt_found hlow)
      have hbmap := bmap_looks (X := X) (Z := Z) (ht.readable h)
        ((offset + tot) / UInt32.ofNat BLOCK_SIZE)
        (by rw [hbn]; change _ < 268; omega)
        (fun hk hf ↦ by
          rw [hdt, hbn, ht.known_iff] at hk
          have hfound := hunknown hk
          exact hX (by omega) (by omega) (mt ht.full_iff.mpr hf))
        (by rw [ht.log]; exact hZ)
      refine delivers_bind hbmap ?_
      rintro address u ⟨htu, hm, hcase⟩
      rw [hdt, hbn, ht.known_iff, ht.blockOf, ht.full_iff] at hcase
      have hsu := ht.trans htu
      have hcu := hc.of_memory hm
      rcases hcase with ⟨hk, rfl⟩ | ⟨hk, rfl, hf⟩
      · rw [if_neg hk.1]
        refine delivers_gets_bind ?_
        have hdev : (u.itable.inodes i).device = u.log.device := by
          rw [hsu.itable, hsu.log, h.device]
        rw [hdev]
        subst hd
        refine look hsu.placed (hsu.settled (h.blocks _ hk)) fun bp v buf hv hmv hdata ↦ ?_
        refine delivers_gets_bind ?_
        obtain ⟨m, hmdef⟩ : ∃ m, m = min (length - tot).toNat
          (BLOCK_SIZE - (offset + tot).toNat % BLOCK_SIZE) := ⟨_, rfl⟩
        have hm1024 : m = min (length.toNat - tot.toNat)
            (1024 - (offset.toNat + tot.toNat) % 1024) := by
          rw [hmdef, hoff, UInt32.toNat_sub_of_le _ _ (UInt32.le_of_lt hlt)]
        rw [← hmdef, hv.buffer, hdata, hsu.view]
        generalize hblock : view s (blockOf s (s.itable.inodes i).dinode
          ((offset.toNat + tot.toNat) / 1024)) = block
        have hlen : (slice block ((offset + tot).toNat % BLOCK_SIZE) m).length = m := by
          rw [slice, List.length_map, List.length_range]
        have hsv := hm.trans hmv
        have hbelow : userDst = true → UserBelow v := fun hb ↦ (hc.below (hu hb)).of_memory hsv
        have hcopy := eitherCopyout_copies (X := X) (Z := Z) (dst + UInt64.ofNat tot.toNat)
          (slice block ((offset + tot).toNat % BLOCK_SIZE) m) hbelow (by omega)
        refine delivers_bind hcopy ?_
        rintro ok w ⟨hw, hok, hcw⟩
        rw [hlen, reach_congr hsv, hc.reach] at hok hcw
        have hvw := hv.undisturbed (.of_cache hv.placed hw)
        refine delivers_bind hvw.release ?_
        rintro _ x ⟨hx, hmx, -⟩
        have hsx := hsu.trans hx
        -- the bytes of this round
        have hdst : userDst = true →
            (dst + UInt64.ofNat tot.toNat).toNat = dst.toNat + tot.toNat := fun hb ↦
          toNat_add_of_reach (hu hb) hreach tot.toNat_lt hb
        have hr := reach_le s userDst (dst + UInt64.ofNat tot.toNat) m
        have hbytes : ∀ k < reach s userDst (dst + UInt64.ofNat tot.toNat) m,
            (slice block ((offset + tot).toNat % BLOCK_SIZE) m).getD k 0 =
              fileByte s (s.itable.inodes i).dinode (offset.toNat + (tot.toNat + k)) := by
          intro k hkr
          have hin : (offset.toNat + tot.toNat) % BLOCK_SIZE + k < BLOCK_SIZE := by
            change (offset.toNat + tot.toNat) % 1024 + k < 1024
            omega
          rw [slice_getD block (by omega), ← Nat.add_assoc, fileByte_of_block hin, hoff]
          change _ = byteAt (view s (blockOf s _ ((offset.toNat + tot.toNat) / 1024))) _
          rw [hblock]
        have hcx := (hc.append (hcw.after_memory hsv) hdst hbytes (by omega)).of_memory hmx
        have hfound : tot.toNat + m ≤ found s (s.itable.inodes i).dinode offset length.toNat := by
          by_contra hlow
          have hless : found s (s.itable.inodes i).dinode offset length.toNat <
              length.toNat := by omega
          apply unknown_of_found_lt hless
          have hsame : (offset.toNat + found s (s.itable.inodes i).dinode offset length.toNat) /
              1024 = (offset.toNat + tot.toNat) / 1024 := by omega
          change Known s _ ((offset.toNat + _) / 1024)
          rwa [hsame]
        have hsplit : reach s userDst dst (found s (s.itable.inodes i).dinode offset length.toNat) =
            tot.toNat + reach s userDst (dst + UInt64.ofNat tot.toNat)
              (found s (s.itable.inodes i).dinode offset length.toNat - tot.toNat) := by
          have hsum : tot.toNat + (found s (s.itable.inodes i).dinode offset length.toNat -
              tot.toNat) = found s (s.itable.inodes i).dinode offset length.toNat := by omega
          rw [← reach_add (by rwa [hsum]) hdst, hsum]
        have hpart := reach_of_le s userDst (dst + UInt64.ofNat tot.toNat)
          (m := m) (n := found s (s.itable.inodes i).dinode offset length.toNat - tot.toNat)
          (by omega)
        split
        · next htrue =>
          rw [htrue, eq_comm, decide_eq_true_iff] at hok
          rw [hok] at hcx
          have hnext : (tot + UInt32.ofNat m).toNat = tot.toNat + m := by
            rw [UInt32.toNat_add, UInt32.toNat_ofNat', Nat.mod_eq_of_lt (a := m) (by omega)]
            exact Nat.mod_eq_of_lt (by omega)
          have hround := ih (tot + UInt32.ofNat m) hsx (hnext ▸ hcx) (by omega) (by omega)
          rw [hnext, UInt64.ofNat_add, ← UInt64.add_assoc, ← UInt32.add_assoc] at hround
          exact hround
        · next hfalse =>
          have hless : ¬ reach s userDst (dst + UInt64.ofNat tot.toNat) m = m := by
            rw [hok] at hfalse
            simpa using hfalse
          have hR' : reach s userDst dst
              (found s (s.itable.inodes i).dinode offset length.toNat) =
              tot.toNat + reach s userDst (dst + UInt64.ofNat tot.toNat) m := by omega
          refine delivers_pure ⟨hsx, ?_, ?_, fun hall ↦ ?_⟩
          · rw [hR']
            exact hcx
          · rw [if_neg (by omega)]
          · omega
      · rw [if_pos rfl]
        exact delivers_pure (hstop tot u hsu hcu (hunknown hk) hreach (.inr hf))
    · next hge =>
      rw [UInt32.lt_iff_toNat_lt] at hge
      exact delivers_pure (hstop tot t ht hc (by omega) hreach (.inl (by omega)))

/-- `read` copies the bytes up to the first block that it does not find. -/
theorem read_looks (h : Readable s i) (hd : (s.itable.inodes i).dinode = d) (userDst : Bool)
    (dst : UInt64) (offset length : UInt32) (hu : userDst = true → UserBelow s)
    (hX : reach s userDst dst (found s d offset (clipped d.size offset length)) =
        found s d offset (clipped d.size offset length) →
      found s d offset (clipped d.size offset length) < clipped d.size offset length →
        ¬ Full s → X)
    (hZ : Z → s.log.outstanding < 1) :
    Delivers (looks X Z) (read i userDst dst offset length) s
      (HasRead s d userDst dst offset (clipped d.size offset length)) := by
  have hlen := h.size
  rw [hd] at hlen
  have hzero : ∀ v, Undisturbed s v → SameMemory s v →
      HasRead s d userDst dst offset 0 0 v := by
    intro v hv hm
    have hfound : found s d offset 0 = 0 := rfl
    have hreach : reach s userDst dst 0 = 0 := Nat.le_zero.mp (reach_le s userDst dst 0)
    refine ⟨hv, ?_, ?_, fun _ ↦ .inl rfl⟩
    · rw [hfound, hreach]
      exact (Copied.refl s userDst dst _).of_memory hm
    · rw [hfound, hreach, if_pos rfl]
      rfl
  refine delivers_gets_bind ?_
  rw [hd]
  by_cases hout : offset > d.size ∨ offset + length < offset
  · rw [if_pos hout, clipped, if_pos hout]
    exact delivers_pure (hzero s (.refl h.placed) (.refl s))
  · rw [if_neg hout]
    have hoff : offset.toNat ≤ d.size.toNat :=
      UInt32.le_iff_toNat_le.mp (UInt32.not_lt.mp fun hlt ↦ hout (.inl hlt))
    have hclip : clipped d.size offset length =
        (if offset + length > d.size then d.size - offset else length).toNat := by
      rw [clipped, if_neg hout, apply_ite UInt32.toNat]
    have hend : offset.toNat + (if offset + length > d.size then d.size - offset
        else length).toNat ≤ d.size.toNat := by
      split
      · rw [UInt32.toNat_sub_of_le _ _ (UInt32.le_iff_toNat_le.mpr hoff)]
        omega
      · next hle =>
        have hsum := UInt32.le_iff_toNat_le.mp (UInt32.not_lt.mp hle)
        have hwrap := UInt32.le_iff_toNat_le.mp (UInt32.not_lt.mp fun hlt ↦ hout (.inr hlt))
        have hz := offset.toNat_lt
        have hz' := length.toNat_lt
        rw [UInt32.toNat_add] at hsum hwrap
        omega
    rw [hclip] at hX ⊢
    have hloop := readFrom_looks (X := X) (Z := Z) h hd hu hend hX hZ 0
      (.refl h.placed) (.refl s userDst dst _) (Nat.zero_le _) le_rfl
    rwa [UInt32.add_zero, show dst + UInt64.ofNat (0 : UInt32).toNat = dst from UInt64.add_zero dst]
      at hloop

end Inode
end
end Orfos.Fs
