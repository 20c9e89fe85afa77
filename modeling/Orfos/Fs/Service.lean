import Orfos.Base.Simulation
import Orfos.Fs.FileWrite

/-!
# Serving files

Processes that read and write open files, one call at a time, in any order. The files are those of a
healthy file system and stay within their direct blocks. For the processes the file system is a store
of lists of bytes: a write overwrites a part of a list at the offset of the file, a read copies a part
of it to memory, and nobody sees anything else change.
-/

namespace Orfos.Fs

open Orfos.Base Orfos.Base.Traced Orfos.Lib Orfos.Disk

/-- The file system, and what the open files have as their inodes and offsets. -/
structure Service where
  world : State
  ip : Nat → Nat
  offset : Nat → UInt32

/-- What a process does: it calls `read` or `write` with an open file, or works on its memory. -/
inductive Deed where
  | read (f : Nat) (address : UInt64) (n : Int32)
  | write (f : Nat) (address : UInt64) (n : Int32)
  | compute

/-- A call runs to its end, and returns a result. -/
inductive Service.Step (x : Service) : Deed × Int32 → Service → Prop where
  | read (f : Nat) (address : UInt64) (n : Int32) (len : Int32) (t : State)
    (run : Runs Room (Inode.readFile (x.ip f) address (x.offset f) n.toUInt32) x.world len t) :
    Service.Step x (.read f address n, len) { x with
      world := t
      offset := Function.update x.offset f
        (if len > 0 then x.offset f + len.toUInt32 else x.offset f) }
  | write (f : Nat) (address : UInt64) (n : Int32) (r : Int32 × UInt32) (t : State)
    (run : Runs Room (Inode.writeFile (x.ip f) address n (x.offset f)) x.world r t) :
    Service.Step x (.write f address n, r.1) { x with
      world := t
      offset := Function.update x.offset f r.2 }
  | compute (user : Nat → Option (Nat → UInt8)) (below : ∀ n, (user n).isSome → n < 2 ^ 26) :
    Service.Step x (.compute, 0) { x with world := { x.world with user := user } }

/-- Reads have a count that is not negative, and writes stay in the direct blocks. -/
def Service.Permits (x : Service) : Deed → Prop
  | .read _ _ n => 0 ≤ n.toInt
  | .write f _ n => (x.offset f).toNat + n.toInt.toNat ≤ NUM_DIRECT_BLOCKS * BLOCK_SIZE
  | .compute => True

/-- What the processes have to do with: their memory, the bytes of the files, and the offsets. -/
structure Store where
  memory : Nat → Option UInt8
  files : UInt32 → List UInt8
  offset : Nat → Nat

/-- What the deeds mean for a store, where `inum` are the files that are open. -/
inductive Store.Step (inum : Nat → UInt32) (σ : Store) : Deed × Int32 → Store → Prop where
  /-- The bytes at the offset are copied, up to an address that is not there. -/
  | read (f : Nat) (address : UInt64) (n : Int32) (xs : List UInt8) (k : Nat)
    (bytes : xs = ((σ.files (inum f)).drop (σ.offset f)).take n.toInt.toNat) (le : k ≤ xs.length)
    (short : k < xs.length → σ.memory (address.toNat + k) = none) :
    Store.Step inum σ (.read f address n, if k = xs.length then Int32.ofNat k else -1) { σ with
      memory := fun x ↦ if address.toNat ≤ x ∧ x < address.toNat + k then xs[x - address.toNat]?
        else σ.memory x
      offset := Function.update σ.offset f
        (if k = xs.length then σ.offset f + k else σ.offset f) }
  /-- Bytes from memory are written at the offset. -/
  | write (f : Nat) (address : UInt64) (n : Int32) (xs : List UInt8) (le : xs.length ≤ n.toInt.toNat)
    (bytes : ∀ x < xs.length, σ.memory (address.toNat + x) = xs[x]?) :
    Store.Step inum σ (.write f address n, if (xs.length : Int) = n.toInt then n else -1) { σ with
      files := put σ.files (inum f) (σ.offset f) xs
      offset := Function.update σ.offset f (σ.offset f + xs.length) }
  | compute (memory : Nat → Option UInt8) : Store.Step inum σ (.compute, 0) { σ with
      memory := memory }

namespace Service

/-- The inode number of an open file. -/
def inum (x : Service) (f : Nat) : UInt32 := (x.world.itable.inodes (x.ip f)).inum

/-- The size of an open file. -/
def size (x : Service) (f : Nat) : UInt32 := (x.world.itable.inodes (x.ip f)).dinode.size

/-- What the processes can tell about the service. -/
def store (x : Service) : Store where
  memory := x.world.userByte
  files m := if m < x.world.superBlock.numInodes then files x.world.superBlock x.world.disk m else []
  offset f := (x.offset f).toNat

/-- The open files can be read and written, and different inodes have different numbers. -/
structure Inv (x : Service) : Prop where
  writable : ∀ f, Writable x.world (x.ip f)
  apart : ∀ f g, x.ip g ≠ x.ip f → x.inum g ≠ x.inum f
  offset : ∀ f, x.offset f ≤ x.size f
  short : ∀ f, (x.size f).toNat ≤ NUM_DIRECT_BLOCKS * BLOCK_SIZE
  below : UserBelow x.world

end Service

section

variable {s t : State} {i j : Nat} {n : Int32} {offset : UInt32} {address : UInt64} {k : Nat}
  {r : Int32 × UInt32}

/-! ### Reads -/

/-- Nothing is cached while nobody works on the file system. -/
theorem Resting.slot (h : Resting s) (b : UInt32) : slot s b = none := by
  cases hb : Fs.slot s b with
  | none => rfl
  | some p =>
    obtain ⟨i, buf⟩ := p
    simpa using (h.calm.cached b i buf hb).1

/-- A file can be written after something that has not changed the file system. -/
theorem Writable.undisturbed (h : Writable s i) (hu : Undisturbed s t) : Writable t i := by
  have hview := hu.view
  have hlog := hu.log
  have hnode : t.itable.inodes i = s.itable.inodes i := by rw [hu.itable]
  have hsb := hu.superBlock
  obtain ⟨⟨hcalm, hheader, hout, hcommit, hdisk, hroom⟩, ⟨hh, hopen, hlayout, hdev, hinum, hslot⟩,
    hvalid, hfree, hcount, hwrap⟩ := h
  have hcalm' : Calm t ∅ ∅ := by
    refine ⟨hu.placed, fun b i buf hb ↦ ?_, fun b hb ↦ ?_⟩
    · rw [hu.slots] at hb
      exact hcalm.cached b i buf hb
    · rw [hu.slots] at hb
      exact hcalm.absent b hb
  have hrest : Resting t := by
    refine ⟨hcalm', ?_, ?_, ?_, ?_, ?_⟩ <;> rw [hlog]
    · exact hheader
    · exact hout
    · exact hcommit
    · rw [hu.disk]
      exact hdisk
    · exact hroom
  refine ⟨hrest, ⟨?_, hrest.toOpen, hlayout.congr ?_ ?_ hsb, ?_, ?_, ?_⟩, ?_, ?_, ?_, ?_⟩
  · rwa [hsb, hview]
  · rw [hlog]
  · rw [hlog]
  · rw [hnode, hlog]
    exact hdev
  · rw [hnode, hsb]
    exact hinum
  · rw [hnode, dinodeOf, hview, hsb]
    exact hslot
  · rw [hnode]
    exact hvalid
  · rw [hnode]
    exact hfree
  · rw [hnode]
    exact hcount
  · rw [hsb]
    exact hwrap

/-- A file that can be written can be locked. -/
theorem Writable.lockable (h : Writable s i) : Lockable s i := by
  have hslot : ∀ b, slot (s.setInode i (loaded s)) b = none := h.rest.slot
  have hnode : (s.setInode i (loaded s)).itable.inodes i = loaded s (s.itable.inodes i) :=
    Function.update_self ..
  have hdinode : (loaded s (s.itable.inodes i)).dinode = (s.itable.inodes i).dinode := by
    rw [loaded, h.valid, if_pos rfl]
  have hunheld : ∀ b, Unheld (s.setInode i (loaded s)) b := fun b j buf hb ↦ by
    cases (hslot b).symm.trans hb
  have hsettled : ∀ b, Settled (s.setInode i (loaded s)) b := fun b ↦
    ⟨hunheld b, fun j buf hb ↦ by cases (hslot b).symm.trans hb⟩
  have hlayout := h.present.layout
  have hinum := h.present.inum
  have hslotted : inodeIn s.superBlock (view s) (s.itable.inodes i).inum =
    (s.itable.inodes i).dinode := h.present.slot
  refine ⟨h.free, h.counted, fun hv ↦ ?_, ⟨h.rest.calm.placed, ?_, ?_, fun _ _ ↦ hsettled _,
    fun _ ↦ hunheld _, fun _ _ ↦ hsettled _, fun hne b hb he ↦ ?_, h.wrap⟩⟩
  · rw [h.valid] at hv
    cases hv
  · rw [hnode]
    exact h.present.device
  · rw [hnode, hdinode, ← hslotted]
    exact h.present.healthy.size _ hinum
  · -- the indirect block is a data block
    rw [hnode, hdinode, ← hslotted] at hne he
    have hdata := (h.present.healthy.data (.indirect _) hinum hne).1
    have hplace := (hlayout.bblock_toNat hb).2
    rw [place, ← he] at hdata
    exact absurd hplace (Nat.not_lt.mpr hdata)

/-- `File::read` does not change the file system. -/
theorem Inode.readFile_keeps {X Z : Prop} (h : Writable s i) (hu : UserBelow s) (address : UInt64)
    (offset length : UInt32)
    (hX : ¬ Ends s (s.itable.inodes i).dinode true address offset
      (clipped (s.itable.inodes i).dinode.size offset length) → X)
    (hZ : Z → s.log.outstanding < 1) :
    Delivers (looks X Z) (readFile i address offset length) s fun _ t ↦ Undisturbed s t := by
  have hl := h.lockable
  have hdinode : (loaded s (s.itable.inodes i)).dinode = (s.itable.inodes i).dinode := by
    rw [loaded, h.valid, if_pos rfl]
  unfold readFile
  refine delivers_bind (lock_looks hl) ?_
  rintro _ t ⟨ht, hm⟩
  have halike : Alike s t := ⟨hm, ht.slots, ht.disk, ht.superBlock⟩
  have hnode : t.itable.inodes i = loaded s (s.itable.inodes i) := by
    rw [ht.itable]
    exact Function.update_self ..
  have hread := read_looks (X := X) (Z := Z) (ht.readable hl.readable) (by rw [hnode, hdinode]) true
    address offset length (fun _ ↦ hu.of_memory hm) (fun hall hlt hfull ↦ hX fun hends ↦ ?_)
    (by rw [ht.log]; exact hZ)
  · refine delivers_bind hread ?_
    rintro len u ⟨htu, -, -, -⟩
    have hnodeu : u.itable.inodes i = loaded s (s.itable.inodes i) := by rw [htu.itable, hnode]
    have hlocked : (u.itable.inodes i).locked = true := by rw [hnodeu, loaded]
    have hcount : 1 ≤ (u.itable.inodes i).refCount := by
      rw [hnodeu]
      exact h.counted
    have hunlock : Delivers (looks X Z) (unlock i) u fun _ t ↦
        t = u.setInode i fun x ↦ { x with locked := false } := by
      refine delivers_bind (R := fun _ t ↦ t = u) (delivers_call trivial rfl) ?_
      rintro _ v rfl
      exact delivers_assert_bind hlocked (delivers_assert_bind hcount (delivers_modify rfl))
    refine delivers_bind hunlock ?_
    rintro _ v rfl
    -- the lock is free as it was before
    have hlast := (ht.trans htu).setInode (j := i) fun x ↦ { x with locked := false }
    have hsame : (s.setInode i (loaded s)).setInode i (fun x ↦ { x with locked := false }) = s := by
      have hfree : { loaded s (s.itable.inodes i) with locked := false } = s.itable.inodes i := by
        rw [loaded, h.valid, if_pos rfl, ← h.free, ← h.valid]
      simp only [State.setInode, Function.update_self, Function.update_idem]
      rw [hfree, Function.update_eq_self]
    rw [hsame] at hlast
    exact delivers_pure hlast
  · rw [halike.found, reach_congr hm] at hall
    rw [halike.found] at hlt
    rw [halike.full_iff] at hfull
    obtain he | he | he := hends
    · omega
    · omega
    · exact hfull he

/-- The blocks of a file in its direct blocks are there, with its bytes. -/
theorem Writable.byte (h : Writable s i) {x : Nat}
    (hshort : (s.itable.inodes i).dinode.size.toNat ≤ NUM_DIRECT_BLOCKS * BLOCK_SIZE)
    (hx : x < (s.itable.inodes i).dinode.size.toNat) :
    Known s (s.itable.inodes i).dinode (x / BLOCK_SIZE) ∧
      (files s.superBlock s.disk (s.itable.inodes i).inum)[x]? =
        some (fileByte s (s.itable.inodes i).dinode x) := by
  have hshort' : (s.itable.inodes i).dinode.size.toNat ≤ 12288 := hshort
  have hlow : x / 1024 < 12 := by omega
  have hslot : inodeIn s.superBlock (view s) (s.itable.inodes i).inum =
    (s.itable.inodes i).dinode := h.present.slot
  have hblock : place s.superBlock (view s) (.data (s.itable.inodes i).inum (x / BLOCK_SIZE)) =
      blockOf s (s.itable.inodes i).dinode (x / BLOCK_SIZE) := by
    rw [place, hslot, blockIn, dif_pos hlow, blockOf, dif_pos hlow]
  have hne := h.present.healthy.whole _ h.present.inum (x / BLOCK_SIZE)
    (by rw [hslot]; exact Nat.lt_of_le_of_lt (Nat.div_mul_le_self x _) hx)
  rw [hblock] at hne
  refine ⟨⟨hne, .inl hlow⟩, ?_⟩
  have hbyte := h.present.healthy.getElem?_files h.present.inum (by rwa [hslot])
  rw [hblock, h.rest.view] at hbyte
  rw [hbyte, fileByte, h.rest.view]

/-- What a read of a file finds is a part of its list. -/
theorem Writable.reads (h : Writable s i)
    (hshort : (s.itable.inodes i).dinode.size.toNat ≤ NUM_DIRECT_BLOCKS * BLOCK_SIZE)
    (ho : offset ≤ (s.itable.inodes i).dinode.size) (hn : 0 ≤ n.toInt) {xs : List UInt8}
    (hxs : xs = ((files s.superBlock s.disk (s.itable.inodes i).inum).drop offset.toNat).take
      n.toInt.toNat) :
    clipped (s.itable.inodes i).dinode.size offset n.toUInt32 = xs.length ∧
      found s (s.itable.inodes i).dinode offset xs.length = xs.length ∧
        ∀ x < xs.length, xs[x]? = some (fileByte s (s.itable.inodes i).dinode (offset.toNat + x)) := by
  have hshort' : (s.itable.inodes i).dinode.size.toNat ≤ 12288 := hshort
  have ho' := UInt32.le_iff_toNat_le.mp ho
  have hslot : inodeIn s.superBlock s.disk (s.itable.inodes i).inum =
      (s.itable.inodes i).dinode := by
    rw [← h.rest.view]
    exact h.present.slot
  have hlen : xs.length = min n.toInt.toNat
      ((s.itable.inodes i).dinode.size.toNat - offset.toNat) := by
    rw [hxs, List.length_take, List.length_drop, length_files, hslot]
  have hn31 : n.toInt.toNat < 2 ^ 31 := by
    have hlt := n.toInt_lt
    omega
  have hlength := toNat_length hn
  have hsum : (offset + n.toUInt32).toNat = offset.toNat + n.toInt.toNat := by
    rw [UInt32.toNat_add, hlength]
    omega
  refine ⟨?_, ?_, fun x hx ↦ ?_⟩
  · have hbehind : ¬ (offset > (s.itable.inodes i).dinode.size ∨ offset + n.toUInt32 < offset) := by
      rw [not_or, gt_iff_lt, UInt32.lt_iff_toNat_lt, UInt32.lt_iff_toNat_lt, hsum]
      omega
    rw [clipped, if_neg hbehind, hlen]
    split
    · next hgt =>
      rw [gt_iff_lt, UInt32.lt_iff_toNat_lt, hsum] at hgt
      rw [UInt32.toNat_sub_of_le _ _ ho]
      omega
    · next hle =>
      rw [gt_iff_lt, UInt32.lt_iff_toNat_lt, hsum] at hle
      rw [hlength]
      omega
  · refine extent_eq_iff.mpr fun x hx ↦ isSome_knownByte.mpr ?_
    exact (h.byte hshort (by omega)).1
  · rw [hxs, List.getElem?_take_of_lt (by omega), List.getElem?_drop]
    exact (h.byte hshort (by omega)).2

/-- What a read has done in the service. -/
theorem Service.Inv.step_read {x : Service} (h : x.Inv) {f : Nat} {len : Int32}
    (hn : 0 ≤ n.toInt)
    (hrun : Runs Room (Inode.readFile (x.ip f) address (x.offset f) n.toUInt32) x.world len t) :
    Undisturbed x.world t ∧ ∃ xs k, xs = ((files x.world.superBlock x.world.disk (x.inum f)).drop
      (x.offset f).toNat).take n.toInt.toNat ∧ k ≤ xs.length ∧
        (k < xs.length → x.world.userByte (address.toNat + k) = none) ∧
        (len = if k = xs.length then Int32.ofNat k else -1) ∧
        (∀ y, t.userByte y = if address.toNat ≤ y ∧ y < address.toNat + k
          then xs[y - address.toNat]? else x.world.userByte y) ∧
        ∀ m, (t.user m).isSome = (x.world.user m).isSome := by
  have hw := h.writable f
  obtain ⟨xs, hxs⟩ : ∃ xs, xs = ((files x.world.superBlock x.world.disk (x.inum f)).drop
    (x.offset f).toNat).take n.toInt.toNat := ⟨_, rfl⟩
  obtain ⟨hclip, hfound, hbytes⟩ := hw.reads (h.short f) (h.offset f) hn hxs
  obtain ⟨hv, ht, hroom⟩ := hrun
  have hends : Ends x.world (x.world.itable.inodes (x.ip f)).dinode true address (x.offset f)
      (clipped (x.world.itable.inodes (x.ip f)).dinode.size (x.offset f) n.toUInt32) := by
    rw [hclip]
    exact .inl hfound
  have hdinode : (loaded x.world (x.world.itable.inodes (x.ip f))).dinode =
      (x.world.itable.inodes (x.ip f)).dinode := by
    rw [loaded, hw.valid, if_pos rfl]
  have hkeeps := (Inode.readFile_keeps (X := False) (Z := False) hw h.below address
    (x.offset f) n.toUInt32 (fun hno ↦ hno hends) False.elim).keeps id hroom
  have hreads := (Inode.readFile_looks (X := False) (Z := False) hw.lockable h.below hdinode address
    (x.offset f) n.toUInt32 (fun hno ↦ hno hends) False.elim).keeps id hroom
  obtain ⟨-, len', hv', hund⟩ := hkeeps
  obtain ⟨-, len'', hv'', hto⟩ := hreads
  rw [hv] at hv' hv''
  cases hv'
  cases hv''
  rw [ht] at hund hto
  obtain ⟨⟨huser, -, hpages⟩, hresult, -⟩ := hto
  rw [hclip, hfound] at huser hresult
  refine ⟨hund, xs, reach x.world true address xs.length, hxs, reach_le .., fun hlt ↦ ?_, ?_,
    fun y ↦ ?_, hpages⟩
  · rw [reach, if_pos rfl] at hlt ⊢
    have hnone := not_isSome_extent hlt
    rwa [Option.not_isSome_iff_eq_none] at hnone
  · rw [hresult]
    by_cases hall : reach x.world true address xs.length = xs.length
    · rw [if_pos hall, if_pos hall, hall]
      exact UInt32.toInt32_ofNat' ..
    · rw [if_neg hall, if_neg hall]
  · rw [huser]
    have hle := reach_le x.world true address xs.length
    by_cases hin : address.toNat ≤ y ∧ y < address.toNat + reach x.world true address xs.length
    · rw [if_pos ⟨rfl, hin⟩, if_pos hin, hbytes _ (by omega)]
    · rw [if_neg fun hc ↦ hin hc.2, if_neg hin]

/-! ### Writes -/

theorem Wrought.inum (h : Wrought s i address offset n k r t) :
    (t.itable.inodes i).inum = (s.itable.inodes i).inum := by
  have hnode := congrArg (fun u : State ↦ (u.itable.inodes i).inum) h.between
  simpa only [State.setInode, Function.update_self] using hnode

theorem Wrought.superBlock (h : Wrought s i address offset n k r t) :
    t.superBlock = s.superBlock := by
  rw [h.between]

theorem Wrought.source_length : (s.source address k).length = k := by
  rw [State.source, List.length_map, List.length_range]

/-- The size of a file that was written. -/
theorem Wrought.size (h : Wrought s i address offset n k r t) (hs : Writable s i)
    (ho : offset ≤ (s.itable.inodes i).dinode.size) : (t.itable.inodes i).dinode.size.toNat =
      max (s.itable.inodes i).dinode.size.toNat (offset.toNat + k) := by
  have hslot : inodeIn s.superBlock s.disk (s.itable.inodes i).inum =
      (s.itable.inodes i).dinode := by
    rw [← hs.rest.view]
    exact hs.present.slot
  have hslot' : inodeIn s.superBlock t.disk (s.itable.inodes i).inum =
      (t.itable.inodes i).dinode := by
    rw [← h.inum, ← h.superBlock, ← h.writable.rest.view]
    exact h.writable.present.slot
  have hlen := congrArg List.length (h.landed.files _ hs.present.inum)
  rwa [put_self, length_overwrite _ (by rw [length_files, hslot]; exact UInt32.le_iff_toNat_le.mp ho),
    length_files, length_files, hslot, hslot', source_length] at hlen

/-- Other files can be written as before. -/
theorem Wrought.others (h : Wrought s i address offset n k r t) (hj : Writable s j)
    (hne : (s.itable.inodes j).inum ≠ (s.itable.inodes i).inum) :
    t.itable.inodes j = s.itable.inodes j ∧ Writable t j := by
  have hij : j ≠ i := fun he ↦ hne (by rw [he])
  have hnode : t.itable.inodes j = s.itable.inodes j := by
    rw [h.between]
    exact Function.update_of_ne hij ..
  have hlog : t.log = s.log := by
    rw [h.between]
  have hsb := h.superBlock
  have hpresent := hj.present
  refine ⟨hnode, h.writable.rest, ⟨h.writable.present.healthy, h.writable.rest.toOpen,
    h.writable.present.layout, ?_, ?_, ?_⟩, ?_, ?_, ?_, h.writable.wrap⟩
  · rw [hnode, hlog]
    exact hpresent.device
  · rw [hnode, hsb]
    exact hpresent.inum
  · have hslot := hpresent.slot
    rw [dinodeOf, hj.rest.view] at hslot
    have hother := h.landed.others _ hpresent.inum hne
    rw [inodeIn, inodeIn] at hother
    rw [hnode, dinodeOf, h.writable.rest.view, hsb, hother, hslot]
  · rw [hnode]
    exact hj.valid
  · rw [hnode]
    exact hj.free
  · rw [hnode]
    exact hj.counted

/-- The bytes that were written are those in memory. -/
theorem Landed.source_eq {o : Nat} {d : UInt32 → Block} (h : Landed s i address o n.toInt.toNat k d)
    (hu : UserBelow s) {x : Nat} (hx : x < k) :
    s.userByte (address.toNat + x) = (s.source address k)[x]? := by
  have hthere : ∀ y < k, (s.userByte (address + UInt64.ofNat y).toNat).isSome := fun y hy ↦ by
    have hmapped := h.mapped y hy
    rwa [State.sourceByte, if_pos rfl] at hmapped
  -- the first of them is below the end of user memory, so addresses do not wrap around
  have hfirst : address.toNat < 2 ^ 38 := by
    have hzero := hthere 0 (by omega)
    rw [show address + UInt64.ofNat 0 = address from UInt64.add_zero address, State.userByte,
      Option.isSome_map] at hzero
    have hpage : address.toNat / 4096 < 2 ^ 26 := hu _ hzero
    omega
  have hle := h.le
  have hn := n.toInt_lt
  have hsum : (address + UInt64.ofNat x).toNat = address.toNat + x := by
    rw [UInt64.toNat_add, UInt64.toNat_ofNat', Nat.mod_eq_of_lt (a := x) (by omega)]
    omega
  obtain ⟨b, hb⟩ := Option.isSome_iff_exists.mp (hthere x hx)
  rw [State.source, List.getElem?_map, List.getElem?_range hx, Option.map_some, State.sourceBytes,
    State.sourceByte, if_pos rfl, hb, Option.getD_some, ← hsum, hb]

end

/-! ### The store -/

namespace Service

section

variable {x y : Service} {e : Deed × Int32}

/-- A write to the files that there are. -/
theorem put_files {m : UInt32} (hm : m < x.world.superBlock.numInodes) {f o : Nat}
    {xs : List UInt8} : put (files x.world.superBlock x.world.disk) (x.inum f) o xs m =
      put x.store.files (x.inum f) o xs m := by
  have hfiles : ∀ m < x.world.superBlock.numInodes,
      x.store.files m = files x.world.superBlock x.world.disk m := fun m hm ↦ if_pos hm
  by_cases hmf : m = x.inum f
  · subst hmf
    rw [put_self, put_self, hfiles _ hm]
  · rw [put_of_ne hmf, put_of_ne hmf, hfiles m hm]

/-- The offset behind a read of `k` bytes. -/
theorem advance {o : UInt32} {k l : Nat} (hk : o.toNat + k < 2 ^ 31) :
    (if (if k = l then Int32.ofNat k else -1) > 0 then
      o + (if k = l then Int32.ofNat k else -1).toUInt32 else o).toNat =
        if k = l then o.toNat + k else o.toNat := by
  by_cases hl : k = l
  · have hpos : Int32.ofNat k > 0 ↔ 0 < k := Int32.ofNat_lt_iff_lt (by decide) (by omega)
    rw [if_pos hl, if_pos hl]
    by_cases hz : 0 < k
    · have hk32 : k < 2 ^ 32 := by omega
      rw [if_pos (hpos.mpr hz), Int32.toUInt32_ofNat', UInt32.toNat_add,
        UInt32.toNat_ofNat_of_lt' hk32]
      omega
    · rw [if_neg (mt hpos.mp hz)]
      omega
  · rw [if_neg hl, if_neg hl, if_neg (by decide)]

/-- A read keeps the invariant, and reads from the store. -/
theorem Inv.read (h : x.Inv) {f : Nat} {address : UInt64} {n len : Int32} {t : State}
    (hn : 0 ≤ n.toInt)
    (hrun : Runs Room (Inode.readFile (x.ip f) address (x.offset f) n.toUInt32) x.world len t)
    (hy : y = { x with
      world := t
      offset := Function.update x.offset f
        (if len > 0 then x.offset f + len.toUInt32 else x.offset f) }) :
    y.Inv ∧ y.inum = x.inum ∧ x.store.Step x.inum (.read f address n, len) y.store := by
  obtain ⟨hund, xs, k, hxs, hle, hshort, rfl, huser, hpages⟩ := h.step_read hn hrun
  have hitable : y.world.itable = x.world.itable := by
    rw [hy]
    exact hund.itable
  have hip : y.ip = x.ip := by rw [hy]
  have hinum : y.inum = x.inum := by
    funext g
    rw [inum, inum, hitable, hip]
  have hsize : y.size = x.size := by
    funext g
    rw [size, size, hitable, hip]
  have hslot : inodeIn x.world.superBlock x.world.disk (x.inum f) =
      (x.world.itable.inodes (x.ip f)).dinode := by
    rw [← (h.writable f).rest.view]
    exact (h.writable f).present.slot
  have ho := UInt32.le_iff_toNat_le.mp (h.offset f)
  have hfits : (x.size f).toNat ≤ 12288 := h.short f
  have hlast : (x.offset f).toNat + xs.length ≤ (x.size f).toNat := by
    rw [hxs, List.length_take, List.length_drop, length_files, hslot]
    change _ + min _ ((x.size f).toNat - _) ≤ _
    omega
  -- the offset behind the bytes
  have hoffset : ∀ g, (y.offset g).toNat = Function.update (fun g ↦ (x.offset g).toNat) f
      (if k = xs.length then (x.offset f).toNat + k else (x.offset f).toNat) g := fun g ↦ by
    rw [hy]
    dsimp only
    by_cases hg : g = f
    · subst hg
      rw [Function.update_self, Function.update_self, advance (by omega)]
    · rw [Function.update_of_ne hg, Function.update_of_ne hg]
  have hstore : y.store = { x.store with
      memory := fun a ↦ if address.toNat ≤ a ∧ a < address.toNat + k then xs[a - address.toNat]?
        else x.store.memory a
      offset := Function.update x.store.offset f
        (if k = xs.length then x.store.offset f + k else x.store.offset f) } := by
    rw [store, Store.mk.injEq]
    refine ⟨?_, ?_, funext hoffset⟩
    · rw [hy]
      exact funext huser
    · have hsb := hund.superBlock
      have hdisk := hund.disk
      rw [hy]
      dsimp only
      rw [hsb, hdisk, store]
  refine ⟨⟨fun g ↦ ?_, fun f g hne ↦ ?_, fun g ↦ ?_, fun g ↦ ?_, fun m hm ↦ ?_⟩, hinum, ?_⟩
  · have hg := (h.writable g).undisturbed hund
    rw [hy]
    exact hg
  · rw [hip] at hne
    rw [hinum]
    exact h.apart f g hne
  · rw [hsize, UInt32.le_iff_toNat_le, hoffset]
    by_cases hg : g = f
    · subst hg
      rw [Function.update_self]
      split <;> omega
    · rw [Function.update_of_ne hg]
      exact UInt32.le_iff_toNat_le.mp (h.offset g)
  · rw [hsize]
    exact h.short g
  · rw [hy] at hm
    exact h.below m (hpages m ▸ hm)
  · rw [hstore]
    refine .read f address n xs k ?_ hle hshort
    rw [hxs]
    exact congrArg (fun l ↦ (List.drop _ l).take _) (if_pos (h.writable f).present.inum).symm

/-- A write keeps the invariant, and writes to the store. -/
theorem Inv.write (h : x.Inv) {f : Nat} {address : UInt64} {n : Int32} {r : Int32 × UInt32}
    {t : State} (hend : (x.offset f).toNat + n.toInt.toNat ≤ NUM_DIRECT_BLOCKS * BLOCK_SIZE)
    (hrun : Runs Room (Inode.writeFile (x.ip f) address n (x.offset f)) x.world r t)
    (hy : y = { x with
      world := t
      offset := Function.update x.offset f r.2 }) :
    y.Inv ∧ y.inum = x.inum ∧ x.store.Step x.inum (.write f address n, r.1) y.store := by
  have hw := h.writable f
  obtain ⟨k, hk⟩ := (Inode.writeFile_ensures address hw (h.offset f) hend).of_runs hrun
  have hkn := hk.landed.le
  have hip : y.ip = x.ip := by rw [hy]
  have hothers : ∀ g, x.ip g ≠ x.ip f →
      t.itable.inodes (x.ip g) = x.world.itable.inodes (x.ip g) ∧ Writable t (x.ip g) := fun g hg ↦
    hk.others (h.writable g) (h.apart f g hg)
  have hinum : y.inum = x.inum := by
    funext g
    rw [inum, inum, hip]
    rw [hy]
    by_cases hg : x.ip g = x.ip f
    · rw [hg]
      exact hk.inum
    · rw [(hothers g hg).1]
  have hsize : ∀ g, (y.size g).toNat = if x.ip g = x.ip f
      then max (x.size f).toNat ((x.offset f).toNat + k) else (x.size g).toNat := fun g ↦ by
    rw [size, hip]
    rw [hy]
    by_cases hg : x.ip g = x.ip f
    · rw [if_pos hg, hg]
      exact hk.size hw (h.offset f)
    · rw [if_neg hg, (hothers g hg).1, size]
  have hoffset : ∀ g, (y.offset g).toNat = Function.update (fun g ↦ (x.offset g).toNat) f
      ((x.offset f).toNat + k) g := fun g ↦ by
    rw [hy]
    dsimp only
    by_cases hg : g = f
    · subst hg
      rw [Function.update_self, Function.update_self, hk.offset]
    · rw [Function.update_of_ne hg, Function.update_of_ne hg]
  have hlen : (x.world.source address k).length = k := Wrought.source_length
  have huser : t.user = x.world.user := by
    rw [hk.between]
  have hstore : y.store = { x.store with
      files := put x.store.files (x.inum f) (x.store.offset f) (x.world.source address k)
      offset := Function.update x.store.offset f
        (x.store.offset f + (x.world.source address k).length) } := by
    rw [store, Store.mk.injEq, hlen]
    refine ⟨?_, funext fun m ↦ ?_, funext hoffset⟩
    · rw [hy]
      funext a
      rw [State.userByte, huser]
      rfl
    · rw [hy]
      dsimp only
      rw [hk.superBlock]
      by_cases hm : m < x.world.superBlock.numInodes
      · rw [if_pos hm, hk.landed.files m hm]
        exact put_files hm
      · have hmf : m ≠ x.inum f := fun he ↦ hm (he ▸ hw.present.inum)
        rw [if_neg hm, put_of_ne hmf]
        exact (if_neg hm).symm
  refine ⟨⟨fun g ↦ ?_, fun f g hne ↦ ?_, fun g ↦ ?_, fun g ↦ ?_, fun m hm ↦ ?_⟩, hinum, ?_⟩
  · rw [hy]
    by_cases hg : x.ip g = x.ip f
    · exact hg ▸ hk.writable
    · exact (hothers g hg).2
  · rw [hip] at hne
    rw [hinum]
    exact h.apart f g hne
  · have ho := UInt32.le_iff_toNat_le.mp (h.offset g)
    rw [UInt32.le_iff_toNat_le, hsize, hoffset]
    by_cases hg : g = f
    · subst hg
      rw [Function.update_self, if_pos rfl]
      omega
    · rw [Function.update_of_ne hg]
      split
      · next he =>
        have hsame : x.size g = x.size f := by rw [size, size, he]
        rw [hsame] at ho
        omega
      · exact ho
  · have hshort := h.short g
    have hfile := h.short f
    rw [hsize]
    split <;> omega
  · rw [hy] at hm
    exact h.below m (huser ▸ hm)
  · rw [hstore, hk.result]
    have hstep := @Store.Step.write x.inum x.store f address n
      (x.world.source address k) (by rw [hlen]; exact hkn)
      fun a ha ↦ hk.landed.source_eq h.below (by rwa [hlen] at ha)
    rwa [hlen] at hstep ⊢

/-- A call keeps the invariant, and does what it means for the store. -/
theorem Inv.step (h : x.Inv) (hp : x.Permits e.1) (hst : x.Step e y) :
    y.Inv ∧ y.inum = x.inum ∧ x.store.Step x.inum e y.store := by
  cases hst with
  | read f address n len t run => exact h.read hp run rfl
  | write f address n r t run => exact h.write hp run rfl
  | compute user below =>
    have hund : Undisturbed x.world { x.world with user := user } :=
      .of_cache (h.writable 0).rest.calm.placed rfl
    refine ⟨⟨fun g ↦ (h.writable g).undisturbed hund, h.apart, h.offset, h.short, below⟩, rfl, ?_⟩
    exact .compute _

theorem Inv.trace {es : List (Deed × Int32)} (h : x.Inv)
    (hrun : Trace (fun x e y ↦ x.Permits e.1 ∧ x.Step e y) x es y) :
    (y.Inv ∧ y.inum = x.inum) ∧ Trace (Store.Step x.inum) x.store es y.store :=
  hrun.simulates_map (I := fun y ↦ y.Inv ∧ y.inum = x.inum) ⟨h, rfl⟩ (by
    rintro z e w ⟨hz, hinum⟩ ⟨hp, hst⟩
    obtain ⟨hw, hinum', hstep⟩ := hz.step hp hst
    exact ⟨⟨hw, hinum'.trans hinum⟩, hinum ▸ hstep⟩)

end

end Service
end Orfos.Fs
