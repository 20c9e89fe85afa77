import Orfos.Fs.Create
import Orfos.Fs.Reading

/-!
# Reads that change nothing

When `read` and `dirLookup` leave the file system as it is. `read` does unless it gets to a block
that `bmap` does not find while a block is free. `dirLookup` does unless it gets to such a block, or
finds an entry with another number than the directory's own: it writes the number of the entry to
the directory's in-memory inode.
-/

namespace Orfos.Fs

open Orfos.Base Orfos.Base.Traced Orfos.Lib

/-- An in-memory inode, counted once more if it was returned. -/
def counted (s : State) (returned : Option Nat) (j : Nat) : Inode :=
  { s.itable.inodes j with
    refCount := (s.itable.inodes j).refCount + if returned = some j then 1 else 0 }

/-- From `s` to `t` the blocks, with the bitmap and the disk inodes in them, and the log are the
same, and of the in-memory inodes only the one that was returned is counted once more. -/
structure Unchanged (s : State) (returned : Option Nat) (t : State) : Prop where
  disk : t.disk = s.disk
  view : view t = view s
  log : t.log = s.log
  superBlock : t.superBlock = s.superBlock
  inodes : ∀ j < s.itable.next, t.itable.inodes j = counted s returned j

/-- The program returns, does not call `writeLog` and changes nothing. -/
def ReadOnly {α : Type} (m : FsM α) (returned : α → Option Nat) (s : State) : Prop :=
  Fulfils (fun c _ ↦ c.Reading) m s fun a t ↦ Unchanged s (returned a) t

/-- A read of `n` bytes gets to all of them, or ends at user memory that is not there, or no block
is free where it ends. -/
def Ends (s : State) (d : DiskInode) (userDst : Bool) (dst : UInt64) (offset : UInt32) (n : Nat) :
    Prop :=
  found s d offset n = n ∨ reach s userDst dst (found s d offset n) < found s d offset n ∨ Full s

/-- The bytes of a directory entry. -/
def dirEntry (s : State) (d : DiskInode) (k : Nat) : List UInt8 :=
  (List.range ENTRY_SIZE).map fun j ↦ fileByte s d (ENTRY_SIZE * k + j)

/-- The block of a directory entry is found. -/
def Reached (s : State) (d : DiskInode) (k : Nat) : Prop :=
  Known s d (ENTRY_SIZE * k / BLOCK_SIZE)

/-- `dirLookup` goes on to an entry: those before it are found, and do not have the name. -/
def Passed (s : State) (d : DiskInode) (name : Name) (k : Nat) : Prop :=
  ∀ j < k, Reached s d j ∧ ¬ Names s name (dirEntry s d j)

/-- The entries that `dirLookup` gets to are in blocks that are found, and the one with the name has
the number of the directory. -/
def OwnEntry (s : State) (i : Nat) (name : Name) : Prop :=
  ∀ k < (s.itable.inodes i).dinode.size.toNat / ENTRY_SIZE,
    Passed s (s.itable.inodes i).dinode name k → Reached s (s.itable.inodes i).dinode k ∧
      (Names s name (dirEntry s (s.itable.inodes i).dinode k) →
        inumOf (dirEntry s (s.itable.inodes i).dinode k) = (s.itable.inodes i).inum)

instance (s : State) (d : DiskInode) (k : Nat) : Decidable (Reached s d k) :=
  inferInstanceAs (Decidable (Known s d _))

instance (s : State) (d : DiskInode) (name : Name) (k : Nat) : Decidable (Passed s d name k) :=
  inferInstanceAs (Decidable (∀ j < k, _))

instance (s : State) (i : Nat) (name : Name) : Decidable (OwnEntry s i name) :=
  inferInstanceAs (Decidable (∀ k < _, _))

/-- What `dirLookup` leaves behind: it has passed all entries, or it has found one, has written its
number to the directory and counts a reference to its inode. -/
def LookedUp (s : State) (i : Nat) (d : DiskInode) (name : Name) (ip : Option Nat) (t : State) :
    Prop :=
  (Passed s d name (d.size.toNat / ENTRY_SIZE) ∧ ip = none ∧ Undisturbed s t) ∨
    ∃ k < d.size.toNat / ENTRY_SIZE, Passed s d name k ∧ Reached s d k ∧
      Names s name (dirEntry s d k) ∧ ∃ u, Undisturbed s u ∧
        t = { u with itable := t.itable } ∧ ∀ j < s.itable.next, t.itable.inodes j =
          counted (u.setInode i fun x ↦ { x with inum := inumOf (dirEntry s d k) }) ip j

section

variable {X Z : Prop} {s t u : State} {i k n : Nat} {d : DiskInode} {userDst : Bool} {dst : UInt64}
  {offset length : UInt32} {name : Name}

theorem counted_none (s : State) (j : Nat) : counted s none j = s.itable.inodes j := by
  rw [counted, if_neg (by simp), UInt32.add_zero]

theorem Undisturbed.unchanged (h : Undisturbed s t) : Unchanged s none t := by
  refine ⟨h.disk, h.view, h.log, h.superBlock, fun j _ ↦ ?_⟩
  rw [h.itable, counted_none]

namespace Inode

/-- `read` changes nothing if and only if it ends where no block is allocated. -/
theorem read_readOnly_iff (h : Readable s i) (hu : userDst = true → UserBelow s)
    (hroom : Met Room (read i userDst dst offset length) s) :
    ReadOnly (read i userDst dst offset length) (fun _ ↦ none) s ↔
      Ends s (s.itable.inodes i).dinode userDst dst offset
        (clipped (s.itable.inodes i).dinode.size offset length) := by
  set d := (s.itable.inodes i).dinode with hd
  set n := clipped d.size offset length with hn
  have hread := read_looks (X := ¬ Ends s d userDst dst offset n) (Z := False) h hd.symm userDst
    dst offset length hu
    (fun hall hlt hfull ↦ by
      change found s d offset n < n at hlt
      change reach s userDst dst (found s d offset n) = found s d offset n at hall
      rintro (he | he | he)
      · omega
      · omega
      · exact hfull he)
    False.elim
  constructor
  · intro hro
    obtain ⟨-, len, -, hlen, -⟩ := (hread.fulfils_iff hroom).mp hro
    by_cases hall : reach s userDst dst (found s d offset n) = found s d offset n
    · rcases hlen.short hall with he | he
      · exact .inl he
      · exact .inr (.inr he)
    · have hle := reach_le s userDst dst (found s d offset n)
      exact .inr (.inl (by omega))
  · intro hends
    obtain ⟨hp, len, hv, hlen⟩ := hread.keeps (not_not_intro hends) hroom
    exact ⟨hp, len, hv, hlen.undisturbed.unchanged⟩

/-- A new reference to an inode. -/
theorem get_looks (device inum : UInt32) :
    Delivers (looks X Z) (get device inum) s fun j t ↦ t = { s with itable := t.itable } ∧
      ∀ k < s.itable.next, t.itable.inodes k = counted s (some j) k := by
  refine delivers_gets_bind ?_
  split
  · next j hj =>
    refine delivers_modify_bind (delivers_pure ⟨rfl, fun k _ ↦ ?_⟩)
    simp only [State.setInode, Function.update_apply, counted, Option.some_inj, eq_comm (a := j)]
    split
    · next hk => rw [hk]
    · rw [UInt32.add_zero]
  · refine delivers_gets_bind (delivers_modify_bind (delivers_pure ⟨rfl, fun k hk ↦ ?_⟩))
    have hne : k ≠ s.itable.next := by omega
    simp only [State.newInode, Function.update_of_ne hne, counted, Option.some_inj]
    rw [if_neg hne.symm, UInt32.add_zero]

/-- A directory entry is read into the local variable, if its block is found. -/
theorem readEntry_looks (h : Readable s i) (hd : (s.itable.inodes i).dinode = d)
    (hk : k < d.size.toNat / ENTRY_SIZE) (ho : offset.toNat = ENTRY_SIZE * k)
    (hX : ¬ Reached s d k → X) (hZ : Z → s.log.outstanding < 1) :
    Delivers (looks X Z) (readEntry i offset) s fun _ t ↦ Undisturbed s t ∧ Reached s d k ∧
      entryBytes t = dirEntry s d k := by
  have hk' : k < d.size.toNat / 16 := hk
  have ho' : offset.toNat = 16 * k := ho
  have hsize : d.size.toNat ≤ 268 * 1024 := hd ▸ h.size
  have h16 : (UInt32.ofNat ENTRY_SIZE).toNat = 16 := rfl
  have hsum : (offset + UInt32.ofNat ENTRY_SIZE).toNat = 16 * k + 16 := by
    rw [UInt32.toNat_add, h16, ho']
    exact Nat.mod_eq_of_lt (by omega)
  have hclip : clipped d.size offset (UInt32.ofNat ENTRY_SIZE) = 16 := by
    rw [clipped, if_neg, if_neg, h16]
    · rw [gt_iff_lt, UInt32.lt_iff_toNat_lt, hsum]
      omega
    · rw [gt_iff_lt, UInt32.lt_iff_toNat_lt, UInt32.lt_iff_toNat_lt, hsum]
      omega
  -- an entry is inside one block
  have hblock : ∀ j < 16, (offset.toNat + j) / BLOCK_SIZE = ENTRY_SIZE * k / BLOCK_SIZE := by
    intro j hj
    change (offset.toNat + j) / 1024 = 16 * k / 1024
    omega
  have hfound : Reached s d k → found s d offset 16 = 16 := by
    intro hr
    apply extent_eq_iff.mpr
    intro j hj
    rw [isSome_knownByte, hblock j hj]
    exact hr
  have hread := read_looks (X := X) (Z := Z) h hd false ENTRY offset (UInt32.ofNat ENTRY_SIZE)
    (fun hb ↦ Bool.noConfusion hb)
    (fun _ hlt _ ↦ hX fun hr ↦ by
      rw [hclip, hfound hr] at hlt
      omega) hZ
  rw [hclip] at hread
  refine delivers_bind hread ?_
  rintro len t ⟨ht, hcopied, hresult, -⟩
  by_cases hr : Reached s d k
  · rw [hfound hr] at hcopied hresult
    have hall : reach s false ENTRY 16 = 16 := rfl
    rw [hall] at hcopied hresult
    refine delivers_assert hresult ⟨ht, hr, ?_⟩
    refine List.map_congr_left fun j hj ↦ ?_
    have hj' : j < 16 := List.mem_range.mp hj
    have hto : (ENTRY + UInt64.ofNat j - ENTRY).toNat = j := by
      rw [UInt64.zero_add, UInt64.sub_zero, UInt64.toNat_ofNat']
      exact Nat.mod_eq_of_lt (by omega)
    rw [hcopied.kernel, hto, if_pos ⟨rfl, hj'⟩, ho]
  · refine delivers_assert_or (fun _ ↦ hX hr) fun hlen ↦ ?_
    have hzero : found s d offset 16 = 0 := by
      apply found_of_unknown
      have hfirst := hblock 0 (by omega)
      rw [Nat.add_zero] at hfirst
      rwa [hfirst]
    have hall : reach s false ENTRY 0 = 0 := rfl
    rw [hzero, if_pos hall] at hresult
    rw [hresult] at hlen
    exact absurd hlen (by decide)

/-- `dirLookup` from any of its rounds on. -/
theorem dirLookupFrom_looks (h : Readable s i) (hd : (s.itable.inodes i).dinode = d)
    (hw : d.size.toNat % ENTRY_SIZE = 0)
    (hX : ∀ k < d.size.toNat / ENTRY_SIZE, Passed s d name k → ¬ Reached s d k → X)
    (hZ : Z → s.log.outstanding < 1) (ht : Undisturbed s t) (ho : offset.toNat = ENTRY_SIZE * k)
    (hk : k ≤ d.size.toNat / ENTRY_SIZE) (hp : Passed s d name k)
    (hn : d.size.toNat / ENTRY_SIZE < n + k) :
    Delivers (looks X Z) (dirLookupFrom i name n offset) t (LookedUp s i d name) := by
  have hsize : d.size.toNat ≤ 268 * 1024 := hd ▸ h.size
  have hw' : d.size.toNat % 16 = 0 := hw
  have hend : ∀ {offset : UInt32} {k}, offset.toNat = ENTRY_SIZE * k →
      (offset < d.size ↔ k < d.size.toNat / ENTRY_SIZE) := by
    intro offset k ho
    have ho' : offset.toNat = 16 * k := ho
    change _ ↔ k < d.size.toNat / 16
    rw [UInt32.lt_iff_toNat_lt]
    omega
  induction n generalizing t k offset with
  | zero => omega
  | succ n ih =>
    have hdt : (t.itable.inodes i).dinode = d := by rw [ht.itable, hd]
    unfold dirLookupFrom
    refine delivers_gets_bind ?_
    rw [hdt]
    split
    · next hlt =>
      have hklt := (hend ho).mp hlt
      have hentry := readEntry_looks (X := X) (Z := Z) (ht.readable h) hdt hklt ho
        (fun hr ↦ hX k hklt hp (mt (ht.known_iff d _).mpr hr)) (by rw [ht.log]; exact hZ)
      refine delivers_bind hentry ?_
      rintro _ u ⟨htu, hr, hbytes⟩
      rw [Reached, ht.known_iff] at hr
      rw [dirEntry, ht.fileByte] at hbytes
      have hsu := ht.trans htu
      have hover : u.overrun = s.overrun := by rw [hsu.frame]
      refine delivers_gets_bind (delivers_gets_bind ?_)
      rw [entryInum_eq, entryName, hbytes, hover]
      split
      · next hname =>
        have hname' : Names s name (dirEntry s d k) := hname
        refine delivers_modify_bind (delivers_gets_bind ?_)
        refine delivers_bind (get_looks _ _) ?_
        rintro j v ⟨hv, hinodes⟩
        refine delivers_pure (.inr ⟨k, hklt, hp, hr, hname', u, hsu, ?_, fun j' hj' ↦ ?_⟩)
        · rw [hv]
          rfl
        · apply hinodes
          change j' < u.itable.next
          rwa [hsu.itable]
      · next hname =>
        have hname' : ¬ Names s name (dirEntry s d k) := hname
        have hnext : (offset + UInt32.ofNat ENTRY_SIZE).toNat = ENTRY_SIZE * (k + 1) := by
          have h16 : (UInt32.ofNat ENTRY_SIZE).toNat = 16 := rfl
          have ho' : offset.toNat = 16 * k := ho
          have hklt' : k < d.size.toNat / 16 := hklt
          rw [UInt32.toNat_add, h16, ho']
          change _ = 16 * (k + 1)
          omega
        refine ih hsu hnext hklt (fun j hj ↦ ?_) (by omega)
        by_cases hjk : j = k
        · rw [hjk]
          exact ⟨hr, hname'⟩
        · exact hp j (by omega)
    · next hge =>
      have hlast : k = d.size.toNat / ENTRY_SIZE := by
        have := mt (hend ho).mpr hge
        omega
      exact delivers_pure (.inl ⟨hlast ▸ hp, rfl, ht⟩)

/-- `dirLookup` looks at the entries up to the one with the name. -/
theorem dirLookup_looks (h : Readable s i) (hd : (s.itable.inodes i).dinode = d) (name : Name)
    (hdir : d.type = T_DIR) (hw : d.size.toNat % ENTRY_SIZE = 0)
    (hX : ∀ k < d.size.toNat / ENTRY_SIZE, Passed s d name k → ¬ Reached s d k → X)
    (hZ : Z → s.log.outstanding < 1) :
    Delivers (looks X Z) (dirLookup i name) s (LookedUp s i d name) := by
  refine delivers_assert_bind (by rw [hd]; exact hdir) (delivers_gets_bind ?_)
  rw [hd]
  exact dirLookupFrom_looks (k := 0) h hd hw hX hZ (.refl h.placed) rfl (Nat.zero_le _)
    (fun j hj ↦ absurd hj (Nat.not_lt_zero j)) (by omega)

/-- `dirLookup` changes nothing if and only if it finds nothing, or the entry of the directory
itself. -/
theorem dirLookup_readOnly_iff (h : Readable s i) (hi : i < s.itable.next)
    (hdir : (s.itable.inodes i).dinode.type = T_DIR)
    (hw : (s.itable.inodes i).dinode.size.toNat % ENTRY_SIZE = 0)
    (hroom : Met Room (dirLookup i name) s) :
    ReadOnly (dirLookup i name) id s ↔ OwnEntry s i name := by
  have hlook := dirLookup_looks (X := ¬ OwnEntry s i name) (Z := False) h rfl name hdir hw
    (fun k hk hp hr hown ↦ hr (hown k hk hp).1) False.elim
  constructor
  · intro hro k hk hp
    obtain ⟨-, ip, -, hlooked, hsame⟩ := (hlook.fulfils_iff hroom).mp hro
    rcases hlooked with ⟨hall, -, -⟩ | ⟨m, hm, hpm, hr, hname, u, hu, -, hinodes⟩
    · exact ⟨(hall k hk).1, fun hname ↦ absurd hname (hall k hk).2⟩
    · -- no entry before the one that was found has the name, and none behind it was passed
      have hkm : k ≤ m := by
        by_contra hlt
        exact (hp m (by omega)).2 hname
      by_cases he : k = m
      · rw [he]
        refine ⟨hr, fun _ ↦ ?_⟩
        have hinum := congrArg Inode.inum ((hinodes i hi).symm.trans (hsame.inodes i hi))
        simpa [counted, State.setInode] using hinum
      · exact ⟨(hpm k (by omega)).1, fun hn ↦ absurd hn (hpm k (by omega)).2⟩
  · intro hown
    obtain ⟨hp, ip, hv, hlooked⟩ := hlook.keeps (not_not_intro hown) hroom
    refine ⟨hp, ip, hv, ?_⟩
    rcases hlooked with ⟨-, rfl, ht⟩ | ⟨m, hm, hpm, hr, hname, u, hu, hf, hinodes⟩
    · exact ht.unchanged
    · have hinum := (hown m hm hpm).2 hname
      have hsame : u.setInode i (fun x ↦
          { x with inum := inumOf (dirEntry s (s.itable.inodes i).dinode m) }) = u := by
        apply setInode_same
        rw [hu.itable, hinum]
      rw [hsame] at hinodes
      refine ⟨?_, ?_, ?_, ?_, fun j hj ↦ ?_⟩
      · rw [hf, hu.disk]
      · rw [hf]
        exact (view_congr rfl rfl rfl).trans hu.view
      · rw [hf, hu.log]
      · rw [hf, hu.superBlock]
      · rw [hinodes j hj, counted, counted, hu.itable]
        rfl

/-- **Reads.** `read` and `dirLookup` return without a call of `writeLog` and without a change of
blocks, log and in-memory inodes if and only if `read` ends where no block is allocated, and
`dirLookup` finds nothing, or the entry of the directory itself, in blocks that are found. -/
theorem reads_readOnly_iff (h : Readable s i) (hu : UserBelow s) (hi : i < s.itable.next) :
    (∀ userDst dst offset length, Met Room (read i userDst dst offset length) s →
      (ReadOnly (read i userDst dst offset length) (fun _ ↦ none) s ↔
        Ends s (s.itable.inodes i).dinode userDst dst offset
          (clipped (s.itable.inodes i).dinode.size offset length))) ∧
    ((s.itable.inodes i).dinode.type = T_DIR →
      (s.itable.inodes i).dinode.size.toNat % ENTRY_SIZE = 0 →
        ∀ name, Met Room (dirLookup i name) s →
          (ReadOnly (dirLookup i name) id s ↔ OwnEntry s i name)) :=
  ⟨fun _ _ _ _ hroom ↦ read_readOnly_iff h (fun _ ↦ hu) hroom,
    fun hdir hw _ hroom ↦ dirLookup_readOnly_iff h hi hdir hw hroom⟩

end Inode
end

/-- A disk with a root directory that has the entries `.` and `sh`, and a file `sh` with twelve
direct blocks and 16 bytes behind them. -/
def largeDisk (b : UInt32) : Block :=
  if b = 33 then
    let root : DiskInode := ⟨T_DIR, 0, 0, 1, 32, Function.update (fun _ ↦ 0) 0 60, 0⟩
    let sh : DiskInode := ⟨T_FILE, 0, 0, 1, 12304, fun k ↦ 61 + UInt32.ofNat k.val, 73⟩
    sh.store 128 (root.store 64 Block.zero)
  else if b = 46 then fun k ↦ if k.val < 9 then 255 else if k.val = 9 then 7 else 0
  else if b = 60 then fun k ↦
    if k.val < 16 then [1, 0, 46].getD k.val 0 else [2, 0, 115, 104].getD (k.val - 16) 0
  else if b = 73 then putU32 Block.zero 0 74
  else if b = 74 then fun _ ↦ 1
  else Block.zero

/-- The kernel outside of transactions, with the root and `sh` locked. -/
def large : State :=
  let s := ((started largeDisk).newInode 1 1).newInode 1 2
  (s.setInode 0 (loaded s)).setInode 1 (loaded s)

theorem large_readable (i : Nat) (hi : i < 2) : Readable large i := by
  have hslot : ∀ b, slot large b = none := fun _ ↦ rfl
  have hsettled : ∀ b, Settled large b :=
    fun b ↦ ⟨fun i buf h ↦ (by cases (hslot b).symm.trans h),
      fun i buf h ↦ by cases (hslot b).symm.trans h⟩
  have hcases : i = 0 ∨ i = 1 := by omega
  refine ⟨fun b i buf h ↦ (by cases (hslot b).symm.trans h), ?_, ?_, fun bn _ ↦ hsettled _,
    fun _ ↦ (hsettled _).unheld, fun b _ ↦ hsettled _, fun hne b hb ↦ ?_, by decide⟩
  · rcases hcases with rfl | rfl <;> rfl
  · rcases hcases with rfl | rfl <;> decide +kernel
  · have hb' : b.toNat < 2000 := UInt32.lt_iff_toNat_lt.mp hb
    have hbitmap : bblock b large.superBlock = 46 := by
      apply UInt32.toNat_inj.mp
      have h8192 : (UInt32.ofNat BITS_PER_BLOCK).toNat = 8192 := rfl
      have h46 : large.superBlock.bmapStart.toNat = 46 := rfl
      rw [bblock, UInt32.toNat_add, UInt32.toNat_div, h8192, h46]
      change (b.toNat / 8192 + 46) % 4294967296 = 46
      omega
    rw [hbitmap]
    rcases hcases with rfl | rfl <;> decide +kernel

/-- The root is read, and looked up in itself, without a change. -/
theorem reads_readOnly_root :
    ReadOnly (Inode.read 0 false 4096 0 32) (fun _ ↦ none) large ∧
      ReadOnly (Inode.dirLookup 0 (literal [46])) id large := by
  obtain ⟨hread, hlookup⟩ := Inode.reads_readOnly_iff (large_readable 0 (by decide))
    (fun n hn ↦ by cases hn) (by decide)
  refine ⟨(hread false 4096 0 32 (by decide +kernel)).mpr (.inl (by decide +kernel)), ?_⟩
  exact (hlookup (by decide +kernel) (by decide +kernel) (literal [46])
    (by decide +kernel)).mpr (by decide +kernel)

/-- The last bytes of `sh` are not found, and a block is allocated for them. The look-up of `sh`
gives the number of `sh` to the root. -/
theorem reads_change_large :
    ¬ ReadOnly (Inode.read 1 false 4096 12288 16) (fun _ ↦ none) large ∧
      ¬ ReadOnly (Inode.dirLookup 0 (literal [115, 104])) id large := by
  constructor
  · rintro ⟨hmet, -⟩
    have hlogged : ¬ Met (fun c _ ↦ c.Reading) (Inode.read 1 false 4096 12288 16) large := by
      decide +kernel
    exact hlogged hmet
  · rintro ⟨-, ip, -, hsame⟩
    have hinum := congrArg Inode.inum (hsame.inodes 0 (by decide))
    have hroot : ((Inode.dirLookup 0 (literal [115, 104]) large).state.itable.inodes
        0).inum ≠ (large.itable.inodes 0).inum := by
      decide +kernel
    exact hroot hinum

end Orfos.Fs
