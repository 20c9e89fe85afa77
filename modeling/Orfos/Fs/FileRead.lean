import Orfos.Fs.ReadOnly
import Orfos.Memory.Atomic

/-!
# The read system call

`File::read` passes its signed count to the unsigned length of `Inode::read`, which clips the sum
with the offset to the size of the file. A negative count that is smaller than the offset is no
length of a range, and nothing is read; any other one reads the rest of the file.
-/

namespace Orfos.Fs

open Orfos.Base Orfos.Base.Traced Orfos.Lib

section

variable {X Z : Prop} {s t u : State} {i j : Nat} {b : UInt32} {bp : Nat} {buf : Buffer}

theorem Undisturbed.setInode (h : Undisturbed s t) (f : Inode → Inode) :
    Undisturbed (s.setInode j f) (t.setInode j f) := by
  refine ⟨?_, h.placed, h.slots⟩
  rw [State.setInode, State.setInode, h.itable]
  rw [h.frame]

theorem Looking.setInode (h : Looking s t b bp buf) (f : Inode → Inode) :
    Looking (s.setInode j f) (t.setInode j f) b bp buf := by
  refine ⟨?_, h.placed, h.slots, h.locked, h.back⟩
  rw [State.setInode, State.setInode, h.itable]
  rw [h.frame]

/-- A file that `File::read` can lock, and read then. -/
structure Lockable (s : State) (i : Nat) : Prop where
  free : (s.itable.inodes i).locked = false
  counted : 1 ≤ (s.itable.inodes i).refCount
  node : (s.itable.inodes i).valid = false →
    Settled s (iblock (s.itable.inodes i).inum s.superBlock) ∧
      (dinodeOf s (s.itable.inodes i).inum).type ≠ 0
  readable : Readable (s.setInode i (loaded s)) i

namespace Inode

/-- `lock` loads an inode that is not valid, and takes the lock. -/
theorem lock_looks (h : Lockable s i) :
    Delivers (looks X Z) (lock i) s fun _ t ↦
      Undisturbed (s.setInode i (loaded s)) t ∧ SameMemory s t := by
  have hplaced : Placed s := h.readable.placed
  have hdev : (s.itable.inodes i).device = s.log.device := by
    have hdev := h.readable.device
    rwa [show ((s.setInode i (loaded s)).itable.inodes i) = loaded s (s.itable.inodes i) from
      Function.update_self ..] at hdev
  refine delivers_assert_bind h.counted (delivers_assert_bind h.free (delivers_modify_bind ?_))
  refine delivers_gets_bind ?_
  have hnode : (s.setInode i fun x ↦ { x with locked := true }).itable.inodes i =
      { s.itable.inodes i with locked := true } := Function.update_self ..
  rw [hnode]
  have hview : view (s.setInode i fun x ↦ { x with locked := true }) = view s :=
    view_congr rfl rfl rfl
  split
  · next hinvalid =>
    have hinv : (s.itable.inodes i).valid = false := by simpa using hinvalid
    obtain ⟨hsettled, htype⟩ := h.node hinv
    refine delivers_gets_bind ?_
    change Delivers (looks X Z) (do
      let bp ← BufferCache.get (s.itable.inodes i).device _
      _) _ _
    rw [hdev]
    refine look (s := s.setInode i fun x ↦ { x with locked := true }) hplaced
      (hsettled.of_slot rfl) fun bp t buf ht hm hdata ↦ delivers_modify_bind ?_
    rw [hview] at hdata
    have hload : DiskInode.load (t.cache.buffers bp).data (dinodeAt (s.itable.inodes i).inum) =
        dinodeOf s (s.itable.inodes i).inum := by
      rw [ht.buffer, hdata]
      rfl
    dsimp only
    rw [hload]
    refine delivers_bind (ht.setInode _).release ?_
    rintro _ u ⟨hu, hmu, -⟩
    have hlast := hu.setInode (j := i) fun x ↦ { x with valid := true }
    have hsame : ((s.setInode i fun x ↦ { x with locked := true }).setInode i fun x ↦
        { x with dinode := dinodeOf s (s.itable.inodes i).inum }).setInode i
          (fun x ↦ { x with valid := true }) = s.setInode i (loaded s) := by
      simp only [State.setInode, Function.update_self, Function.update_idem, loaded, hinv,
        Bool.false_eq_true, if_false]
    rw [hsame] at hlast
    refine delivers_modify_bind (delivers_assert ?_ ⟨hlast, ?_⟩)
    · rw [hlast.itable, State.setInode]
      dsimp only
      rw [Function.update_self, loaded, hinv]
      exact htype
    · exact ⟨hmu.user.trans hm.user, hmu.kernel.trans hm.kernel⟩
  · next hvalid =>
    have hval : (s.itable.inodes i).valid = true := by simpa using hvalid
    have hsame : s.setInode i (fun x ↦ { x with locked := true }) = s.setInode i (loaded s) := by
      simp only [State.setInode, loaded, hval, if_true]
    rw [hsame]
    exact delivers_pure ⟨.refl h.readable.placed, ⟨rfl, rfl⟩⟩

end Inode

/-- Blocks and memory of two states are the same. -/
structure Alike (s t : State) : Prop extends SameMemory s t where
  slots : slot t = slot s
  disk : t.disk = s.disk
  superBlock : t.superBlock = s.superBlock

theorem Alike.blockOf (h : Alike s t) : blockOf t = blockOf s := by
  funext d bn
  rw [Fs.blockOf, Fs.blockOf, view_of_slots h.slots h.disk]

theorem Alike.fileByte (h : Alike s t) : fileByte t = fileByte s := by
  funext d o
  rw [Fs.fileByte, Fs.fileByte, h.blockOf, view_of_slots h.slots h.disk]

theorem Alike.knownByte (h : Alike s t) : knownByte t = knownByte s := by
  funext d o
  have hiff : Known t d (o / BLOCK_SIZE) ↔ Known s d (o / BLOCK_SIZE) := by
    rw [Known, Known, h.blockOf, h.slots]
  rw [Fs.knownByte, Fs.knownByte, h.fileByte]
  exact if_congr hiff rfl rfl

theorem Alike.found (h : Alike s t) : found t = found s := by
  funext d offset n
  rw [Fs.found, Fs.found, h.knownByte]

theorem Alike.full_iff (h : Alike s t) : Full t ↔ Full s := by
  unfold Full marked
  rw [view_of_slots h.slots h.disk, h.superBlock]

/-- What `File::read` leaves behind: the bytes that were found are copied up to the first page that
is not there. -/
structure ReadTo (s : State) (d : DiskInode) (address : UInt64) (offset : UInt32) (n : Nat)
    (len : Int32) (t : State) : Prop where
  copied : Copied s true address (fun k ↦ fileByte s d (offset.toNat + k))
    (reach s true address (found s d offset n)) t
  result : len = if reach s true address (found s d offset n) = found s d offset n then
    (UInt32.ofNat (found s d offset n)).toInt32 else -1
  ends : Ends s d true address offset n

namespace Inode

/-- The calls of `File::read` for an inode. -/
def readFile (i : Nat) (address : UInt64) (offset length : UInt32) : FsM Int32 := do
  lock i
  let len ← read i true address offset length
  unlock i
  pure len

theorem readFile_looks (h : Lockable s i) (hu : UserBelow s) {d : DiskInode}
    (hd : (loaded s (s.itable.inodes i)).dinode = d) (address : UInt64) (offset length : UInt32)
    (hX : ¬ Ends s d true address offset (clipped d.size offset length) → X)
    (hZ : Z → s.log.outstanding < 1) :
    Delivers (looks X Z) (readFile i address offset length) s
      (ReadTo s d address offset (clipped d.size offset length)) := by
  have hlock := lock_looks (X := X) (Z := Z) h
  unfold readFile
  refine delivers_bind hlock ?_
  rintro _ t ⟨ht, hm⟩
  have halike : Alike s t := ⟨hm, ht.slots, ht.disk, ht.superBlock⟩
  have hnode : t.itable.inodes i = loaded s (s.itable.inodes i) := by
    rw [ht.itable]
    exact Function.update_self ..
  have hread := read_looks (X := X) (Z := Z) (ht.readable h.readable) (by rw [hnode, hd]) true
    address offset length (fun _ ↦ hu.of_memory hm) (fun hall hlt hfull ↦ hX fun hends ↦ ?_)
    (by rw [ht.log]; exact hZ)
  · refine delivers_bind hread ?_
    rintro len u ⟨htu, hcopied, hresult, hshort⟩
    rw [halike.fileByte, halike.found, reach_congr hm] at hcopied
    rw [halike.found, reach_congr hm] at hresult
    rw [halike.found, reach_congr hm, halike.full_iff] at hshort
    have hlocked : (u.itable.inodes i).locked = true := by rw [htu.itable, hnode, loaded]
    have hcount : 1 ≤ (u.itable.inodes i).refCount := by
      rw [htu.itable, hnode]
      exact h.counted
    have hunlock : Delivers (looks X Z) (unlock i) u fun _ t ↦
        t = u.setInode i fun x ↦ { x with locked := false } := by
      refine delivers_bind (R := fun _ t ↦ t = u) (delivers_call trivial rfl) ?_
      rintro _ v rfl
      exact delivers_assert_bind hlocked (delivers_assert_bind hcount (delivers_modify rfl))
    refine delivers_bind hunlock ?_
    rintro _ v rfl
    refine delivers_pure ⟨?_, hresult, ?_⟩
    · exact (hcopied.after_memory hm).of_memory ⟨rfl, rfl⟩
    · have hle := reach_le s true address (found s d offset (clipped d.size offset length))
      by_cases hall : reach s true address (found s d offset (clipped d.size offset length)) =
          found s d offset (clipped d.size offset length)
      · rcases hshort hall with he | he
        · exact .inl he
        · exact .inr (.inr he)
      · exact .inr (.inl (by omega))
  · rw [halike.found, reach_congr hm] at hall
    rw [halike.found] at hlt
    rw [halike.full_iff] at hfull
    rcases hends with he | he | he
    · omega
    · omega
    · exact hfull he

end Inode
end

/-! ### The count -/

/-- What a read of `n` bytes to an address may do: it returns -1 or a number of bytes that is not
above `n`, changes nothing outside of `n` bytes, and on success exactly the bytes that it counts are
those of the file. -/
structure ReadWithin (s : State) (d : DiskInode) (address : UInt64) (offset : UInt32)
    (n len : Int32) (t : State) : Prop where
  range : len = -1 ∨ 0 ≤ len.toInt ∧ len.toInt.toNat ≤ n.toInt.toNat
  others : ∀ x, ¬ (address.toNat ≤ x ∧ x < address.toNat + n.toInt.toNat) →
    t.userByte x = s.userByte x
  bytes : 0 ≤ len.toInt → ∀ x, t.userByte x =
    if address.toNat ≤ x ∧ x < address.toNat + len.toInt.toNat then
      some (fileByte s d (offset.toNat + (x - address.toNat))) else s.userByte x

/-- The read ends where no block is allocated, and the count is not negative, or nothing is read, or
the bytes up to the first page that is not there were those of the file before. -/
def Counts (s : State) (d : DiskInode) (address : UInt64) (offset : UInt32) (n : Int32) : Prop :=
  Ends s d true address offset (clipped d.size offset n.toUInt32) ∧
    (0 ≤ n.toInt ∨ found s d offset (clipped d.size offset n.toUInt32) = 0 ∨
      reach s true address (found s d offset (clipped d.size offset n.toUInt32)) <
          found s d offset (clipped d.size offset n.toUInt32) ∧
        ∀ k < reach s true address (found s d offset (clipped d.size offset n.toUInt32)),
          s.userByte (address.toNat + k) = some (fileByte s d (offset.toNat + k)))

section

variable {s t : State} {d : DiskInode} {address : UInt64} {offset : UInt32} {n len : Int32}

/-- The clipped length is not above the length and the size. -/
theorem clipped_le (size offset length : UInt32) :
    clipped size offset length ≤ length.toNat ∧ clipped size offset length ≤ size.toNat := by
  unfold clipped
  split
  · exact ⟨Nat.zero_le _, Nat.zero_le _⟩
  · next hin =>
    have hoff := UInt32.not_lt.mp fun hlt ↦ hin (.inl hlt)
    have hwrap := UInt32.le_iff_toNat_le.mp (UInt32.not_lt.mp fun hlt ↦ hin (.inr hlt))
    have hle := UInt32.le_iff_toNat_le.mp hoff
    have hz := offset.toNat_lt
    have hz' := length.toNat_lt
    rw [UInt32.toNat_add] at hwrap
    split
    · next hgt =>
      have hgt := UInt32.lt_iff_toNat_lt.mp hgt
      rw [UInt32.toNat_add] at hgt
      rw [UInt32.toNat_sub_of_le _ _ hoff]
      omega
    · next hgt =>
      rw [gt_iff_lt, UInt32.lt_iff_toNat_lt, UInt32.toNat_add] at hgt
      omega

/-- A count that is not negative is the length. -/
theorem toNat_length (h : 0 ≤ n.toInt) : n.toUInt32.toNat = n.toInt.toNat :=
  Int32.toNat_toUInt32_of_le (Int32.le_iff_toInt_le.mpr h)

/-- What a read did is within its count if and only if the condition holds. -/
theorem readWithin_iff (h : ReadTo s d address offset (clipped d.size offset n.toUInt32) len t)
    (hsize : d.size.toNat ≤ MAX_FILE * BLOCK_SIZE) :
    ReadWithin s d address offset n len t ↔ Counts s d address offset n := by
  obtain ⟨⟨hcopied, -, -⟩, hresult, hends⟩ := h
  have hsize : d.size.toNat ≤ 268 * 1024 := hsize
  obtain ⟨hlength, hclip⟩ := clipped_le d.size offset n.toUInt32
  unfold Counts
  have hfound := found_le s d offset (clipped d.size offset n.toUInt32)
  generalize found s d offset (clipped d.size offset n.toUInt32) = B at *
  have hreach := reach_le s true address B
  generalize reach s true address B = U at *
  generalize clipped d.size offset n.toUInt32 = L at *
  have hB : (UInt32.ofNat B).toInt32.toInt = B := Int32.toInt_ofNat_of_lt (by omega)
  have hminus : (-1 : Int32).toInt = -1 := rfl
  constructor
  · rintro ⟨hrange, hothers, -⟩
    refine ⟨hends, ?_⟩
    by_contra hno
    rw [not_or, not_or] at hno
    obtain ⟨hneg, hpos, hless⟩ := hno
    by_cases hall : U = B
    · rw [if_pos hall] at hresult
      rw [hresult] at hrange
      rcases hrange with he | ⟨-, he⟩
      · rw [he] at hB
        omega
      · rw [hB] at he
        omega
    · refine hless ⟨by omega, fun k hk ↦ ?_⟩
      have hsame := hothers (address.toNat + k) (by omega)
      rw [hcopied, if_pos ⟨rfl, by omega, by omega⟩, Nat.add_sub_cancel_left] at hsame
      exact hsame.symm
  · rintro ⟨-, hcases⟩
    by_cases hall : U = B
    · -- the bytes that were found are not more than the count
      have hle : B ≤ n.toInt.toNat := by
        rcases hcases with hn | hz | ⟨hlt, -⟩
        · have := toNat_length hn
          omega
        · omega
        · omega
      rw [if_pos hall] at hresult
      subst hall
      refine ⟨.inr ?_, fun x hx ↦ ?_, fun _ x ↦ ?_⟩
      · rw [hresult, hB]
        omega
      · rw [hcopied, if_neg fun h ↦ hx ⟨h.2.1, by omega⟩]
      · rw [hcopied, hresult, hB, Int.toNat_natCast]
        exact if_congr (and_iff_right rfl) rfl rfl
    · rw [if_neg hall] at hresult
      subst hresult
      refine ⟨.inl rfl, fun x hx ↦ ?_, fun h ↦ by omega⟩
      rw [hcopied]
      split
      · next hin =>
        rcases hcases with hn | hz | ⟨-, hsame⟩
        · have := toNat_length hn
          omega
        · omega
        · have hbyte := hsame (x - address.toNat) (by omega)
          rw [show address.toNat + (x - address.toNat) = x by omega] at hbyte
          exact hbyte.symm
      · rfl

end

/-! ### The handler -/

section

open Syscall Memory

variable {π : Type} {K : Rest State Nat π} {k : Kernel State Nat π} {f i : Nat}

/-- The functions of `kernel/fs/inode.cpp` that `File::read` calls. -/
structure Serves (K : Rest State Nat π) : Prop where
  lock : ∀ ip, K.lock ip = op (Inode.lock ip)
  unlock : ∀ ip, K.unlock ip = op (Inode.unlock ip)
  read : ∀ ip userDst dst offset length,
    K.read ip userDst dst offset length = op (Inode.read ip userDst dst offset length)

theorem op_eq_some_iff {α : Type} {m : FsM α} {s t : State} {a : α} :
    op m s = some (a, t) ↔ Runs Room m s a t := by
  refine ⟨op_eq_some, fun ⟨hv, ht, hm⟩ ↦ ?_⟩
  rw [op, if_pos hm, hv, Option.map_some, ht]

/-- `File::read` of an inode file runs as its calls do. -/
theorem read_runs (hK : Serves K) (hread : (k.files f).readable = true)
    (htype : (k.files f).type = .Inode) (hip : (k.files f).ip = some i) (address : UInt64)
    (n : Int32) :
    Ensures (regime (∃ len t, Runs Room
        (Inode.readFile i address (k.files f).offset n.toUInt32) k.world len t))
      (File.read K f address n) k fun len k' ↦
        Runs Room (Inode.readFile i address (k.files f).offset n.toUInt32) k.world len k'.world := by
  refine ensures_gets_bind ?_
  rw [if_neg (by simp [hread]), htype, hip]
  change Ensures _ (enter (K.lock i) >>= _) k _
  refine ensures_enter_bind ?_ fun u w hlock ↦ ensures_gets_bind (ensures_enter_bind ?_
    fun len w' hlen ↦ ensures_modify_bind (ensures_enter_bind ?_ fun _ w'' hunlock ↦ ?_))
  · rintro ⟨len, t, hrun⟩
    obtain ⟨u, w, hl, -⟩ := runs_bind_iff.mp hrun
    exact ⟨u, w, by rw [hK.lock]; exact op_eq_some_iff.mpr hl⟩
  · rintro ⟨len, t, hrun⟩
    rw [hK.lock, op_eq_some_iff] at hlock
    obtain ⟨u', w', hl, hrest⟩ := runs_bind_iff.mp hrun
    obtain ⟨len', w'', hr, -⟩ := runs_bind_iff.mp hrest
    obtain rfl : w' = w := hl.2.1.symm.trans hlock.2.1
    exact ⟨len', w'', by rw [hK.read]; exact op_eq_some_iff.mpr hr⟩
  · rintro ⟨len₁, t, hrun⟩
    rw [hK.lock, op_eq_some_iff] at hlock
    rw [hK.read, op_eq_some_iff] at hlen
    obtain ⟨u', w₁, hl, hrest⟩ := runs_bind_iff.mp hrun
    obtain rfl : w₁ = w := hl.2.1.symm.trans hlock.2.1
    obtain ⟨len₂, w₂, hr, hrest⟩ := runs_bind_iff.mp hrest
    obtain rfl : w₂ = w' := hr.2.1.symm.trans hlen.2.1
    obtain ⟨_, w₃, hu, -⟩ := runs_bind_iff.mp hrest
    exact ⟨(), w₃, by rw [hK.unlock]; exact op_eq_some_iff.mpr hu⟩
  · rw [hK.lock, op_eq_some_iff] at hlock
    rw [hK.read, op_eq_some_iff] at hlen
    rw [hK.unlock, op_eq_some_iff] at hunlock
    refine ensures_pure (runs_bind_iff.mpr ⟨u, w, hlock, runs_bind_iff.mpr ⟨len, w', hlen, ?_⟩⟩)
    exact runs_bind_iff.mpr ⟨(), w'', hunlock, rfl, rfl, fun _ he ↦ by cases he⟩

/-- `File::read` returns within its count. -/
def ReadsWithin (K : Rest State Nat π) (f i : Nat) (address : UInt64) (n : Int32)
    (k : Kernel State Nat π) : Prop :=
  ∃ len k', Runs (fun _ _ ↦ True) (File.read K f address n) k len k' ∧
    ReadWithin k.world (loaded k.world (k.world.itable.inodes i)).dinode address
      (k.files f).offset n len k'.world

/-- **The read system call.** `File::read` of an inode file returns within its count, and gives the
bytes of the file, if the file is not readable or the condition on its range and count holds. Outside
of operations it does so only then. -/
theorem readsWithin_iff (hK : Serves K) (htype : (k.files f).type = .Inode)
    (hip : (k.files f).ip = some i) (h : Lockable k.world i) (hu : UserBelow k.world)
    (address : UInt64) (n : Int32)
    (hroom : Met Room (Inode.readFile i address (k.files f).offset n.toUInt32) k.world) :
    ((k.files f).readable = false ∨ Counts k.world
        (loaded k.world (k.world.itable.inodes i)).dinode address (k.files f).offset n →
      ReadsWithin K f i address n k) ∧
    (k.world.log.outstanding < 1 → ReadsWithin K f i address n k →
      (k.files f).readable = false ∨ Counts k.world
        (loaded k.world (k.world.itable.inodes i)).dinode address (k.files f).offset n) := by
  cases hread : (k.files f).readable with
  | false =>
    have hrun : Runs (fun _ _ ↦ True) (File.read K f address n) k (-1) k := by
      refine runs_bind_iff.mpr ⟨_, k, ⟨rfl, rfl, fun _ he ↦ by cases he⟩, ?_⟩
      rw [if_pos (by simp [hread])]
      exact ⟨rfl, rfl, fun _ he ↦ by cases he⟩
    refine ⟨fun _ ↦ ⟨-1, k, hrun, .inl rfl, fun _ _ ↦ rfl, fun hneg ↦ ?_⟩, fun _ _ ↦ .inl rfl⟩
    exact absurd hneg (by decide)
  | true =>
    set d := (loaded k.world (k.world.itable.inodes i)).dinode with hd
    have hsize : d.size.toNat ≤ MAX_FILE * BLOCK_SIZE := by
      have hsize := h.readable.size
      rwa [show (k.world.setInode i (loaded k.world)).itable.inodes i =
        loaded k.world (k.world.itable.inodes i) from Function.update_self ..] at hsize
    have hlooks := Inode.readFile_looks (X := ¬ Ends k.world d true address (k.files f).offset
      (clipped d.size (k.files f).offset n.toUInt32)) (Z := k.world.log.outstanding < 1) h hu hd.symm
      address (k.files f).offset n.toUInt32 id id
    have hruns := read_runs hK hread htype hip address n
    constructor
    · rintro (hfalse | hcounts)
      · cases hfalse
      · obtain ⟨-, len, hv, hto⟩ := hlooks.keeps (not_not_intro hcounts.1) hroom
        obtain ⟨len', k', hrun, hfile⟩ := hruns.runs ⟨len, _, hv, rfl, hroom⟩ fun _ _ ↦ trivial
        obtain ⟨hv', ht', -⟩ := hfile
        rw [hv] at hv'
        cases hv'
        rw [ht'] at hto
        exact ⟨len, k', hrun, (readWithin_iff hto hsize).mpr hcounts⟩
    · rintro hout ⟨len, k', hrun, hwithin⟩
      obtain ⟨hv, ht, -⟩ := hruns.of_runs hrun
      have hto := hlooks.of_value hroom hout hv
      rw [ht] at hto
      exact .inr ((readWithin_iff hto hsize).mp hwithin)

/-- The rest of a kernel of which only the functions that `File::read` calls return. -/
def onlyReads : Rest State Nat Unit where
  openPath _ := fun _ ↦ none
  create _ _ _ _ := fun _ ↦ none
  lock ip := op (Inode.lock ip)
  unlock ip := op (Inode.unlock ip)
  put _ := fun _ ↦ none
  truncate _ := fun _ ↦ none
  type _ _ := 0
  major _ _ := 0
  read ip userDst dst offset length := op (Inode.read ip userDst dst offset length)
  readElfHeader _ _ := fun _ ↦ none
  readProgramHeader _ _ := fun _ ↦ none
  write _ _ _ _ _ := fun _ ↦ none
  deviceRead _ _ _ := fun _ ↦ none
  deviceWrite _ _ _ := fun _ ↦ none
  copyin _ _ := fun _ ↦ none
  copyinString _ _ _ := fun _ ↦ none
  copyout _ _ _ := fun _ ↦ none
  makePageTable := fun _ ↦ none
  deletePageTable _ := fun _ ↦ none
  walkAddress _ _ := fun _ ↦ none
  allocateUserVirtualMemory _ _ _ _ := fun _ ↦ none
  clearUserVirtualMemory _ _ := fun _ ↦ none

/-- A process with one page of user memory that has the root directory open for reading. -/
def rootOpen : Kernel State Nat Unit where
  world := { (started largeDisk).newInode 1 1 with
    user := fun n ↦ if n = 0 then some fun _ ↦ 0 else none }
  begun := 0
  ended := 0
  outstanding := 0
  files _ := ⟨.Inode, 1, true, false, some 0, 0, 0⟩
  openFiles := [some 0]
  cwd := some 0
  args _ := 0
  pageTable := ()
  memorySize := 4096
  epc := 0
  sp := 4096
  name := []

theorem rootOpen_lockable : Lockable rootOpen.world 0 := by
  have hslot : ∀ b, slot rootOpen.world b = none := fun _ ↦ rfl
  have hslot' : ∀ b, slot (rootOpen.world.setInode 0 (loaded rootOpen.world)) b = none := fun _ ↦ rfl
  have hsettled : ∀ b, Settled (rootOpen.world.setInode 0 (loaded rootOpen.world)) b :=
    fun b ↦ ⟨fun i buf h ↦ (by cases (hslot' b).symm.trans h),
      fun i buf h ↦ by cases (hslot' b).symm.trans h⟩
  have hindirect : ((rootOpen.world.setInode 0 (loaded rootOpen.world)).itable.inodes
      0).dinode.indirectBlock = 0 := by
    decide +kernel
  refine ⟨rfl, by decide, fun _ ↦ ⟨⟨fun i buf h ↦ (by cases (hslot _).symm.trans h),
    fun i buf h ↦ by cases (hslot _).symm.trans h⟩, by decide +kernel⟩, ?_⟩
  exact ⟨fun b i buf h ↦ (by cases (hslot' b).symm.trans h), rfl, by decide +kernel,
    fun bn _ ↦ hsettled _, fun _ ↦ (hsettled _).unheld, fun b _ ↦ hsettled _,
    fun hne ↦ absurd hindirect hne, by decide⟩

/-- Twenty bytes of the root directory. -/
theorem readsWithin_twenty : ReadsWithin onlyReads 0 0 100 20 rootOpen := by
  have hserves : Serves onlyReads := ⟨fun _ ↦ rfl, fun _ ↦ rfl, fun _ _ _ _ _ ↦ rfl⟩
  have hbelow : UserBelow rootOpen.world := by
    intro n hn
    by_contra hge
    have hne : n ≠ 0 := by omega
    simp [rootOpen, hne] at hn
  refine (readsWithin_iff hserves rfl rfl rootOpen_lockable hbelow 100 20
    (by decide +kernel)).1 (.inr ⟨.inl (by decide +kernel), .inl (by decide)⟩)

/-- A count of -1 reads the whole directory. -/
theorem reads_beyond_negative : ¬ ReadsWithin onlyReads 0 0 100 (-1) rootOpen := by
  rintro ⟨len, k', ⟨hv, -, -⟩, hwithin⟩
  have hall : (File.read onlyReads 0 100 (-1) rootOpen).value = some 32 := by decide +kernel
  rw [hall] at hv
  cases hv
  have hno : ¬ ((32 : Int32) = -1 ∨ 0 ≤ (32 : Int32).toInt ∧
      (32 : Int32).toInt.toNat ≤ (-1 : Int32).toInt.toNat) := by
    decide
  exact hno hwithin.range

end
end Orfos.Fs
