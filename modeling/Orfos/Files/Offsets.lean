import Orfos.Base.Ranges
import Orfos.Files.Lifetime
import Orfos.Fs.Inode

/-!
# Shared offsets

`File::read` and a round of `File::write` read the offset of a file, transfer bytes from there on
and advance it, all under the lock of the inode. So whoever shares a file, and whatever else
happens between the rounds of a write, the ranges that are transferred through it follow each
other. What `Inode::read` and `Inode::write` return never takes the offset past its 32 bits.
-/

namespace Orfos.Files

open Orfos.Base Orfos.Syscall

/-! ### What may be returned -/

section Returned

open Orfos.Base.Traced

variable {good : Fs.Call → Fs.State → Prop} {s t : Fs.State} {res : Int32}

/-- A positive number of bytes is returned as it is. -/
theorem toNat_of_pos {n : UInt32} (h : 0 < n.toInt32) : n.toInt32.toInt.toNat = n.toNat := by
  have hpos : 0 < n.toInt32.toInt := by
    rw [Int32.lt_iff_toInt_lt] at h
    exact h
  have hval : n.toInt32.toInt = if 2 * n.toNat < 2 ^ 32 then (n.toNat : Int)
      else (n.toNat : Int) - (2 ^ 32 : Nat) := BitVec.toInt_eq_toNat_cond n.toBitVec
  have := n.toNat_lt
  split at hval
  · omega
  · omega

/-- A round takes at most what is left. -/
theorem advance_le {tot length : UInt32} (h : tot < length) (m : Nat) :
    tot + UInt32.ofNat (min (length - tot).toNat m) ≤ length := by
  have hlt := UInt32.lt_iff_toNat_lt.mp h
  have hlen := length.toNat_lt
  have hsub : (length - tot).toNat = length.toNat - tot.toNat :=
    UInt32.toNat_sub_of_le _ _ (UInt32.le_of_lt h)
  rw [UInt32.le_iff_toNat_le, UInt32.toNat_add, UInt32.toNat_ofNat', hsub]
  omega

/-- A sum that is not below its first part has not wrapped around. -/
theorem toNat_add_of_not_lt {a b : UInt32} (h : ¬ a + b < a) :
    (a + b).toNat = a.toNat + b.toNat := by
  have ha := a.toNat_lt
  have hb := b.toNat_lt
  rw [UInt32.lt_iff_toNat_lt, UInt32.toNat_add] at h
  rw [UInt32.toNat_add]
  omega

/-- The loop of `Inode::read` returns at most the length. -/
theorem readFrom_le {i : Nat} {userDst : Bool} {length : UInt32} {n : Nat} {dst : UInt64}
    {offset tot : UInt32} (htot : tot ≤ length)
    (hr : Runs good (Fs.Inode.readFrom i userDst length n dst offset tot) s res t)
    (hpos : 0 < res) : res.toInt.toNat ≤ length.toNat := by
  have hend : ∀ {tot s t}, tot ≤ length →
      Runs good (pure tot.toInt32 : Fs.FsM Int32) s res t → res.toInt.toNat ≤ length.toNat := by
    intro tot s t hle hr
    cases hr.1
    rw [toNat_of_pos hpos]
    exact UInt32.le_iff_toNat_le.mp hle
  induction n generalizing s dst offset tot with
  | zero => exact hend htot hr
  | succ n ih =>
    unfold Fs.Inode.readFrom at hr
    split at hr
    · next hlt =>
      obtain ⟨address, u, -, hr⟩ := runs_bind_iff.mp hr
      split at hr
      · exact hend htot hr
      · obtain ⟨device, u, -, hr⟩ := runs_bind_iff.mp hr
        obtain ⟨bp, u, -, hr⟩ := runs_bind_iff.mp hr
        obtain ⟨_, u, -, hr⟩ := runs_bind_iff.mp hr
        obtain ⟨data, u, -, hr⟩ := runs_bind_iff.mp hr
        obtain ⟨copied, u, -, hr⟩ := runs_bind_iff.mp hr
        obtain ⟨_, u, -, hr⟩ := runs_bind_iff.mp hr
        split at hr
        · exact ih (advance_le hlt _) hr
        · cases hr.1
          exact absurd hpos (by decide)
    · exact hend htot hr

/-- The loop of `Inode::write` gets to at most the length. -/
theorem writeFrom_le {i : Nat} {userSrc : Bool} {length : UInt32} {n : Nat} {src : UInt64}
    {offset tot : UInt32} {r : UInt32 × UInt32} (htot : tot ≤ length)
    (hr : Runs good (Fs.Inode.writeFrom i userSrc length n src offset tot) s r t) :
    r.2 ≤ length := by
  have hend : ∀ {offset tot s t}, tot ≤ length →
      Runs good (pure (offset, tot) : Fs.FsM (UInt32 × UInt32)) s r t → r.2 ≤ length := by
    intro offset tot s t hle hr
    cases hr.1
    exact hle
  induction n generalizing s src offset tot with
  | zero => exact hend htot hr
  | succ n ih =>
    unfold Fs.Inode.writeFrom at hr
    split at hr
    · next hlt =>
      obtain ⟨address, u, -, hr⟩ := runs_bind_iff.mp hr
      split at hr
      · exact hend htot hr
      · obtain ⟨device, u, -, hr⟩ := runs_bind_iff.mp hr
        obtain ⟨bp, u, -, hr⟩ := runs_bind_iff.mp hr
        obtain ⟨_, u, -, hr⟩ := runs_bind_iff.mp hr
        obtain ⟨copied, u, -, hr⟩ := runs_bind_iff.mp hr
        split at hr
        · obtain ⟨_, u, -, hr⟩ := runs_bind_iff.mp hr
          obtain ⟨_, u, -, hr⟩ := runs_bind_iff.mp hr
          exact ih (advance_le hlt _) hr
        · obtain ⟨_, u, -, hr⟩ := runs_bind_iff.mp hr
          exact hend htot hr
    · exact hend htot hr

/-- What `Inode::read` returns. -/
theorem read_canRead {i : Nat} {userDst : Bool} {dst : UInt64} {offset length : UInt32}
    (hr : Runs good (Fs.Inode.read i userDst dst offset length) s res t) :
    CanRead offset length res := by
  intro hpos
  unfold Fs.Inode.read at hr
  obtain ⟨size, u, -, hr⟩ := runs_bind_iff.mp hr
  split at hr
  · cases hr.1
    exact absurd hpos (by decide)
  · next hin =>
    obtain ⟨hsize, hwrap⟩ := not_or.mp hin
    have hle := readFrom_le UInt32.zero_le hr hpos
    have hsum := toNat_add_of_not_lt hwrap
    have hbound := size.toNat_lt
    rw [UInt32.not_lt, UInt32.le_iff_toNat_le] at hsize
    split at hle
    · next hgt =>
      rw [gt_iff_lt, UInt32.lt_iff_toNat_lt, hsum] at hgt
      rw [UInt32.toNat_sub_of_le _ _ (UInt32.le_iff_toNat_le.mpr hsize)] at hle
      omega
    · have := (offset + length).toNat_lt
      omega

/-- What `Inode::write` returns. -/
theorem write_canWrite {i : Nat} {userSrc : Bool} {src : UInt64} {offset length : UInt32}
    (hr : Runs good (Fs.Inode.write i userSrc src offset length) s res t) :
    CanWrite offset length res := by
  intro hpos
  unfold Fs.Inode.write at hr
  obtain ⟨size, u, -, hr⟩ := runs_bind_iff.mp hr
  split at hr
  · cases hr.1
    exact absurd hpos (by decide)
  · next hin =>
    have hsum := toNat_add_of_not_lt (not_or.mp hin).2
    split at hr
    · cases hr.1
      exact absurd hpos (by decide)
    · next hmax =>
      obtain ⟨r, u, hloop, hr⟩ := runs_bind_iff.mp hr
      obtain ⟨size', u, -, hr⟩ := runs_bind_iff.mp hr
      have hle := UInt32.le_iff_toNat_le.mp (writeFrom_le UInt32.zero_le hloop)
      have hres : res = r.2.toInt32 := by
        split at hr
        · obtain ⟨_, u, -, hr⟩ := runs_bind_iff.mp hr
          obtain ⟨_, u, -, hr⟩ := runs_bind_iff.mp hr
          cases hr.1
          rfl
        · obtain ⟨_, u, -, hr⟩ := runs_bind_iff.mp hr
          cases hr.1
          rfl
      rw [hres] at hpos ⊢
      rw [toNat_of_pos hpos]
      change ¬ (offset + length).toNat > 268 * 1024 at hmax
      change _ ∧ _ ≤ 268 * 1024
      omega

end Returned

variable {ι δ : Type} [DecidableEq ι]

namespace Machine

variable {s s' : Machine ι δ} {t : Nat} {p : Process ι}

/-! ### The ranges of a run -/

/-- The ranges that were transferred through an open inode file follow each other up to its
offset. -/
def Tiled (s : Machine ι δ) : Prop :=
  ∀ i, (s.files i).type = .Inode → Tiles 0 (s.history.transfers i) (s.files i).offset.toNat

/-- A step that transfers nothing and opens nothing. -/
def Still (s s' : Machine ι δ) : Prop :=
  s'.history.transfers = s.history.transfers ∧ ∀ i, (s'.files i).type = .Inode →
    (s.files i).type = .Inode ∧ (s'.files i).offset = (s.files i).offset

omit [DecidableEq ι] in
theorem Still.tiled (h : Still s s') (hs : s.Tiled) : s'.Tiled := by
  intro i htype
  obtain ⟨hold, hoffset⟩ := h.2 i htype
  rw [h.1, hoffset]
  exact hs i hold

omit [DecidableEq ι] in
theorem Still.of_files (hfiles : s'.files = s.files)
    (hhistory : s'.history.transfers = s.history.transfers) : Still s s' := by
  refine ⟨hhistory, fun i htype ↦ ?_⟩
  rw [hfiles] at htype ⊢
  exact ⟨htype, rfl⟩

omit [DecidableEq ι] in
/-- A change to an entry of `ftable` that leaves its offset. -/
theorem Still.set {i : Nat} {f : File ι} (hfiles : s'.files = Function.update s.files i f)
    (hhistory : s'.history.transfers = s.history.transfers)
    (hf : f.type = .Inode → (s.files i).type = .Inode ∧ f.offset = (s.files i).offset) :
    Still s s' := by
  refine ⟨hhistory, fun j htype ↦ ?_⟩
  rw [hfiles] at htype ⊢
  by_cases hj : j = i
  · subst hj
    rw [Function.update_self] at htype ⊢
    exact hf htype
  · rw [Function.update_of_ne hj] at htype ⊢
    exact ⟨htype, rfl⟩

omit [DecidableEq ι] in
theorem closeFile_still (s : Machine ι δ) (t fd : Nat) (exiting : Bool) (i : Nat) :
    Still s (s.closeFile t fd exiting i) := by
  unfold closeFile
  dsimp only
  split
  · exact .of_files rfl rfl
  · split
    · exact .set rfl rfl fun h ↦ ⟨h, rfl⟩
    · split
      · exact .set rfl rfl nofun
      · exact .set rfl rfl nofun
      · split
        · exact .set rfl rfl nofun
        · exact .set rfl rfl nofun
      · split
        · exact .set rfl rfl nofun
        · exact .set rfl rfl nofun

theorem fork_still (s : Machine ι δ) (t c fd : Nat) : Still s (s.fork t c fd) := by
  unfold Machine.fork
  dsimp only
  split
  · split
    · exact .of_files rfl rfl
    · exact .set rfl rfl fun h ↦ ⟨h, rfl⟩
  · exact .of_files rfl rfl
  · split
    · exact .of_files rfl rfl
    · exact .of_files rfl rfl

omit [DecidableEq ι] in
theorem access_still (s : Machine ι δ) (t i : Nat) (allowed : Bool)
    (function : Device → Option Driver) (l : Pc ι) (res : Int32) :
    Still s (s.access t i allowed function l res) := by
  unfold access
  split
  · exact .of_files rfl rfl
  · split
    · exact .of_files rfl rfl
    · split
      · exact .of_files rfl rfl
      · split
        · exact .of_files rfl rfl
        · exact .of_files rfl rfl
    · exact .of_files rfl rfl
    · exact .of_files rfl rfl

omit [DecidableEq ι] in
/-- A transfer whose range fits goes on where the last one ended. -/
theorem Tiled.transfer (h : s.Tiled) {i : Nat} {res : Int32}
    (hfit : 0 < res → (s.files i).offset.toNat + res.toInt.toNat < 2 ^ 32) :
    (s.transfer i res).Tiled := by
  unfold Machine.transfer
  dsimp only
  split
  · next hpos =>
    have hres : res.toUInt32.toNat = res.toInt.toNat := by
      have := toNat_of_pos (n := res.toUInt32) (by rw [Int32.toInt32_toUInt32]; exact hpos)
      rw [Int32.toInt32_toUInt32] at this
      exact this.symm
    intro j htype
    by_cases hj : j = i
    · subst hj
      simp only [setFile, Function.update_self] at htype ⊢
      rw [UInt32.toNat_add, hres, Nat.mod_eq_of_lt (hfit hpos)]
      exact (h j htype).append
    · simp only [setFile, Function.update_of_ne hj] at htype ⊢
      exact h j htype
  · exact h

/-- `open` begins a file without transfers. -/
theorem Tiled.finishOpen (h : s.Tiled) {ip : ι} {mode : Int32} {locked : Bool} {i : Nat} {d : δ} :
    (s.finishOpen t ip mode locked i d).Tiled := by
  have hopened : (s.finishOpen t ip mode true i d).Tiled := by
    intro j htype
    change (Function.update s.files i _ j).type = _ at htype
    change Tiles 0 (Function.update s.history.transfers i [] j)
      (Function.update s.files i _ j).offset.toNat
    by_cases hj : j = i
    · subst hj
      rw [Function.update_self] at htype ⊢
      rw [Function.update_self]
      unfold install at htype ⊢
      dsimp only at htype ⊢
      split at htype
      · cases htype
      · next hdev =>
        rw [if_neg hdev]
        rfl
    · rw [Function.update_of_ne hj] at htype ⊢
      rw [Function.update_of_ne hj]
      exact h j htype
  cases locked with
  | true => exact hopened
  | false => exact hopened

/-- The next step of a process. -/
theorem Tiled.go (h : s.Tiled) {res : Int32} {d : δ} (hs : s.go t res d = some s') :
    s'.Tiled := by
  have hstill : ∀ {s'' : Machine ι δ}, Still s s'' → s''.Tiled := fun hst ↦ hst.tiled h
  unfold Machine.go at hs
  dsimp only at hs
  split at hs
  · cases hs
  · cases hs
  · cases hs
  · split at hs
    · cases hs
      exact hstill (.of_files rfl rfl)
    · split at hs
      · cases hs
        exact hstill (.of_files rfl rfl)
      · cases hs
        exact hstill (.set rfl rfl fun h ↦ ⟨h, rfl⟩)
  · cases hs
    split
    · exact hstill (.of_files rfl rfl)
    · exact hstill (.of_files rfl rfl)
  · cases hs
    exact h.finishOpen
  · split at hs
    · cases hs
      exact hstill (closeFile_still ..)
    · cases hs
      exact hstill (.of_files rfl rfl)
  · cases hs
    exact hstill (.of_files rfl rfl)
  · cases hs
    exact hstill (.of_files rfl rfl)
  · split at hs
    · cases hs
      exact hstill (.of_files rfl rfl)
    · cases hs
      exact hstill (.of_files rfl rfl)
    · cases hs
      exact hstill (.of_files rfl rfl)
  · split at hs
    · cases hs
      exact hstill (.of_files rfl rfl)
    · cases hs
      exact hstill (.of_files rfl rfl)
  · cases hs
    exact hstill (fork_still ..)
  · next i n _ =>
    split at hs
    · cases hs
      exact hstill (.of_files rfl rfl)
    · split at hs
      · next hcan =>
        cases hs
        have ht : (s.transfer i res).Tiled := h.transfer fun hpos ↦ (hcan hpos).2
        exact Still.tiled (.of_files rfl rfl) ht
      · cases hs
  · next i n k _ =>
    rcases writeChunk_cases hs with ⟨-, rfl⟩ | ⟨-, -, rfl⟩ | ⟨ip, -, -, hcan, hrest⟩
    · exact hstill (.of_files rfl rfl)
    · exact hstill (.of_files rfl rfl)
    · have ht : ({ s with data := Function.update s.data ip d }.transfer i res).Tiled := by
        have hdata : { s with data := Function.update s.data ip d }.Tiled := h
        refine hdata.transfer fun hpos ↦ ?_
        have hmax : (s.files i).offset.toNat + res.toInt.toNat ≤ 268 * 1024 := (hcan hpos).2
        change (s.files i).offset.toNat + _ < _
        omega
      rcases hrest with ⟨-, rfl⟩ | ⟨-, rfl⟩
      · exact Still.tiled (.of_files rfl rfl) ht
      · exact Still.tiled (.of_files rfl rfl) ht

/-- Every step keeps the ranges. -/
theorem Tiled.step (h : s.Tiled) {e : Event ι δ} (hs : s.step e = some s') : s'.Tiled := by
  have hstill : ∀ {s'' : Machine ι δ}, Still s s'' → s''.Tiled := fun hst ↦ hst.tiled h
  unfold Machine.step at hs
  split at hs
  · cases hs
  cases e with
  | open_ t mode lookup =>
    obtain ⟨-, -, hs⟩ := call_eq hs
    cases lookup with
    | absent =>
      cases hs
      exact hstill (.of_files rfl rfl)
    | found ip =>
      unfold Machine.open_ at hs
      dsimp only at hs
      split at hs
      · split at hs <;> cases hs
        exact hstill (.of_files rfl rfl)
      · split at hs <;> cases hs <;> exact hstill (.of_files rfl rfl)
    | existing ip =>
      unfold Machine.open_ at hs
      dsimp only at hs
      split at hs
      · split at hs <;> cases hs <;> exact hstill (.of_files rfl rfl)
      · cases hs
  | close t fd =>
    obtain ⟨-, -, hs⟩ := call_eq hs
    split at hs <;> cases hs <;> exact hstill (.of_files rfl rfl)
  | fork t =>
    obtain ⟨-, -, hs⟩ := call_eq hs
    cases hs
    exact hstill (.of_files rfl rfl)
  | exit t =>
    obtain ⟨-, -, hs⟩ := call_eq hs
    cases hs
    exact hstill (.of_files rfl rfl)
  | read t fd n res =>
    obtain ⟨-, -, hs⟩ := call_eq hs
    split at hs
    · cases hs
      exact hstill (.of_files rfl rfl)
    · cases hs
      exact hstill (access_still ..)
  | write t fd n res =>
    obtain ⟨-, -, hs⟩ := call_eq hs
    split at hs
    · cases hs
      exact hstill (.of_files rfl rfl)
    · cases hs
      exact hstill (access_still ..)
  | mknod t major minor lookup =>
    obtain ⟨-, -, hs⟩ := call_eq hs
    cases lookup with
    | absent =>
      cases hs
      exact hstill (.of_files rfl rfl)
    | found ip =>
      dsimp only at hs
      split at hs <;> cases hs
      exact hstill (.of_files rfl rfl)
    | existing ip =>
      cases hs
      exact hstill (.of_files rfl rfl)
  | go t res d =>
    dsimp only at hs
    split at hs
    · exact h.go hs
    · cases hs
  | load ip type major =>
    dsimp only at hs
    split at hs <;> cases hs
    exact hstill (.of_files rfl rfl)
  | refer ip n =>
    cases hs
    exact hstill (.of_files rfl rfl)
  | change data =>
    cases hs
    exact hstill (.of_files rfl rfl)

/-- In every run, the ranges that were transferred through an open inode file since it was opened
follow each other in the order of the locks: each one starts at the sum of the lengths before it,
different ones are apart, no byte below the offset is left out, and the offset is the sum of all
lengths. -/
theorem transfers_consecutive {s₀ : Machine ι δ} {root : ι} (h₀ : s₀.Initial root)
    (hr : Run Machine.step (fun _ _ ↦ True) s₀ s) {i : Nat} (hi : (s.files i).type = .Inode) :
    (∀ k r, (s.history.transfers i)[k]? = some r →
        r.1 = (((s.history.transfers i).take k).map Prod.snd).sum) ∧
      (s.history.transfers i).Pairwise (fun r r' ↦ r.1 + r.2 ≤ r'.1) ∧
      (∀ x < (s.files i).offset.toNat, ∃ r ∈ s.history.transfers i, r.1 ≤ x ∧ x < r.1 + r.2) ∧
      (s.files i).offset.toNat = ((s.history.transfers i).map Prod.snd).sum := by
  have hzero : s₀.Tiled := by
    intro j hj
    rw [(h₀.files j).1] at hj
    cases hj
  have htiles := hr.invariant (I := Tiled) hzero (fun _ _ _ h _ hs ↦ h.step hs) i hi
  refine ⟨fun k r hk ↦ ?_, htiles.pairwise, fun x hx ↦ htiles.cover (Nat.zero_le x) hx, ?_⟩
  · rw [htiles.start hk, Nat.zero_add]
  · rw [← Nat.zero_add (List.sum _)]
    exact htiles.sum

/-- A process opens the file and forks. It writes 4000 bytes, in two rounds, and its child reads in
between, and then it writes a round that fails. -/
def interleaved : List (Event (Fin 2) Nat) :=
  [.open_ 0 O_RDWR (.found 1), .go 0 0 0, .go 0 0 0, .fork 0, .go 0 0 0, .go 0 0 0,
    .write 0 0 4000 0, .go 0 3072 1, .read 1 0 10 0, .go 1 7 0, .go 0 928 2, .go 0 0 0,
    .write 1 0 5 0, .go 1 (-1) 0]

theorem transfers_consecutive_interleaved :
    (final Machine.step boot interleaved).history.transfers 0 =
        [(0, 3072), (3072, 7), (3079, 928)] ∧
      ((final Machine.step boot interleaved).files 0).offset.toNat = 4007 ∧
      ((final Machine.step boot interleaved).files 0).offset.toNat =
        (((final Machine.step boot interleaved).history.transfers 0).map Prod.snd).sum :=
  ⟨by decide +kernel, by decide +kernel,
    (transfers_consecutive boot_initial (run_final (by decide +kernel)
      (by simp [interleaved, Plays])) (by decide +kernel)).2.2.2⟩

end Machine

end Orfos.Files
