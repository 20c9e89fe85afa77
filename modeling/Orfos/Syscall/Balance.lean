import Orfos.Syscall.Handlers

/-!
# Balanced transactions

How many more calls of `beginOp` than of `endOp` a handler makes. Every handler makes as many
of one as of the other, except for one return of `Process::open`, which is characterised by
what the path leads to. Nothing is assumed about the functions that the handlers call.
-/

namespace Orfos.Syscall

open Orfos.Base Orfos.Base.Traced

variable {ω ι π α β : Type} {n : Int} {k : Kernel ω ι π}

/-- Programs that may stop anywhere; they have to return if `total` holds. -/
def regime (total : Prop) : Regime (Kernel ω ι π) Empty := ⟨fun _ _ ↦ True, fun _ ↦ True, total⟩

/-- From `k` to `k'` there were `n` more calls of `beginOp` than of `endOp`. -/
def Drift (n : Int) (k k' : Kernel ω ι π) : Prop :=
  (k'.begun : Int) - k.begun = k'.ended - k.ended + n ∧ k'.outstanding = k.outstanding + n

/-- A program that returns has made `n` more calls of `beginOp` than of `endOp`. -/
def Drifts (n : Int) (m : Handler ω ι π α) : Prop :=
  ∀ k, Ensures (regime False) m k fun _ ↦ Drift n k

/-- The numbers of calls add up. -/
theorem Drift.trans {i : Int} {k' k'' : Kernel ω ι π} (h : Drift i k k') (h' : Drift n k' k'') :
    Drift (i + n) k k'' := by
  obtain ⟨h₁, h₂⟩ := h
  obtain ⟨h₃, h₄⟩ := h'
  constructor <;> omega

section Rules

theorem drifts_pure {a : α} (hn : n = 0) : Drifts n (pure a : Handler ω ι π α) := by
  intro k
  refine ensures_pure ?_
  subst hn
  constructor <;> omega

theorem drifts_stop : Drifts n (stop : Handler ω ι π α) :=
  fun _ ↦ ensures_stop id trivial

theorem drifts_bind {m : Handler ω ι π α} {f : α → Handler ω ι π β} {i j : Int}
    (hm : Drifts i m) (hf : ∀ a, Drifts j (f a)) (hn : n = i + j) : Drifts n (m >>= f) := by
  intro k
  subst hn
  exact ensures_bind (hm k) fun a k' hk ↦ (hf a k').imp fun _ _ hk' ↦ hk.trans hk'

/-- A program that leaves the calls alone may come first. -/
theorem drifts_skip {m : Handler ω ι π α} {f : α → Handler ω ι π β} (hm : Drifts 0 m)
    (hf : ∀ a, Drifts n (f a)) : Drifts n (m >>= f) :=
  drifts_bind hm hf (by omega)

theorem drifts_modify {f : Kernel ω ι π → Kernel ω ι π} (hf : ∀ k, Drift n k (f k)) :
    Drifts n (modify f) :=
  fun k ↦ ensures_modify (hf k)

theorem drifts_gets {f : Kernel ω ι π → α} : Drifts 0 (gets f : Handler ω ι π α) :=
  fun _ ↦ ensures_gets ⟨by omega, by omega⟩

theorem drifts_assert {p : Kernel ω ι π → Prop} [DecidablePred p] :
    Drifts 0 (assert p : Handler ω ι π Unit) :=
  fun _ ↦ ensures_assert (fun h ↦ h.elim) trivial fun _ ↦ ⟨by omega, by omega⟩

theorem drifts_map {m : Handler ω ι π α} {f : α → β} (hm : Drifts n m) :
    Drifts n (f <$> m) :=
  drifts_bind hm (fun _ ↦ drifts_pure rfl) (by omega)

/-- A call into the rest of the kernel returns what the called function returns. -/
theorem ensures_enter {f : Op ω α} {t : Prop} {Q : α → Kernel ω ι π → Prop}
    (ht : t → ∃ a w, f k.world = some (a, w))
    (h : ∀ a w, f k.world = some (a, w) → Q a { k with world := w }) :
    Ensures (regime t) (enter f) k Q := by
  intro _
  unfold enter
  cases hf : f k.world with
  | none =>
    refine ⟨fun e he ↦ (by cases he), fun h' ↦ ?_, trivial⟩
    obtain ⟨a, w, haw⟩ := ht h'
    rw [hf] at haw
    cases haw
  | some r => exact ⟨fun e he ↦ (by cases he), h r.1 r.2 hf⟩

theorem ensures_enter_bind {f : Op ω α} {g : α → Handler ω ι π β} {t : Prop}
    {Q : β → Kernel ω ι π → Prop} (ht : t → ∃ a w, f k.world = some (a, w))
    (h : ∀ a w, f k.world = some (a, w) → Ensures (regime t) (g a) { k with world := w } Q) :
    Ensures (regime t) (enter f >>= g) k Q :=
  ensures_bind (P := fun a k' ↦ ∃ w, f k.world = some (a, w) ∧ k' = { k with world := w })
    (ensures_enter ht fun _ w haw ↦ ⟨w, haw, rfl⟩) fun _ _ ⟨w, haw, hk⟩ ↦ hk ▸ h _ w haw

theorem drifts_enter {f : Op ω α} : Drifts 0 (enter f : Handler ω ι π α) :=
  fun _ ↦ ensures_enter (fun h ↦ h.elim) fun _ _ _ ↦ ⟨by simp, by simp⟩

theorem drifts_deref {p : Option α} : Drifts 0 (deref p : Handler ω ι π α) := by
  cases p with
  | none => exact drifts_stop
  | some a => exact drifts_pure rfl

theorem drifts_setFile {i : Nat} {f : File ι → File ι} :
    Drifts 0 (setFile i f : Handler ω ι π Unit) :=
  drifts_modify fun _ ↦ ⟨by simp, by simp⟩

/-- `beginOp` counts as one call, and what follows it sees the rest of the kernel unchanged. -/
theorem ensures_begin {f : Unit → Handler ω ι π β} {t : Prop}
    (h : ∀ k', k'.world = k.world → Ensures (regime t) (f ()) k' fun _ ↦ Drift n k') :
    Ensures (regime t) (beginOp >>= f) k fun _ ↦ Drift (1 + n) k := by
  have hk : Drift 1 k { k with begun := k.begun + 1, outstanding := k.outstanding + 1 } :=
    ⟨by dsimp only; omega, rfl⟩
  exact ensures_modify_bind ((h _ (by rfl)).imp fun _ _ hk' ↦ hk.trans hk')

theorem drifts_endOp : Drifts (-1) (endOp : Handler ω ι π Unit) :=
  drifts_modify fun _ ↦ ⟨by dsimp only; omega, rfl⟩

/-- `beginOp` opens a transaction that the program after it ends. -/
theorem drifts_begin {f : Unit → Handler ω ι π β} (hf : Drifts (-1) (f ())) :
    Drifts 0 (beginOp >>= f) :=
  fun _ ↦ ensures_begin fun k' _ ↦ hf k'

/-- The program after `endOp` leaves the calls alone. -/
theorem drifts_end {f : Unit → Handler ω ι π β} (hf : Drifts 0 (f ())) :
    Drifts (-1) (endOp >>= f) :=
  drifts_bind drifts_endOp (fun _ ↦ hf) rfl

end Rules

variable (K : Rest ω ι π)

/-- Let go of an inode, and end the transaction. -/
private theorem drifts_drop {ip : ι} {a : α} : Drifts (-1) (do
    enter (K.unlock ip)
    enter (K.put ip)
    endOp
    pure a : Handler ω ι π α) :=
  drifts_skip drifts_enter fun _ ↦ drifts_skip drifts_enter fun _ ↦
    drifts_end (drifts_pure rfl)

section Arguments

theorem drifts_getArgFd {i : Fin 6} : Drifts 0 (getArgFd i : Handler ω ι π _) := by
  refine drifts_skip drifts_gets fun fd ↦ drifts_skip drifts_gets fun openFiles ↦ ?_
  split
  · exact drifts_pure rfl
  · split <;> exact drifts_pure rfl

theorem drifts_fetchAddress {address : UInt64} : Drifts 0 (fetchAddress K address) := by
  refine drifts_skip drifts_gets fun memorySize ↦ drifts_skip drifts_gets fun pageTable ↦ ?_
  split
  · exact drifts_pure rfl
  · exact drifts_enter

theorem drifts_fetchString {address length : UInt64} :
    Drifts 0 (fetchString K address length) :=
  drifts_skip drifts_gets fun _ ↦ drifts_enter

theorem drifts_getArgString {i : Fin 6} {length : UInt64} :
    Drifts 0 (getArgString K i length) :=
  drifts_skip drifts_gets fun _ ↦ drifts_fetchString K

theorem drifts_fetchArgs {uargv : UInt64} (fuel i : Nat) :
    Drifts 0 (fetchArgs K uargv fuel i) := by
  induction fuel generalizing i with
  | zero => exact drifts_pure rfl
  | succ fuel ih =>
    refine drifts_skip (drifts_fetchAddress K) fun uarg ↦ ?_
    split
    · exact drifts_pure rfl
    · split
      · exact drifts_pure rfl
      · refine drifts_skip (drifts_fetchString K) fun arg ↦ ?_
        split
        · exact drifts_pure rfl
        · exact drifts_skip (ih _) fun argv ↦ drifts_pure rfl

end Arguments

section Files

theorem drifts_allocate : Drifts 0 (File.allocate : Handler ω ι π _) := by
  refine drifts_skip drifts_gets fun files ↦ ?_
  split
  · exact drifts_pure rfl
  · exact drifts_skip drifts_setFile fun _ ↦ drifts_pure rfl

theorem drifts_read {i : Nat} {address : UInt64} {len : Int32} :
    Drifts 0 (File.read K i address len) := by
  refine drifts_skip drifts_gets fun file ↦ ?_
  split
  · exact drifts_pure rfl
  · split
    · exact drifts_pure rfl
    · split
      · exact drifts_pure rfl
      · exact drifts_enter
    · exact drifts_skip drifts_deref fun ip ↦ drifts_skip drifts_enter fun _ ↦
        drifts_skip drifts_gets fun offset ↦ drifts_skip drifts_enter fun len ↦
        drifts_skip drifts_setFile fun _ ↦ drifts_skip drifts_enter fun _ ↦ drifts_pure rfl
    · exact drifts_stop

/-- Every round of the loop opens and ends a transaction. -/
theorem drifts_writeLoop {i : Nat} {ip : ι} {address : UInt64} {len : Int32} (fuel : Nat)
    (done : Int32) : Drifts 0 (File.writeLoop K i ip address len fuel done) := by
  induction fuel generalizing done with
  | zero => exact drifts_pure rfl
  | succ fuel ih =>
    unfold File.writeLoop
    split
    · refine drifts_begin (drifts_skip drifts_enter fun _ ↦ drifts_skip drifts_gets fun offset ↦
        drifts_skip drifts_enter fun res ↦ drifts_skip drifts_setFile fun _ ↦
        drifts_skip drifts_enter fun _ ↦ drifts_end ?_)
      generalize (if len - done > File.max then File.max else len - done) = chunk
      split
      · exact drifts_pure rfl
      · exact ih _
    · exact drifts_pure rfl

theorem drifts_write {i : Nat} {address : UInt64} {len : Int32} :
    Drifts 0 (File.write K i address len) := by
  refine drifts_skip drifts_gets fun file ↦ ?_
  split
  · exact drifts_pure rfl
  · split
    · exact drifts_pure rfl
    · split
      · exact drifts_pure rfl
      · exact drifts_enter
    · exact drifts_skip drifts_deref fun ip ↦ drifts_writeLoop K _ _
    · exact drifts_stop

theorem drifts_fileClose {i : Nat} : Drifts 0 (File.close K i) := by
  refine drifts_skip drifts_assert fun _ ↦ drifts_skip drifts_setFile fun _ ↦
    drifts_skip drifts_gets fun file ↦ ?_
  split
  · exact drifts_pure rfl
  · refine drifts_skip drifts_setFile fun _ ↦ ?_
    split
    · exact drifts_pure rfl
    · exact drifts_pure rfl
    all_goals
      exact drifts_begin (drifts_skip drifts_deref fun ip ↦ drifts_skip drifts_enter fun _ ↦
        drifts_endOp)

theorem drifts_close {fd : Int32} : Drifts 0 (Process.close K fd) := by
  refine drifts_skip drifts_gets fun openFiles ↦ ?_
  split
  · exact drifts_pure rfl
  · split
    · exact drifts_pure rfl
    · exact drifts_skip drifts_deref fun i ↦ drifts_skip (drifts_fileClose K) fun _ ↦
        drifts_skip (drifts_modify fun _ ↦ ⟨by simp, by simp⟩) fun _ ↦ drifts_pure rfl

theorem drifts_closeAll (files : List (Option Nat)) : Drifts 0 (Process.closeAll K files) := by
  induction files with
  | nil => exact drifts_pure rfl
  | cons file files ih =>
    cases file with
    | none => exact ih
    | some i => exact drifts_skip (drifts_fileClose K) fun _ ↦ ih

theorem drifts_exit : Drifts 0 (Process.exit K) :=
  drifts_skip drifts_gets fun _ ↦ drifts_skip (drifts_closeAll K _) fun _ ↦
    drifts_skip (drifts_modify fun _ ↦ ⟨by simp, by simp⟩) fun _ ↦
    drifts_begin (drifts_skip drifts_gets fun _ ↦ drifts_skip drifts_deref fun _ ↦
      drifts_skip drifts_enter fun _ ↦
      drifts_end (drifts_modify fun _ ↦ ⟨by simp, by simp⟩))

end Files

section Exec

/-- `bad` ends the transaction if the inode is still held. -/
theorem drifts_bad {pageTable : π} {ip : ι} : Drifts (-1) (Elf.bad K pageTable (some ip)) :=
  drifts_skip drifts_enter fun _ ↦ drifts_drop K

theorem drifts_bad_none {pageTable : π} : Drifts 0 (Elf.bad K pageTable none) :=
  drifts_skip drifts_enter fun _ ↦ drifts_pure rfl

theorem drifts_loadSegment {pageTable : π} {va : UInt64} {ip : ι} {offset size : UInt64}
    (fuel : Nat) (i : UInt64) :
    Drifts 0 (Elf.loadSegment K pageTable va ip offset size fuel i) := by
  induction fuel generalizing i with
  | zero => exact drifts_stop
  | succ fuel ih =>
    unfold Elf.loadSegment
    split
    · refine drifts_skip drifts_enter fun pa ↦ drifts_skip drifts_assert fun _ ↦
        drifts_skip drifts_enter fun len ↦ ?_
      generalize (if size - i < PAGE_SIZE then size - i else PAGE_SIZE) = chunk
      split
      · exact drifts_pure rfl
      · exact ih _
    · exact drifts_pure rfl

theorem drifts_load {pageTable : π} {ip : ι} {next : UInt64 → Handler ω ι π Int32}
    (hnext : ∀ size, Drifts (-1) (next size)) (fuel : Nat) (offset size : UInt64) :
    Drifts (-1) (Elf.load K pageTable ip next fuel offset size) := by
  induction fuel generalizing offset size with
  | zero => exact hnext size
  | succ fuel ih =>
    refine drifts_skip drifts_enter fun r ↦ ?_
    obtain ⟨len, progHeader⟩ := r
    dsimp only
    split
    · exact drifts_bad K
    split
    · exact ih _ _
    split
    · exact drifts_bad K
    split
    · exact drifts_bad K
    split
    · exact drifts_bad K
    refine drifts_skip drifts_enter fun size ↦ ?_
    split
    · exact drifts_bad K
    refine drifts_skip (drifts_loadSegment K _ _) fun res ↦ ?_
    split
    · exact drifts_bad K
    · exact ih _ _

theorem drifts_pushArgs {pageTable : π} {stackBase : UInt64}
    {next : UInt64 → List UInt64 → Handler ω ι π Int32}
    (hnext : ∀ sp ustack, Drifts 0 (next sp ustack)) (argv : List CString) (sp : UInt64)
    (ustack : List UInt64) :
    Drifts 0 (Elf.pushArgs K pageTable stackBase next argv sp ustack) := by
  induction argv generalizing sp ustack with
  | nil => exact hnext sp ustack
  | cons arg argv ih =>
    unfold Elf.pushArgs
    split
    · exact drifts_bad_none K
    dsimp only
    split
    · exact drifts_bad_none K
    refine drifts_skip drifts_enter fun res ↦ ?_
    split
    · exact drifts_bad_none K
    · exact ih _ _

theorem drifts_finish {path : CString} {pageTable : π} {elfHeader : ElfHeader}
    {size sp : UInt64} {ustack : List UInt64} :
    Drifts 0 (Elf.finish K path pageTable elfHeader size sp ustack) := by
  unfold Elf.finish
  dsimp only
  split
  · exact drifts_bad_none K
  refine drifts_skip drifts_enter fun res ↦ ?_
  split
  · exact drifts_bad_none K
  · exact drifts_skip drifts_gets fun _ ↦
      drifts_skip (drifts_modify fun _ ↦ ⟨by simp, by simp⟩) fun _ ↦
      drifts_skip drifts_enter fun _ ↦ drifts_pure rfl

theorem drifts_buildStack {path : CString} {pageTable : π} {elfHeader : ElfHeader}
    {argv : List CString} {size : UInt64} :
    Drifts 0 (Elf.buildStack K path pageTable elfHeader argv size) := by
  refine drifts_skip drifts_enter fun allocSize ↦ ?_
  split
  · exact drifts_bad_none K
  · exact drifts_skip drifts_enter fun _ ↦
      drifts_pushArgs K (fun _ _ ↦ drifts_finish K) _ _ _

theorem drifts_exec {path : CString} {argv : List CString} :
    Drifts 0 (Elf.exec K path argv) := by
  refine drifts_begin (drifts_skip drifts_enter fun found ↦ ?_)
  split
  · exact drifts_end (drifts_pure rfl)
  refine drifts_skip drifts_enter fun _ ↦ drifts_skip drifts_enter fun pageTable ↦
    drifts_skip drifts_enter fun r ↦ ?_
  obtain ⟨len, elfHeader⟩ := r
  dsimp only
  split
  · exact drifts_bad K
  split
  · exact drifts_bad K
  · exact drifts_load K (fun size ↦ drifts_skip drifts_enter fun _ ↦
      drifts_skip drifts_enter fun _ ↦ drifts_end (drifts_buildStack K)) _ _ _

end Exec

section Open

/-- The inode that `Process::open` finds for a path, locked. -/
def locate (path : CString) (mode : Int32) : Op ω (Option ι) := fun w ↦
  if mode &&& O_CREATE ≠ 0 then
    K.create path T_FILE 0 0 w
  else
    match K.openPath path w with
    | some (some ip, w) => (K.lock ip w).map fun r ↦ (some ip, r.2)
    | r => r

/-- `Inode::open` or `Inode::create` leads to a device file whose major number is that of no
device, and letting go of it returns. -/
def Strays (path : CString) (mode : Int32) (w : ω) : Prop :=
  ∃ ip w₁ w₂ w₃, locate K path mode w = some (some ip, w₁) ∧ K.type ip w₁ = T_DEVICE ∧
    (K.major ip w₁ < 0 ∨ K.major ip w₁ ≥ NUM_DEVICES) ∧
    K.unlock ip w₁ = some ((), w₂) ∧ K.put ip w₂ = some ((), w₃)

/-- The system call `open` is about such a file. -/
def OpensStray (k : Kernel ω ι π) : Prop :=
  ∃ path w, K.copyinString k.pageTable (k.args 0) MAX_PATH_LENGTH k.world = some (some path, w) ∧
    Strays K path (k.args 1).toInt64.toInt32 w

/-- Unless the inode is such a device file, the transaction ends. -/
private theorem openFound_ends {ip : ι} {mode : Int32}
    (hs : ¬ ∃ w₂ w₃, K.type ip k.world = T_DEVICE ∧
      (K.major ip k.world < 0 ∨ K.major ip k.world ≥ NUM_DEVICES) ∧
      K.unlock ip k.world = some ((), w₂) ∧ K.put ip w₂ = some ((), w₃)) :
    Ensures (regime False) (Process.openFound K ip mode) k fun _ ↦ Drift (-1) k := by
  refine ensures_gets_bind (ensures_gets_bind ?_)
  split
  · next hdev =>
    refine ensures_enter_bind False.elim fun _ w₂ h₂ ↦ ensures_enter_bind False.elim
      fun _ w₃ h₃ ↦ ?_
    exact absurd ⟨w₂, w₃, hdev.1, hdev.2, h₂, h₃⟩ hs
  · refine drifts_skip drifts_allocate (fun file ↦ ?_) k
    split
    · exact drifts_drop K
    · refine drifts_skip drifts_gets fun fd ↦
        drifts_skip (drifts_modify fun _ ↦ ⟨by simp, by simp⟩) fun _ ↦
        drifts_skip drifts_setFile fun _ ↦ drifts_skip drifts_setFile fun _ ↦ ?_
      split
      · exact drifts_skip drifts_enter fun _ ↦ drifts_skip drifts_enter fun _ ↦
          drifts_end (drifts_pure rfl)
      · exact drifts_skip drifts_enter fun _ ↦ drifts_end (drifts_pure rfl)

/-- `Process::open` is balanced on every path that does not lead astray. -/
private theorem open_balanced {path : CString} {mode : Int32}
    (hs : ¬ Strays K path mode k.world) :
    Ensures (regime False) (Process.open_ K path mode) k fun _ ↦ Drift 0 k := by
  refine ensures_begin (n := -1) fun k' hk ↦ ?_
  unfold Strays locate at hs
  rw [← hk] at hs
  split
  · next hmode =>
    refine ensures_enter_bind False.elim fun found w hw ↦ ?_
    split
    · exact drifts_end (drifts_pure rfl) _
    · next ip =>
      refine openFound_ends K fun ⟨w₂, w₃, htype, hmajor, h₂, h₃⟩ ↦ hs ?_
      exact ⟨ip, w, w₂, w₃, by rw [if_pos hmode, hw], htype, hmajor, h₂, h₃⟩
  · next hmode =>
    refine ensures_enter_bind False.elim fun found w hw ↦ ?_
    split
    · exact drifts_end (drifts_pure rfl) _
    · next ip =>
      refine ensures_enter_bind False.elim fun _ w₁ h₁ ↦ ensures_gets_bind ?_
      split
      · exact drifts_drop K _
      · refine openFound_ends K fun ⟨w₂, w₃, htype, hmajor, h₂, h₃⟩ ↦ hs ?_
        exact ⟨ip, w₁, w₂, w₃, by simp [hmode, hw, h₁], htype, hmajor, h₂, h₃⟩

/-- On a path that leads astray `Process::open` returns without `endOp`. -/
private theorem open_astray {path : CString} {mode : Int32} (hs : Strays K path mode k.world) :
    Ensures (regime True) (Process.open_ K path mode) k fun _ ↦ Drift 1 k := by
  obtain ⟨ip, w₁, w₂, w₃, hfound, htype, hmajor, h₂, h₃⟩ := hs
  have hreturn : ∀ k' : Kernel ω ι π, k'.world = w₁ →
      Ensures (regime True) (Process.openFound K ip mode) k' fun _ ↦ Drift 0 k' := by
    intro k' hk
    subst hk
    refine ensures_gets_bind (ensures_gets_bind ?_)
    rw [if_pos ⟨htype, hmajor⟩]
    refine ensures_enter_bind (fun _ ↦ ⟨_, _, h₂⟩) fun _ w hw ↦ ?_
    obtain rfl : w = w₂ := by simpa [h₂] using hw.symm
    refine ensures_enter_bind (fun _ ↦ ⟨_, _, h₃⟩) fun _ w hw ↦ ?_
    exact ensures_pure ⟨by simp, by simp⟩
  refine ensures_begin (n := 0) fun k' hk ↦ ?_
  unfold locate at hfound
  rw [← hk] at hfound
  split
  · next hmode =>
    rw [if_pos hmode] at hfound
    refine ensures_enter_bind (fun _ ↦ ⟨_, _, hfound⟩) fun found w hw ↦ ?_
    rw [hfound] at hw
    cases hw
    exact hreturn _ rfl
  · next hmode =>
    rw [if_neg hmode] at hfound
    split at hfound
    · next ip' w' hopen =>
      obtain ⟨r, hlock, hr⟩ := Option.map_eq_some_iff.mp hfound
      cases hr
      refine ensures_enter_bind (fun _ ↦ ⟨_, _, hopen⟩) fun found w hw ↦ ?_
      rw [hopen] at hw
      cases hw
      refine ensures_enter_bind (fun _ ↦ ⟨_, _, hlock⟩) fun _ w hw ↦ ensures_gets_bind ?_
      rw [hlock] at hw
      cases hw
      rw [if_neg]
      · exact hreturn _ rfl
      · intro h
        rw [htype] at h
        exact absurd h.1 (by decide)
    · next hopen => exact absurd hfound (hopen _ _)

/-- What the system call `open` does is what `Process::open` does with the path. -/
private theorem ensures_open {t : Prop}
    (ht : t → ∃ r w, K.copyinString k.pageTable (k.args 0) MAX_PATH_LENGTH k.world = some (r, w))
    (hnone : ∀ w, K.copyinString k.pageTable (k.args 0) MAX_PATH_LENGTH k.world = some (none, w) →
      Drift n k { k with world := w })
    (hsome : ∀ path w,
      K.copyinString k.pageTable (k.args 0) MAX_PATH_LENGTH k.world = some (some path, w) →
      Ensures (regime t) (Process.open_ K path (k.args 1).toInt64.toInt32) { k with world := w }
        fun _ ↦ Drift n { k with world := w }) :
    Ensures (regime t) (open_ K) k fun _ ↦ Drift n k := by
  have hpath : Ensures (regime t) (getArgString K 0 MAX_PATH_LENGTH) k fun r k' ↦ ∃ w,
      K.copyinString k.pageTable (k.args 0) MAX_PATH_LENGTH k.world = some (r, w) ∧
        k' = { k with world := w } :=
    ensures_gets_bind (ensures_gets_bind (ensures_enter ht fun r w hw ↦ ⟨w, hw, rfl⟩))
  refine ensures_gets_bind (ensures_bind hpath fun r k' hr ↦ ?_)
  obtain ⟨w, hw, rfl⟩ := hr
  cases r with
  | none => exact ensures_pure (hnone w hw)
  | some path => exact ensures_bind (hsome path w hw) fun _ _ hk ↦ ensures_pure hk

end Open

/-- A system call that returns has made as many calls of `beginOp` as of `endOp`, and
`log.outstanding` is what it was. -/
def Balanced (name : Name) (k : Kernel ω ι π) : Prop :=
  ∀ a k', Runs (fun _ _ ↦ True) (handler K name) k a k' →
    (k'.begun : Int) - k.begun = k'.ended - k.ended ∧ k'.outstanding = k.outstanding

/-- Every system call but `open` is balanced. -/
private theorem handler_balanced {name : Name} (hname : name ≠ .open_) :
    Drifts 0 (handler K name) := by
  cases name with
  | open_ => exact absurd rfl hname
  | close =>
    refine drifts_skip drifts_getArgFd fun r ↦ ?_
    split
    · exact drifts_pure rfl
    · exact drifts_map (drifts_close K)
  | read =>
    refine drifts_skip drifts_getArgFd fun r ↦ ?_
    split
    · exact drifts_pure rfl
    · exact drifts_skip drifts_gets fun _ ↦ drifts_skip drifts_gets fun _ ↦
        drifts_map (drifts_read K)
  | write =>
    refine drifts_skip drifts_gets fun _ ↦ drifts_skip drifts_gets fun _ ↦
      drifts_skip drifts_getArgFd fun r ↦ ?_
    split
    · exact drifts_pure rfl
    · exact drifts_map (drifts_write K)
  | mknod =>
    refine drifts_begin (drifts_skip drifts_gets fun _ ↦ drifts_skip drifts_gets fun _ ↦
      drifts_skip (drifts_getArgString K) fun r ↦ ?_)
    split
    · exact drifts_end (drifts_pure rfl)
    · refine drifts_skip drifts_enter fun found ↦ ?_
      split
      · exact drifts_end (drifts_pure rfl)
      · exact drifts_drop K
  | exec =>
    refine drifts_skip drifts_gets fun _ ↦ drifts_skip (drifts_getArgString K) fun r ↦ ?_
    split
    · exact drifts_pure rfl
    · refine drifts_skip (drifts_fetchArgs K _ _) fun r ↦ ?_
      split
      · exact drifts_pure rfl
      · exact drifts_map (drifts_exec K)
  | exit => exact drifts_skip (drifts_exit K) fun _ ↦ drifts_pure rfl

/-- A system call is balanced exactly if it is not an `open` that leads to a device file whose
major number is that of no device. -/
theorem balanced_iff (name : Name) (k : Kernel ω ι π) :
    Balanced K name k ↔ ¬ (name = .open_ ∧ OpensStray K k) := by
  constructor
  · rintro hb ⟨rfl, path, w, hpath, hstray⟩
    have hdrift : Ensures (regime True) (handler K .open_) k fun _ ↦ Drift 1 k := by
      refine ensures_open K (fun _ ↦ ⟨_, _, hpath⟩) (fun w' h ↦ ?_) fun path' w' h ↦ ?_
      · rw [hpath] at h
        cases h
      · rw [hpath] at h
        cases h
        exact open_astray K hstray
    obtain ⟨a, k', hruns, hk'⟩ := hdrift.runs trivial fun _ _ ↦ trivial
    have h₁ := (hb a k' hruns).2
    have h₂ := hk'.2
    omega
  · intro hs a k' hruns
    have hdrift : Ensures (regime False) (handler K name) k fun _ ↦ Drift 0 k := by
      by_cases hname : name = .open_
      · subst hname
        refine ensures_open K False.elim (fun w' _ ↦ ⟨by simp, by simp⟩) fun path w h ↦ ?_
        exact open_balanced K fun hstray ↦ hs ⟨rfl, path, w, h, hstray⟩
      · exact handler_balanced K hname k
    have hk := hdrift.of_runs hruns
    exact ⟨by simpa using hk.1, by simpa using hk.2⟩

section Stray

/-- A file system whose only entry besides the root is the device file `d` with major number
10, as `mknod` makes it; the state is the inode's reference count and its lock. -/
def oneDevice : Rest (Nat × Bool) Unit Unit where
  openPath path w := some (if path = [0x64] then (some (), (w.1 + 1, w.2)) else (none, w))
  create _ _ _ _ w := some (none, w)
  lock _ w := if w.2 then none else some ((), (w.1, true))
  unlock _ w := if w.2 then some ((), (w.1, false)) else none
  put _ w := some ((), (w.1 - 1, w.2))
  truncate _ w := some ((), w)
  type _ _ := T_DEVICE
  major _ _ := 10
  read _ _ _ _ _ w := some (0, w)
  readElfHeader _ _ w := some ((0, ⟨0, 0, 0, 0⟩), w)
  readProgramHeader _ _ w := some ((0, ⟨0, 0, 0, 0, 0, 0⟩), w)
  write _ _ _ _ _ w := some (-1, w)
  deviceRead _ _ _ w := some (0, w)
  deviceWrite _ _ _ w := some (0, w)
  copyin _ _ w := some (some 0, w)
  copyinString _ _ _ w := some (some [0x64], w)
  copyout _ _ _ w := some (true, w)
  makePageTable w := some ((), w)
  deletePageTable _ w := some ((), w)
  walkAddress _ _ w := some (0, w)
  allocateUserVirtualMemory _ _ newSize _ w := some (newSize, w)
  clearUserVirtualMemory _ _ w := some ((), w)

/-- A process that opens the string at address 0 for reading. -/
def opener : Kernel (Nat × Bool) Unit Unit where
  world := (0, false)
  begun := 0
  ended := 0
  outstanding := 0
  files _ := ⟨.None, 0, false, false, none, 0, 0⟩
  openFiles := []
  cwd := some ()
  args _ := 0
  pageTable := ()
  memorySize := 4096
  epc := 0
  sp := 0
  name := []

/-- `open` of a device file with major number 10 leaves its transaction open. -/
theorem unbalanced_open_stray : ¬ Balanced oneDevice .open_ opener := by
  intro hb
  have hruns : Runs (fun _ _ ↦ True) (handler oneDevice .open_) opener (-1)
      (handler oneDevice .open_ opener).state :=
    ⟨by decide, rfl, fun _ _ ↦ trivial⟩
  exact absurd (hb _ _ hruns).2 (by decide)

end Stray

end Orfos.Syscall
