import Orfos.Base.Delivers
import Orfos.Fs.Bitmap

/-!
# Looking at blocks

A function that gets a block, reads it and releases it again leaves every cached buffer as it was,
wherever the block's own buffer is valid and nobody has it locked. The same holds for a search of
the bitmap that finds nothing. The judgements are about programs that do not call `writeLog`, unless
a block is free.
-/

namespace Orfos.Fs

open Orfos.Base Orfos.Base.Traced Orfos.Lib

/-- The call is no `writeLog`. -/
def Call.Reading : Call → Prop
  | .writeLog _ => False
  | _ => True

instance (c : Call) : Decidable c.Reading :=
  match c with
  | .writeLog _ => isFalse id
  | .get _ _ => isTrue trivial
  | .diskWrite _ => isTrue trivial
  | .unlock _ => isTrue trivial

/-- Programs that do not call `writeLog`, but may where `broken` holds. -/
def looks (broken fatal : Prop) : Pledge State Call :=
  ⟨Room, fun c _ ↦ c.Reading, broken, fatal⟩

/-- The block is not cached, or its buffer is counted and nobody has it locked. -/
def Unheld (s : State) (b : UInt32) : Prop :=
  ∀ i buf, slot s b = some (i, buf) → buf.locked = false ∧ buf.refCount ≠ 0

/-- Nobody has the block, and if it is cached it has been read. -/
structure Settled (s : State) (b : UInt32) : Prop where
  unheld : Unheld s b
  valid : ∀ i buf, slot s b = some (i, buf) → buf.valid = true

/-- From `s` to `t` the cached buffers are as they were, and only memory may have changed. -/
structure Undisturbed (s t : State) : Prop where
  frame : t = { s with cache := t.cache, user := t.user, kernel := t.kernel }
  placed : Placed t
  slots : slot t = slot s

/-- From `s` to `t` memory has not changed. -/
structure SameMemory (s t : State) : Prop where
  user : t.user = s.user
  kernel : t.kernel = s.kernel

/-- In `t` a function that started in `s` has a block's buffer. Released, it is as before. -/
structure Looking (s t : State) (b : UInt32) (i : Nat) (buf : Buffer) : Prop where
  frame : t = { s with cache := t.cache, user := t.user, kernel := t.kernel }
  placed : Placed t
  slots : slot t = Function.update (slot s) b (some (i, buf))
  locked : buf.locked = true
  back : (if buf.refCount - 1 = 0 then none
    else some (i, { buf with locked := false, refCount := buf.refCount - 1 })) = slot s b

section

variable {X Z : Prop} {α : Type} {s t u : State} {b c : UInt32} {i : Nat} {buf : Buffer}

theorem SameMemory.refl (s : State) : SameMemory s s := ⟨rfl, rfl⟩

theorem SameMemory.trans (h : SameMemory s t) (h' : SameMemory t u) : SameMemory s u :=
  ⟨h'.user.trans h.user, h'.kernel.trans h.kernel⟩

/-- Only the cache and other parts have changed. -/
theorem SameMemory.of_frame (h : t = { s with cache := t.cache }) : SameMemory s t := by
  refine ⟨?_, ?_⟩ <;> rw [h]

theorem Undisturbed.refl (h : Placed s) : Undisturbed s s := ⟨rfl, h, rfl⟩

theorem Undisturbed.trans (h : Undisturbed s t) (h' : Undisturbed t u) : Undisturbed s u := by
  refine ⟨?_, h'.placed, h'.slots.trans h.slots⟩
  rw [h'.frame, h.frame]

theorem Undisturbed.log (h : Undisturbed s t) : t.log = s.log := by rw [h.frame]

theorem Undisturbed.disk (h : Undisturbed s t) : t.disk = s.disk := by rw [h.frame]

theorem Undisturbed.superBlock (h : Undisturbed s t) : t.superBlock = s.superBlock := by
  rw [h.frame]

theorem Undisturbed.itable (h : Undisturbed s t) : t.itable = s.itable := by rw [h.frame]

theorem view_of_slots (h : slot t = slot s) (hd : t.disk = s.disk) : view t = view s := by
  funext b
  rw [view, view, h, hd]

theorem Undisturbed.view (h : Undisturbed s t) : view t = view s := view_of_slots h.slots h.disk

theorem Settled.of_slot (h : Settled s b) (ht : slot t b = slot s b) : Settled t b := by
  refine ⟨?_, ?_⟩
  · rw [Unheld, ht]
    exact h.unheld
  · rw [ht]
    exact h.valid

theorem Undisturbed.settled (h : Undisturbed s t) (hb : Settled s b) : Settled t b :=
  hb.of_slot (congrFun h.slots b)

/-- A change of memory alone. -/
theorem Undisturbed.of_cache (hp : Placed s)
    (hf : t = { s with user := t.user, kernel := t.kernel }) : Undisturbed s t := by
  have hs : slot t = slot s := slot_congr (by rw [hf]) (by rw [hf])
  have hc : t.cache = s.cache := by rw [hf]
  have hl : t.log = s.log := by rw [hf]
  refine ⟨by rw [hf], ?_, hs⟩
  rwa [Placed, hs, hc, hl]

theorem Looking.log (h : Looking s t b i buf) : t.log = s.log := by rw [h.frame]

theorem Looking.disk (h : Looking s t b i buf) : t.disk = s.disk := by rw [h.frame]

theorem Looking.superBlock (h : Looking s t b i buf) : t.superBlock = s.superBlock := by
  rw [h.frame]

theorem Looking.itable (h : Looking s t b i buf) : t.itable = s.itable := by rw [h.frame]

theorem Looking.self (h : Looking s t b i buf) : slot t b = some (i, buf) := by
  rw [h.slots, Function.update_self]

/-- The bytes behind the pointer. -/
theorem Looking.buffer (h : Looking s t b i buf) : t.cache.buffers i = buf :=
  (slot_eq_some_iff.mp h.self).2

theorem Looking.slot_of_ne (h : Looking s t b i buf) (hc : c ≠ b) : slot t c = slot s c := by
  rw [h.slots, Function.update_of_ne hc]

theorem Looking.settled (h : Looking s t b i buf) (hc : c ≠ b) (hs : Settled s c) :
    Settled t c :=
  hs.of_slot (h.slot_of_ne hc)

/-- While a block is looked at, other blocks may be. -/
theorem Looking.undisturbed (h : Looking s t b i buf) (hu : Undisturbed t u) :
    Looking s u b i buf := by
  refine ⟨?_, hu.placed, hu.slots.trans h.slots, h.locked, h.back⟩
  rw [hu.frame, h.frame]

end

/-- The program does not call `writeLog`. -/
def Unlogged {α : Type} (m : FsM α) : Prop := Confined (fun _ _ ↦ True) Call.Reading m

section Unlogged

variable {α β : Type}

theorem unlogged_pure (a : α) : Unlogged (pure a) := confined_pure (fun _ ↦ trivial) a

theorem unlogged_bind {m : FsM α} {f : α → FsM β} (hm : Unlogged m) (hf : ∀ a, Unlogged (f a)) :
    Unlogged (m >>= f) :=
  confined_bind (fun _ _ _ _ _ ↦ trivial) hm hf

theorem unlogged_gets_bind {g : State → α} {f : α → FsM β} (hf : ∀ a, Unlogged (f a)) :
    Unlogged (gets g >>= f) :=
  unlogged_bind (confined_gets (fun _ ↦ trivial) g) hf

theorem unlogged_modify (f : State → State) : Unlogged (modify f) :=
  confined_modify fun _ ↦ trivial

theorem unlogged_modify_bind {g : State → State} {f : Unit → FsM β} (hf : ∀ a, Unlogged (f a)) :
    Unlogged (modify g >>= f) :=
  unlogged_bind (unlogged_modify g) hf

theorem unlogged_assert_bind {p : State → Prop} [DecidablePred p] {f : Unit → FsM β}
    (hf : ∀ a, Unlogged (f a)) : Unlogged (assert p >>= f) :=
  unlogged_bind (confined_assert (fun _ ↦ trivial) p) hf

theorem unlogged_get (device block : UInt32) : Unlogged (BufferCache.get device block) := by
  refine unlogged_bind (confined_call (fun _ ↦ trivial) trivial) fun _ ↦ ?_
  refine unlogged_bind ?_ fun bp ↦ ?_
  · refine unlogged_gets_bind fun found ↦ ?_
    cases found with
    | some i => exact unlogged_pure i
    | none => exact unlogged_gets_bind fun _ ↦ unlogged_modify_bind fun _ ↦ unlogged_pure _
  · exact unlogged_modify_bind fun _ ↦ unlogged_assert_bind fun _ ↦ unlogged_modify_bind fun _ ↦
      unlogged_pure _

theorem unlogged_read (i : Nat) : Unlogged (Buffer.read i) := by
  refine unlogged_gets_bind fun b ↦ ?_
  split
  · exact unlogged_modify_bind fun _ ↦ unlogged_modify _
  · exact unlogged_pure _

theorem unlogged_release (i : Nat) : Unlogged (BufferCache.release i) := by
  refine unlogged_assert_bind fun _ ↦ unlogged_modify_bind fun _ ↦ unlogged_gets_bind fun b ↦ ?_
  split
  · exact unlogged_modify _
  · exact unlogged_pure _

end Unlogged

section

variable {X Z : Prop} {α : Type} {s t u : State} {b c : UInt32} {i : Nat} {buf : Buffer}

/-- What has to return and does not call `writeLog`. -/
theorem Unlogged.delivers {m : FsM α} {Q : α → State → Prop} (hm : Unlogged m)
    (h : Ensures (reading True).regime m s Q) : Delivers (looks X Z) m s Q :=
  h.delivers trivial (fun _ _ hg ↦ hg) hm fun _ _ hc ↦ hc

/-- A block is got without being read. -/
theorem peek {k : Nat → FsM α} {Q : α → State → Prop} (h : Placed s) (hb : Unheld s b)
    (hk : ∀ i t, Looking s t b i { (entry s b).2 with
        refCount := (entry s b).2.refCount + 1, locked := true } → SameMemory s t →
      Delivers (looks X Z) (k i) t Q) :
    Delivers (looks X Z) (do
      let i ← BufferCache.get s.log.device b
      k i) s Q := by
  have hfree : (entry s b).2.locked = false := by
    cases hs : slot s b with
    | none => simp [entry, hs, Buffer.fresh]
    | some p => simpa [entry, hs] using (hb p.1 p.2 hs).1
  refine delivers_bind ((unlogged_get _ _).delivers (get_ensures h trivial fun _ ↦ hfree)) ?_
  rintro i t ⟨hi, -, ht⟩
  refine hk i t ⟨?_, ht.placed, ht.slot, rfl, ?_⟩ (.of_frame ht.frame)
  · rw [ht.frame]
  · cases hs : slot s b with
    | none => simp [entry, hs, Buffer.fresh]
    | some p =>
      obtain ⟨j, buf⟩ := p
      have hunheld := hb j buf hs
      have hij : i = j := by rw [hi, entry, hs]; rfl
      simp only [entry, hs, Option.getD_some, UInt32.add_sub_cancel, if_neg hunheld.2, hij]
      rw [← hunheld.1]

/-- A block is got and read. -/
theorem look {k : Nat → FsM α} {Q : α → State → Prop} (h : Placed s) (hb : Settled s b)
    (hk : ∀ i t buf, Looking s t b i buf → SameMemory s t → buf.data = view s b →
      Delivers (looks X Z) (k i) t Q) :
    Delivers (looks X Z) (do
      let i ← BufferCache.get s.log.device b
      Buffer.read i
      k i) s Q := by
  refine peek h hb.unheld fun i t ht hm ↦ ?_
  refine delivers_bind ((unlogged_read i).delivers (read_ensures ht.placed ht.self)) ?_
  intro _ u hu
  have hslots := hu.slot
  rw [ht.slots, Function.update_idem] at hslots
  have hframe : u = { s with cache := u.cache, user := u.user, kernel := u.kernel } := by
    rw [hu.frame, ht.frame]
  have hmemory := hm.trans (.of_frame hu.frame)
  have hback := ht.back
  cases hs : slot s b with
  | none =>
    have hentry : (entry s b).2 = Buffer.fresh s.log.device b := by rw [entry, hs]; rfl
    have hzero : (entry s b).2.refCount + 1 - 1 = 0 := by
      rw [hentry, UInt32.add_sub_cancel]
      rfl
    refine hk i u _ ⟨hframe, hu.placed, hslots, rfl, (if_pos hzero).trans hs.symm⟩
      hmemory ?_
    rw [hentry, ht.disk, view, hs]
    rfl
  | some p =>
    obtain ⟨j, buf⟩ := p
    have hentry : (entry s b).2 = buf := by rw [entry, hs]; rfl
    have hvalid := hb.valid j buf hs
    rw [hentry] at hback hslots
    refine hk i u _ ⟨hframe, hu.placed, hslots, rfl, ?_⟩ hmemory ?_
    · simp only [← hvalid]
      exact hback
    · rw [view, hs]
      exact if_pos hvalid

/-- A released buffer keeps its bytes. -/
theorem release_data (hl : (s.cache.buffers i).locked = true) :
    Ensures (reading True).regime (BufferCache.release i) s fun _ t ↦
      (t.cache.buffers i).data = (s.cache.buffers i).data := by
  refine ensures_assert_bind (fun _ ↦ hl) trivial fun _ ↦ ensures_modify_bind ?_
  refine ensures_gets_bind ?_
  have hdata : ((s.setBuffer i fun b ↦
      { b with locked := false, refCount := b.refCount - 1 }).cache.buffers i).data =
        (s.cache.buffers i).data := by
    simp [State.setBuffer]
  split
  · exact ensures_modify hdata
  · exact ensures_pure hdata

/-- A block is released that was only looked at. -/
theorem Looking.release (h : Looking s t b i buf) :
    Delivers (looks X Z) (BufferCache.release i) t fun _ u ↦ Undisturbed s u ∧
      SameMemory t u ∧ (u.cache.buffers i).data = buf.data := by
  have hrelease := release_ensures (T := reading True) h.placed trivial h.self fun _ ↦ h.locked
  have hdata := release_data (by rw [h.buffer]; exact h.locked)
  refine (unlogged_release i).delivers ((hrelease.and hdata).imp ?_)
  rintro _ u ⟨hu, hdu⟩
  refine ⟨⟨?_, hu.placed, ?_⟩, .of_frame hu.frame, by rw [hdu, h.buffer]⟩
  · rw [hu.frame, h.frame]
  · rw [hu.slot, h.back, h.slots, Function.update_idem, Function.update_eq_self]

/-- `writeLog` breaks the promise, and fails outside of operations. -/
theorem writeLog_breaks {Q : α → State → Prop} {f : Unit → FsM α} (hX : X)
    (hZ : Z → s.log.outstanding < 1) : Delivers (looks X Z) (writeLog i >>= f) s Q := by
  unfold writeLog
  simp only [Traced.bind_assoc]
  refine delivers_gets_bind (delivers_break hX id fun hz ↦ ?_)
  refine value_assert_bind fun _ ↦ value_assert_bind fun _ ↦ value_assert_bind fun hout ↦ ?_
  exact absurd (hZ hz) (by omega)

/-- No block is free. -/
def Full (s : State) : Prop := ∀ b < s.superBlock.size, marked s b = true

theorem Undisturbed.full_iff (h : Undisturbed s t) : Full t ↔ Full s := by
  unfold Full marked
  rw [h.view, h.superBlock]

/-- The loop of `allocateBlock`. -/
theorem allocateBlockFrom_looks (hX : ¬ Full s → X) (hZ : Z → s.log.outstanding < 1)
    (hsize : s.superBlock.size.toNat + 8192 < 2 ^ 32)
    (hb : ∀ b < s.superBlock.size, Settled s (bblock b s.superBlock)) (n k : Nat) (block : UInt32)
    (hk : block.toNat = 8192 * k) (hn : k + n = s.superBlock.size.toNat / 8192 + 1)
    (hfull : ∀ c < s.superBlock.size, c.toNat < 8192 * k → marked s c = true)
    (ht : Undisturbed s t) :
    Delivers (looks X Z) (allocateBlockFrom s.log.device n block) t fun a u ↦
      a = 0 ∧ Full s ∧ Undisturbed s u ∧ SameMemory t u := by
  induction n generalizing t k block with
  | zero =>
    have hend : ¬ block < t.superBlock.size := by
      rw [ht.superBlock, UInt32.lt_iff_toNat_lt]
      omega
    refine delivers_assert_bind hend (delivers_pure ⟨rfl, fun c hc ↦ ?_, ht, .refl t⟩)
    have := UInt32.lt_iff_toNat_lt.mp hc
    exact hfull c hc (by omega)
  | succ n ih =>
    refine delivers_gets_bind ?_
    rw [ht.superBlock]
    split
    · next hlt =>
      rw [← ht.log]
      refine look ht.placed (ht.settled (hb block hlt)) fun bp u buf hu hm hdata ↦ ?_
      refine delivers_gets_bind ?_
      rw [hu.buffer, hdata, ht.view]
      have hsize := UInt32.lt_iff_toNat_lt.mp hlt
      cases hfind : findClear (view s (bblock block s.superBlock)) block s.superBlock.size
          BITS_PER_BLOCK 0 with
      | none =>
        refine delivers_bind hu.release ?_
        rintro _ w ⟨hw, hmw, -⟩
        rw [ht.log]
        refine (ih (k + 1) _ ?_ (by omega) (fun c hc hck ↦ ?_) (ht.trans hw)).imp
          fun a x ⟨ha, hf, hx, hmx⟩ ↦ ⟨ha, hf, hx, (hm.trans hmw).trans hmx⟩
        · rw [UInt32.toNat_add, hk]
          change (8192 * k + 8192) % 4294967296 = 8192 * (k + 1)
          omega
        · by_cases hlow : c.toNat < 8192 * k
          · exact hfull c hc hlow
          · exact (scan_none hk hfind hc (by omega) hck).2
      | some bit =>
        obtain ⟨ha, -, -, hclear, -⟩ := scan_some hk hfind
        refine delivers_modify_bind (writeLog_breaks (hX fun hf ↦ ?_) fun hz ↦ ?_)
        · exact absurd ((hf _ ha).symm.trans hclear) Bool.noConfusion
        · change u.log.outstanding < 1
          rw [hu.log, ht.log]
          exact hZ hz
    · next hge =>
      refine delivers_pure ⟨rfl, fun c hc ↦ ?_, ht, .refl t⟩
      have hc' := UInt32.lt_iff_toNat_lt.mp hc
      rw [UInt32.lt_iff_toNat_lt] at hge
      exact hfull c hc (by omega)

/-- `allocateBlock` only looks at the bitmap if no block is free, and breaks the promise else. -/
theorem allocateBlock_looks (hp : Placed s) (hX : ¬ Full s → X) (hZ : Z → s.log.outstanding < 1)
    (hsize : s.superBlock.size.toNat + 8192 < 2 ^ 32)
    (hb : ∀ b < s.superBlock.size, Settled s (bblock b s.superBlock)) :
    Delivers (looks X Z) (allocateBlock s.log.device) s fun a u ↦
      a = 0 ∧ Full s ∧ Undisturbed s u ∧ SameMemory s u := by
  refine delivers_gets_bind ?_
  refine allocateBlockFrom_looks hX hZ hsize hb _ 0 0 rfl ?_ ?_ (.refl hp)
  · change 0 + (s.superBlock.size.toNat / 8192 + 1) = s.superBlock.size.toNat / 8192 + 1
    omega
  · intro c _ hc
    exact absurd hc (Nat.not_lt_zero _)

end
end Orfos.Fs
