import Orfos.Fs.State

/-!
# Buffer cache

The functions of `kernel/fs/buffer.cpp` and what they do to the cached buffer of a block.
A buffer is reached through the table, whose insertions may lose entries of a crowded
bucket; the results below are for runs whose insertions find room. What a function does is
then a change of one slot, the slots being the cached buffers by block number.
-/

namespace Orfos.Fs

open Orfos.Base Orfos.Base.Traced Orfos.Lib

/-- `new Buffer()` with the fields that `BufferCache::get` sets. -/
def Buffer.fresh (device block : UInt32) : Buffer where
  valid := false
  device := device
  block := block
  refCount := 0
  locked := false
  data := Block.zero

/-- Change the buffer behind a pointer. -/
def State.setBuffer (s : State) (i : Nat) (f : Buffer → Buffer) : State :=
  { s with cache := { s.cache with
      buffers := Function.update s.cache.buffers i (f (s.cache.buffers i)) } }

/-- Put a fresh buffer for a block into the table. -/
def State.newBuffer (s : State) (device block : UInt32) : State :=
  { s with cache := {
      bufferTable := (s.cache.bufferTable.touch (key device block)).update (key device block)
        fun _ ↦ s.cache.next
      buffers := Function.update s.cache.buffers s.cache.next (Buffer.fresh device block)
      next := s.cache.next + 1 } }

/-- Take a block's buffer out of the table. -/
def State.eraseBuffer (s : State) (device block : UInt32) : State :=
  { s with cache := { s.cache with
      bufferTable := s.cache.bufferTable.erase (key device block) } }

/-- `diskRead`, `kernel/fs/virtio.cpp`: the bytes of the block come into the buffer. -/
def diskRead (i : Nat) : FsM Unit :=
  modify fun s ↦ s.setBuffer i fun b ↦ { b with data := s.disk b.block }

/-- `diskWrite`, `kernel/fs/virtio.cpp`: one block write. -/
def diskWrite (i : Nat) : FsM Unit := do
  let b ← gets fun s ↦ s.cache.buffers i
  call (.diskWrite b.block)
  modify fun s ↦ { s with disk := Function.update s.disk b.block b.data }

namespace Buffer

/-- `Buffer::read`. -/
def read (i : Nat) : FsM Unit := do
  let b ← gets fun s ↦ s.cache.buffers i
  if ¬ b.valid then
    diskRead i
    modify fun s ↦ s.setBuffer i fun b ↦ { b with valid := true }

/-- `Buffer::write`. -/
def write (i : Nat) : FsM Unit := do
  assert fun s ↦ (s.cache.buffers i).locked = true
  diskWrite i

end Buffer

namespace BufferCache

/-- The branch of `BufferCache::get` on whether the table has the block. `bufferTable[key]`
on a key that `contains` found changes nothing. -/
def find (device block : UInt32) : FsM Nat := do
  let found ← gets fun s ↦ s.cache.bufferTable.lookup (key device block)
  match found with
  | some i => pure i
  | none =>
    let i ← gets fun s ↦ s.cache.next
    modify fun s ↦ s.newBuffer device block
    pure i

/-- `BufferCache::get`. -/
def get (device block : UInt32) : FsM Nat := do
  call (.get device block)
  let buffer ← find device block
  modify fun s ↦ s.setBuffer buffer fun b ↦ { b with refCount := b.refCount + 1 }
  -- `SleepMutex::lock` sleeps for as long as the lock is taken
  assert fun s ↦ (s.cache.buffers buffer).locked = false
  modify fun s ↦ s.setBuffer buffer fun b ↦ { b with locked := true }
  pure buffer

/-- `BufferCache::release`. -/
def release (i : Nat) : FsM Unit := do
  assert fun s ↦ (s.cache.buffers i).locked = true
  modify fun s ↦ s.setBuffer i fun b ↦ { b with locked := false, refCount := b.refCount - 1 }
  let b ← gets fun s ↦ s.cache.buffers i
  if b.refCount = 0 then
    modify fun s ↦ s.eraseBuffer b.device b.block

/-- `BufferCache::pin`. -/
def pin (i : Nat) : FsM Unit :=
  modify fun s ↦ s.setBuffer i fun b ↦ { b with refCount := b.refCount + 1 }

/-- `BufferCache::unpin`. -/
def unpin (i : Nat) : FsM Unit := do
  assert fun s ↦ 1 ≤ (s.cache.buffers i).refCount
  modify fun s ↦ s.setBuffer i fun b ↦ { b with refCount := b.refCount - 1 }

end BufferCache

/-- The cached buffer of a block of the log's device, with its pointer. -/
def slot (s : State) (b : UInt32) : Option (Nat × Buffer) :=
  (s.cache.bufferTable.lookup (key s.log.device b)).map fun i ↦ (i, s.cache.buffers i)

/-- Every table entry points to an allocated buffer of its own block. -/
def Placed (s : State) : Prop :=
  ∀ b i buf, slot s b = some (i, buf) →
    i < s.cache.next ∧ buf.device = s.log.device ∧ buf.block = b

/-- From `s` to `t` only the cache has changed, and in it only the slot of one block. -/
structure Slots (s t : State) (b : UInt32) (v : Option (Nat × Buffer)) : Prop where
  frame : t = { s with cache := t.cache }
  placed : Placed t
  slot : slot t = Function.update (slot s) b v

/-- What a verification of file-system programs relies on: calls are good only if table
insertions find room, and the crash condition is one on the disk. -/
structure Terms where
  good : Call → State → Prop
  room : ∀ {d b s}, good (.get d b) s → s.cache.bufferTable.HasRoom (key d b)
  crash : (UInt32 → Block) → Prop
  total : Prop

/-- The regime of the programs under some terms. -/
def Terms.regime (T : Terms) : Regime State Call := ⟨T.good, fun s ↦ T.crash s.disk, T.total⟩

/-- The crash condition sees the disk only. -/
theorem Terms.crash_of_eq {T : Terms} {s t : State} (hc : T.crash s.disk)
    (hd : t.disk = s.disk) : T.crash t.disk := by
  rwa [hd]

/-- The buffer that `get` returns before it counts and locks it. -/
def entry (s : State) (b : UInt32) : Nat × Buffer :=
  (slot s b).getD (s.cache.next, Buffer.fresh s.log.device b)

section

variable {s : State} {b : UInt32} {i : Nat} {buf : Buffer}

theorem slot_eq_some_iff :
    slot s b = some (i, buf) ↔
      s.cache.bufferTable.lookup (key s.log.device b) = some i ∧ s.cache.buffers i = buf := by
  simp only [slot, Option.map_eq_some_iff, Prod.mk.injEq]
  constructor
  · rintro ⟨j, hj, rfl, rfl⟩
    exact ⟨hj, rfl⟩
  · rintro ⟨hj, hb⟩
    exact ⟨i, hj, rfl, hb⟩

theorem slot_eq_none_iff :
    slot s b = none ↔ s.cache.bufferTable.lookup (key s.log.device b) = none := by
  simp [slot]

/-- A pointer is in one slot only. -/
theorem Placed.unique {b' : UInt32} {buf' : Buffer} (hp : Placed s)
    (h : slot s b = some (i, buf)) (h' : slot s b' = some (i, buf')) : b' = b := by
  obtain ⟨-, -, hb⟩ := hp _ _ _ h
  obtain ⟨-, -, hb'⟩ := hp _ _ _ h'
  rw [← hb, ← hb', ← (slot_eq_some_iff.mp h).2, ← (slot_eq_some_iff.mp h').2]

/-- A changed slot keeps the table well placed if its new buffer is. -/
private theorem slots_of_slot {t : State} {v : Option (Nat × Buffer)} (hp : Placed s)
    (hf : t = { s with cache := t.cache }) (hn : s.cache.next ≤ t.cache.next)
    (hs : slot t = Function.update (slot s) b v)
    (hv : ∀ i buf, v = some (i, buf) →
      i < t.cache.next ∧ buf.device = s.log.device ∧ buf.block = b) : Slots s t b v := by
  refine ⟨hf, ?_, hs⟩
  intro b' j bf hj
  have hl : t.log = s.log := by rw [hf]
  rw [hl]
  by_cases hb' : b' = b
  · subst b'
    rw [hs, Function.update_self] at hj
    exact hv j bf hj
  · rw [hs, Function.update_of_ne hb'] at hj
    obtain ⟨hlt, hd, hblk⟩ := hp _ _ _ hj
    exact ⟨by omega, hd, hblk⟩

/-- A change of a cached buffer that keeps its block is a change of its slot. -/
theorem slots_setBuffer (hp : Placed s) (h : slot s b = some (i, buf)) (f : Buffer → Buffer)
    (hd : (f buf).device = buf.device) (hb : (f buf).block = buf.block) :
    Slots s (s.setBuffer i f) b (some (i, f buf)) := by
  obtain ⟨hn, hdev, hblk⟩ := hp _ _ _ h
  obtain ⟨hl, hbuf⟩ := slot_eq_some_iff.mp h
  refine slots_of_slot hp rfl le_rfl ?_ ?_
  · funext b'
    by_cases hb' : b' = b
    · subst b'
      simp only [slot, State.setBuffer, hl, Option.map_some, Function.update_self, hbuf]
    · rw [Function.update_of_ne hb']
      cases h' : slot s b' with
      | none =>
        rw [slot_eq_none_iff] at h' ⊢
        exact h'
      | some v =>
        obtain ⟨j, bf⟩ := v
        obtain ⟨hl', hv⟩ := slot_eq_some_iff.mp h'
        have hne : j ≠ i := by
          rintro rfl
          exact hb' (hp.unique h h')
        refine slot_eq_some_iff.mpr ⟨hl', ?_⟩
        simpa [State.setBuffer, hne] using hv
  · intro j bf hj
    cases hj
    exact ⟨hn, hd.trans hdev, hb.trans hblk⟩

/-- A fresh buffer changes the slot of its block, if the table has room. -/
theorem slots_newBuffer (hp : Placed s)
    (hr : s.cache.bufferTable.HasRoom (key s.log.device b)) :
    Slots s (s.newBuffer s.log.device b) b
      (some (s.cache.next, Buffer.fresh s.log.device b)) := by
  refine slots_of_slot hp rfl (Nat.le_succ _) ?_ ?_
  · funext b'
    by_cases hb' : b' = b
    · subst b'
      simp [slot, State.newBuffer, Table.lookup_update, Table.lookup_touch_self]
    · have hk : key s.log.device b' ≠ key s.log.device b := fun h ↦ hb' (key_inj.mp h).2
      rw [Function.update_of_ne hb']
      cases h' : slot s b' with
      | none =>
        rw [slot_eq_none_iff] at h' ⊢
        simpa [State.newBuffer, Table.lookup_update, hk, Table.lookup_touch_of_room hr hk]
          using h'
      | some v =>
        obtain ⟨j, bf⟩ := v
        obtain ⟨hlt, -, -⟩ := hp _ _ _ h'
        obtain ⟨hl', hv⟩ := slot_eq_some_iff.mp h'
        refine slot_eq_some_iff.mpr ⟨?_, ?_⟩
        · simpa [State.newBuffer, Table.lookup_update, hk, Table.lookup_touch_of_room hr hk]
            using hl'
        · simpa [State.newBuffer, hlt.ne] using hv
  · intro j bf hj
    cases hj
    exact ⟨Nat.lt_succ_self _, rfl, rfl⟩

/-- Erasing a block empties its slot. -/
theorem slots_eraseBuffer (hp : Placed s) :
    Slots s (s.eraseBuffer s.log.device b) b none := by
  refine slots_of_slot hp rfl le_rfl ?_ (fun _ _ h ↦ by cases h)
  funext b'
  by_cases hb' : b' = b
  · subst b'
    simp [slot, State.eraseBuffer, Table.lookup_erase]
  · simp [slot, State.eraseBuffer, Table.lookup_erase, key_inj, hb']

/-- Nothing has changed. -/
theorem Slots.refl (hp : Placed s) : Slots s s b (Fs.slot s b) :=
  ⟨rfl, hp, (Function.update_eq_self b _).symm⟩

/-- Consecutive changes of one slot are one change. -/
theorem Slots.trans {t u : State} {v w : Option (Nat × Buffer)} (h : Slots s t b v)
    (h' : Slots t u b w) : Slots s u b w := by
  refine ⟨?_, h'.placed, ?_⟩
  · rw [h'.frame, h.frame]
  · rw [h'.slot, h.slot, Function.update_idem]

/-- The changed slot. -/
theorem Slots.self {t : State} {v : Option (Nat × Buffer)} (h : Slots s t b v) :
    Fs.slot t b = v := by
  rw [h.slot, Function.update_self]

/-- The other slots. -/
theorem Slots.of_ne {t : State} {v : Option (Nat × Buffer)} {b' : UInt32}
    (h : Slots s t b v) (hb : b' ≠ b) : Fs.slot t b' = Fs.slot s b' := by
  rw [h.slot, Function.update_of_ne hb]

end

section

variable {R : Regime State Call} {s : State} {b : UInt32} {i : Nat} {buf : Buffer}

/-- `read` brings the block's bytes into an invalid buffer. -/
theorem read_slots (hp : Placed s) (h : slot s b = some (i, buf)) :
    Ensures R (Buffer.read i) s fun _ t ↦
      Slots s t b (some (i, { buf with
        valid := true, data := if buf.valid then buf.data else s.disk b })) := by
  obtain ⟨-, hbuf⟩ := slot_eq_some_iff.mp h
  obtain ⟨-, -, hblk⟩ := hp _ _ _ h
  unfold Buffer.read
  refine ensures_gets_bind ?_
  simp only [hbuf]
  split
  · next hv =>
    have h₁ := slots_setBuffer hp h (fun b ↦ { b with data := s.disk b.block }) rfl rfl
    have h₂ := slots_setBuffer h₁.placed h₁.self (fun b ↦ { b with valid := true }) rfl rfl
    refine ensures_modify_bind (ensures_modify ?_)
    simpa [hv, hblk] using h₁.trans h₂
  · next hv =>
    have hv' : buf.valid = true := by simpa using hv
    have hsame : ({ buf with valid := true, data := buf.data } : Buffer) = buf := by
      rw [← hv']
    refine ensures_pure ?_
    simp only [hv', if_true, hsame]
    exact h ▸ .refl hp

/-- `pin` counts a user more. -/
theorem pin_slots (hp : Placed s) (h : slot s b = some (i, buf)) :
    Ensures R (BufferCache.pin i) s fun _ t ↦
      Slots s t b (some (i, { buf with refCount := buf.refCount + 1 })) :=
  ensures_modify (slots_setBuffer hp h _ rfl rfl)

/-- `release` unlocks, and drops a buffer that nobody counts on any more. -/
theorem release_slots (hp : Placed s) (hc : R.crash s) (h : slot s b = some (i, buf))
    (hl : R.total → buf.locked = true) :
    Ensures R (BufferCache.release i) s fun _ t ↦
      Slots s t b (if buf.refCount - 1 = 0 then none
        else some (i, { buf with locked := false, refCount := buf.refCount - 1 })) := by
  obtain ⟨-, hbuf⟩ := slot_eq_some_iff.mp h
  obtain ⟨-, hdev, hblk⟩ := hp _ _ _ h
  have h₁ := slots_setBuffer hp h
    (fun b ↦ { b with locked := false, refCount := b.refCount - 1 }) rfl rfl
  obtain ⟨-, hbuf₁⟩ := slot_eq_some_iff.mp h₁.self
  unfold BufferCache.release
  refine ensures_assert_bind (fun hT ↦ by rw [hbuf]; exact hl hT) hc fun _ ↦ ?_
  refine ensures_modify_bind (ensures_gets_bind ?_)
  rw [hbuf₁]
  split
  · next hz =>
    refine ensures_modify ?_
    rw [hdev, hblk]
    exact h₁.trans (slots_eraseBuffer h₁.placed)
  · next hz => exact ensures_pure h₁

end

section

variable {T : Terms} {s : State} {b : UInt32} {i : Nat} {buf : Buffer}

/-- `find` returns the one buffer of the block. -/
private theorem find_ensures (hp : Placed s)
    (hr : s.cache.bufferTable.HasRoom (key s.log.device b)) :
    Ensures T.regime (BufferCache.find s.log.device b) s fun i t ↦
      i = (entry s b).1 ∧ Slots s t b (some (entry s b)) := by
  refine ensures_gets_bind ?_
  split
  · next i hi =>
    have hs : slot s b = some (i, s.cache.buffers i) := slot_eq_some_iff.mpr ⟨hi, rfl⟩
    have he : entry s b = (i, s.cache.buffers i) := by rw [entry, hs]; rfl
    refine ensures_pure ⟨by rw [he], ?_⟩
    rw [he, ← hs]
    exact .refl hp
  · next hn =>
    have hs : slot s b = none := slot_eq_none_iff.mpr hn
    have he : entry s b = (s.cache.next, Buffer.fresh s.log.device b) := by
      rw [entry, hs]; rfl
    refine ensures_gets_bind (ensures_modify_bind (ensures_pure ⟨by rw [he], ?_⟩))
    rw [he]
    exact slots_newBuffer hp hr

/-- `get` counts and locks the one buffer of the block. -/
theorem get_ensures (hp : Placed s) (hc : T.crash s.disk)
    (hu : T.total → (entry s b).2.locked = false) :
    Ensures T.regime (BufferCache.get s.log.device b) s fun i t ↦
      i = (entry s b).1 ∧ (entry s b).2.locked = false ∧
      Slots s t b (some (i, { (entry s b).2 with
        refCount := (entry s b).2.refCount + 1, locked := true })) := by
  unfold BufferCache.get
  refine ensures_call_bind hc fun hg ↦ ?_
  refine ensures_bind (find_ensures hp (T.room hg)) ?_
  rintro i t ⟨hi, ht⟩
  generalize entry s b = e at *
  obtain ⟨j, buf⟩ := e
  obtain rfl : i = j := hi
  have h₁ := slots_setBuffer ht.placed ht.self
    (fun b ↦ { b with refCount := b.refCount + 1 }) rfl rfl
  have h₂ := slots_setBuffer h₁.placed h₁.self (fun b ↦ { b with locked := true }) rfl rfl
  obtain ⟨-, hbuf⟩ := slot_eq_some_iff.mp h₁.self
  refine ensures_modify_bind (ensures_assert_bind ?_ ?_ ?_)
  · intro hT
    rw [hbuf]
    exact hu hT
  · rw [h₁.frame, ht.frame]
    exact hc
  · intro hl
    rw [hbuf] at hl
    exact ensures_modify_bind (ensures_pure ⟨rfl, hl, (ht.trans h₁).trans h₂⟩)

/-- `read` brings the block's bytes into an invalid buffer. -/
theorem read_ensures (hp : Placed s) (h : slot s b = some (i, buf)) :
    Ensures T.regime (Buffer.read i) s fun _ t ↦
      Slots s t b (some (i, { buf with
        valid := true, data := if buf.valid then buf.data else s.disk b })) :=
  read_slots hp h

/-- `write` puts the bytes of a locked buffer on the disk. -/
theorem write_ensures (hp : Placed s) (hc : T.crash s.disk) (h : slot s b = some (i, buf))
    (hl : T.total → buf.locked = true) :
    Ensures T.regime (Buffer.write i) s fun _ t ↦
      t = { s with disk := Function.update s.disk b buf.data } := by
  obtain ⟨-, hbuf⟩ := slot_eq_some_iff.mp h
  obtain ⟨-, -, hblk⟩ := hp _ _ _ h
  unfold Buffer.write diskWrite
  refine ensures_assert_bind (fun hT ↦ by rw [hbuf]; exact hl hT) hc fun _ ↦ ?_
  refine ensures_gets_bind (ensures_call_bind hc fun _ ↦ ensures_modify ?_)
  rw [hbuf, hblk]

/-- `pin` counts a user more. -/
theorem pin_ensures (hp : Placed s) (h : slot s b = some (i, buf)) :
    Ensures T.regime (BufferCache.pin i) s fun _ t ↦
      Slots s t b (some (i, { buf with refCount := buf.refCount + 1 })) :=
  pin_slots hp h

/-- `unpin` counts a user less. -/
theorem unpin_ensures (hp : Placed s) (hc : T.crash s.disk) (h : slot s b = some (i, buf))
    (hr : T.total → 1 ≤ buf.refCount) :
    Ensures T.regime (BufferCache.unpin i) s fun _ t ↦
      Slots s t b (some (i, { buf with refCount := buf.refCount - 1 })) := by
  obtain ⟨-, hbuf⟩ := slot_eq_some_iff.mp h
  exact ensures_assert_bind (fun hT ↦ by rw [hbuf]; exact hr hT) hc
    fun _ ↦ ensures_modify (slots_setBuffer hp h _ rfl rfl)

/-- `release` unlocks, and drops a buffer that nobody counts on any more. -/
theorem release_ensures (hp : Placed s) (hc : T.crash s.disk) (h : slot s b = some (i, buf))
    (hl : T.total → buf.locked = true) :
    Ensures T.regime (BufferCache.release i) s fun _ t ↦
      Slots s t b (if buf.refCount - 1 = 0 then none
        else some (i, { buf with locked := false, refCount := buf.refCount - 1 })) :=
  release_slots (R := T.regime) hp hc h hl

end
end Orfos.Fs
