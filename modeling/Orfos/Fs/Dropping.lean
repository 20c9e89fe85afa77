import Orfos.Fs.Pins

/-!
# Insertions that drop buffers

An insertion into a crowded bucket drops the buffers of other blocks. Here nothing is asked of the
table: every run of the cache and the log keeps the buffers in their places, `get` returns a buffer
with the content of its block, and the dropped blocks fall back to what is on the disk.
-/

namespace Orfos.Fs

open Orfos.Base Orfos.Base.Traced Orfos.Lib

/-- The bytes that a holder of the block finds. -/
def content (s : State) (b : UInt32) : Block :=
  if (entry s b).2.valid then (entry s b).2.data else s.disk b

/-- The state after `find`: a missing block has entered the table. -/
def State.entered (s : State) (b : UInt32) : State :=
  if (slot s b).isSome then s else s.newBuffer s.log.device b

/-- Nothing is relied on, and programs have to return if `total` holds. -/
def freely (total : Prop) : Regime State Call := ⟨fun _ _ ↦ True, fun _ ↦ True, total⟩

/-- From `s` to `t` the buffers stay in their places. -/
structure Placing (s t : State) : Prop where
  device : t.log.device = s.log.device
  placed : Placed s → Placed t

/-! ### Buffers stay in their places -/

namespace Placing

variable {s t : State}

theorem refl (s : State) : Placing s s := ⟨rfl, id⟩

theorem trans (s t u : State) (h : Placing s t) (h' : Placing t u) : Placing s u :=
  ⟨h'.device.trans h.device, h'.placed ∘ h.placed⟩

/-- The cache has stayed. -/
theorem of_cache (hc : t.cache = s.cache) (hd : t.log.device = s.log.device) : Placing s t := by
  refine ⟨hd, fun hp ↦ ?_⟩
  rwa [Placed, slot_congr hc hd, hc, hd]

/-- A buffer changes, but not its block. -/
theorem setBuffer (s : State) (i : Nat) {f : Buffer → Buffer}
    (hd : ∀ x, (f x).device = x.device) (hb : ∀ x, (f x).block = x.block) :
    Placing s (s.setBuffer i f) := by
  refine ⟨rfl, fun hp c j buf hs ↦ ?_⟩
  obtain ⟨hl, rfl⟩ := slot_eq_some_iff.mp hs
  have hold := hp c j _ (slot_eq_some_iff.mpr ⟨hl, rfl⟩)
  by_cases hj : j = i
  · subst hj
    simpa [State.setBuffer, hd, hb] using hold
  · simpa [State.setBuffer, hj] using hold

theorem newBuffer (s : State) (device block : UInt32) : Placing s (s.newBuffer device block) := by
  refine ⟨rfl, fun hp c j buf hs ↦ ?_⟩
  obtain ⟨hl, rfl⟩ := slot_eq_some_iff.mp hs
  simp only [State.newBuffer, Table.lookup_update] at hl ⊢
  by_cases hk : key s.log.device c = key device block
  · obtain ⟨hdev, rfl⟩ := key_inj.mp hk
    rw [if_pos hk, hk, Table.lookup_touch_self] at hl
    cases hl
    simp [Buffer.fresh, hdev]
  · rw [if_neg hk, Table.lookup_touch_of_ne hk] at hl
    split at hl
    · cases hl
    · obtain ⟨hlt, hrest⟩ := hp c j _ (slot_eq_some_iff.mpr ⟨hl, rfl⟩)
      rw [Function.update_of_ne hlt.ne]
      exact ⟨Nat.lt_succ_of_lt hlt, hrest⟩

theorem eraseBuffer (s : State) (device block : UInt32) :
    Placing s (s.eraseBuffer device block) := by
  refine ⟨rfl, fun hp c j buf hs ↦ ?_⟩
  obtain ⟨hl, rfl⟩ := slot_eq_some_iff.mp hs
  simp only [State.eraseBuffer, Table.lookup_erase] at hl
  split at hl
  · cases hl
  · exact hp c j _ (slot_eq_some_iff.mpr ⟨hl, rfl⟩)

end Placing

/-- The program keeps the buffers in their places. -/
def Tidy {α : Type} (m : FsM α) : Prop := Confined Placing (fun _ ↦ True) m

section Rules

variable {α β : Type} {i : Nat}

theorem tidy_pure (a : α) : Tidy (pure a : FsM α) := confined_pure Placing.refl a

theorem tidy_gets (f : State → α) : Tidy (gets f) := confined_gets Placing.refl f

theorem tidy_assert (p : State → Prop) [DecidablePred p] : Tidy (assert p) :=
  confined_assert Placing.refl p

theorem tidy_call (c : Call) : Tidy (call c) := confined_call Placing.refl trivial

theorem tidy_bind {m : FsM α} {f : α → FsM β} (hm : Tidy m) (hf : ∀ a, Tidy (f a)) :
    Tidy (m >>= f) :=
  confined_bind Placing.trans hm hf

/-- A program that changes neither the cache nor the device. -/
theorem tidy_modify {f : State → State} (hc : ∀ s, (f s).cache = s.cache)
    (hd : ∀ s, (f s).log.device = s.log.device) : Tidy (modify f) :=
  confined_modify fun s ↦ .of_cache (hc s) (hd s)

theorem tidy_setBuffer {f : State → Buffer → Buffer} (hd : ∀ s x, (f s x).device = x.device)
    (hb : ∀ s x, (f s x).block = x.block) : Tidy (modify fun s ↦ s.setBuffer i (f s)) :=
  confined_modify fun s ↦ .setBuffer s i (hd s) (hb s)

end Rules

section Calls

variable (i : Nat)

theorem tidy_get (device block : UInt32) : Tidy (BufferCache.get device block) := by
  refine tidy_bind (tidy_call _) fun _ ↦ tidy_bind ?_ fun bp ↦ ?_
  · refine tidy_bind (tidy_gets _) fun found ↦ ?_
    cases found with
    | some i => exact tidy_pure i
    | none =>
      refine tidy_bind (tidy_gets _) fun _ ↦ tidy_bind ?_ fun _ ↦ tidy_pure _
      exact confined_modify fun s ↦ .newBuffer s device block
  · refine tidy_bind (tidy_setBuffer (fun _ _ ↦ rfl) fun _ _ ↦ rfl) fun _ ↦ ?_
    refine tidy_bind (tidy_assert _) fun _ ↦ ?_
    exact tidy_bind (tidy_setBuffer (fun _ _ ↦ rfl) fun _ _ ↦ rfl) fun _ ↦ tidy_pure _

theorem tidy_read : Tidy (Buffer.read i) := by
  refine tidy_bind (tidy_gets _) fun b ↦ ?_
  split
  · refine tidy_bind (tidy_setBuffer ?_ ?_) fun _ ↦ tidy_setBuffer ?_ ?_
    all_goals exact fun _ _ ↦ rfl
  · exact tidy_pure _

theorem tidy_store (f : State → Block → Block) :
    Tidy (modify fun s ↦ s.setBuffer i fun x ↦ { x with data := f s x.data }) :=
  tidy_setBuffer (fun _ _ ↦ rfl) fun _ _ ↦ rfl

theorem tidy_write : Tidy (Buffer.write i) := by
  refine tidy_bind (tidy_assert _) fun _ ↦ tidy_bind (tidy_gets _) fun b ↦ ?_
  exact tidy_bind (tidy_call _) fun _ ↦ tidy_modify (fun _ ↦ rfl) fun _ ↦ rfl

theorem tidy_release : Tidy (BufferCache.release i) := by
  refine tidy_bind (tidy_assert _) fun _ ↦ ?_
  refine tidy_bind (tidy_setBuffer (fun _ _ ↦ rfl) fun _ _ ↦ rfl) fun _ ↦ ?_
  refine tidy_bind (tidy_gets _) fun b ↦ ?_
  split
  · exact confined_modify fun s ↦ .eraseBuffer s _ _
  · exact tidy_pure _

theorem tidy_pin : Tidy (BufferCache.pin i) := tidy_setBuffer (fun _ _ ↦ rfl) fun _ _ ↦ rfl

theorem tidy_unpin : Tidy (BufferCache.unpin i) :=
  tidy_bind (tidy_assert _) fun _ ↦ tidy_setBuffer (fun _ _ ↦ rfl) fun _ _ ↦ rfl

theorem tidy_writeLog : Tidy (writeLog i) := by
  refine tidy_bind (tidy_gets _) fun block ↦ tidy_bind (tidy_call _) fun _ ↦ ?_
  refine tidy_bind (tidy_assert _) fun _ ↦ tidy_bind (tidy_assert _) fun _ ↦ ?_
  refine tidy_bind (tidy_assert _) fun _ ↦ tidy_bind (tidy_gets _) fun header ↦ ?_
  split
  · exact tidy_bind (tidy_pin i) fun _ ↦ tidy_modify (fun _ ↦ rfl) fun _ ↦ rfl
  · exact tidy_pure _

theorem tidy_writeHead : Tidy Log.writeHead := by
  refine tidy_bind (tidy_gets _) fun log ↦ tidy_bind (tidy_get _ _) fun i ↦ ?_
  refine tidy_bind (tidy_read i) fun _ ↦ tidy_bind (tidy_store i _) fun _ ↦ ?_
  exact tidy_bind (tidy_write i) fun _ ↦ tidy_release i

theorem tidy_writeLogBlock (log : Log) (entry : UInt32 × Nat) :
    Tidy (Log.writeLogBlock log entry) := by
  refine tidy_bind (tidy_get _ _) fun i ↦ tidy_bind (tidy_get _ _) fun j ↦ ?_
  refine tidy_bind (tidy_read i) fun _ ↦ tidy_bind (tidy_read j) fun _ ↦ ?_
  refine tidy_bind (tidy_gets _) fun data ↦ tidy_bind (tidy_store i fun _ _ ↦ data) fun _ ↦ ?_
  exact tidy_bind (tidy_write i) fun _ ↦ tidy_bind (tidy_release j) fun _ ↦ tidy_release i

theorem tidy_installBlock (log : Log) (entry : UInt32 × Nat) :
    Tidy (Log.installBlock false log entry) := by
  refine tidy_bind (tidy_get _ _) fun i ↦ tidy_bind (tidy_get _ _) fun j ↦ ?_
  refine tidy_bind (tidy_read i) fun _ ↦ tidy_bind (tidy_read j) fun _ ↦ ?_
  refine tidy_bind (tidy_gets _) fun data ↦ tidy_bind (tidy_store j fun _ _ ↦ data) fun _ ↦ ?_
  refine tidy_bind (tidy_write j) fun _ ↦ tidy_bind (tidy_unpin j) fun _ ↦ ?_
  exact tidy_bind (tidy_release i) fun _ ↦ tidy_release j

end Calls

/-! ### Runs of the threads and the log -/

namespace Session

variable {x y : Session} {op : Op} {p : FsM Marks}

theorem tidy_round (hp : x.round = some p) : Tidy p := by
  unfold round at hp
  split at hp <;> cases hp
  · exact tidy_pure _
  · exact tidy_bind (tidy_writeLogBlock _ _) fun _ ↦ tidy_pure _
  · exact tidy_bind tidy_writeHead fun _ ↦ tidy_bind (tidy_gets _) fun _ ↦ tidy_pure _
  · exact tidy_pure _
  · exact tidy_bind (tidy_installBlock _ _) fun _ ↦ tidy_pure _
  · exact tidy_bind (tidy_modify (fun _ ↦ rfl) fun _ ↦ rfl) fun _ ↦ tidy_pure _
  · exact tidy_bind tidy_writeHead fun _ ↦ tidy_pure _

/-- Every operation keeps the buffers in their places. -/
theorem tidy_code (hp : x.code op = some p) : Tidy p := by
  cases op with
  | get b =>
    cases hp
    exact tidy_bind (tidy_get _ _) fun _ ↦ tidy_pure _
  | go => exact tidy_round hp
  | commit =>
    simp only [code] at hp
    split at hp <;> cases hp
    refine tidy_bind (tidy_gets _) fun log ↦ ?_
    split <;> exact tidy_pure _
  | writeLog h =>
    simp only [code] at hp
    split at hp
    · split at hp <;> cases hp
      exact tidy_bind (tidy_writeLog _) fun _ ↦ tidy_pure _
    · cases hp
  | read h =>
    simp only [code] at hp
    split at hp <;> cases hp
    exact tidy_bind (tidy_read _) fun _ ↦ tidy_pure _
  | store h f =>
    simp only [code] at hp
    split at hp <;> cases hp
    exact tidy_bind (tidy_store _ fun _ ↦ f) fun _ ↦ tidy_pure _
  | release h =>
    simp only [code] at hp
    split at hp <;> cases hp
    exact tidy_bind (tidy_release _) fun _ ↦ tidy_pure _

theorem placing_step (hy : x.step op = some y) : Placing x.state y.state := by
  unfold step at hy
  split at hy
  · cases hy
  · next p hp =>
    obtain ⟨m, -, rfl⟩ := Option.map_eq_some_iff.mp hy
    exact (tidy_code hp x.state).1

/-- Whatever the threads do, every entry of the table is the buffer of its block. -/
theorem placed_of_run {s : State} {good : Session → Op → Prop}
    (hempty : ∀ k, s.cache.bufferTable.lookup k = none) (h : Run step good (begun s) x) :
    Placed x.state := by
  induction h with
  | refl =>
    intro b i buf hs
    have hn : slot s b = none := slot_eq_none_iff.mpr (hempty _)
    exact absurd (hs.symm.trans hn) (by simp)
  | tail _ _ hy ih => exact (placing_step hy).placed ih

end Session

/-! ### Getting, logging and releasing a block -/

section

variable {R : Regime State Call} {s t : State} {b c : UInt32} {i : Nat} {buf : Buffer}

theorem entry_of_slot (h : slot s b = some (i, buf)) : entry s b = (i, buf) := by
  rw [entry, h]
  rfl

theorem content_of_slot (h : slot s b = some (i, buf)) :
    content s b = if buf.valid then buf.data else s.disk b := by
  rw [content, entry_of_slot h]

theorem content_of_none (h : slot s b = none) : content s b = s.disk b := by
  rw [content, entry, h]
  rfl

theorem entered_frame (s : State) (b : UInt32) :
    s.entered b = { s with cache := (s.entered b).cache } := by
  unfold State.entered
  split <;> rfl

/-- A block enters the table, and blocks of a crowded bucket drop out of it. -/
theorem slot_entered (hp : Placed s) (c : UInt32) : slot (s.entered b) c =
    if c = b then some (entry s b)
    else if s.cache.bufferTable.Drops (key s.log.device b) (key s.log.device c) then none
    else slot s c := by
  cases hs : slot s b with
  | some v =>
    have hin : s.entered b = s := by rw [State.entered, if_pos (by simp [hs])]
    have hkeep : ¬ s.cache.bufferTable.Drops (key s.log.device b) (key s.log.device c) := by
      rintro ⟨hn, -⟩
      rw [Option.isNone_iff_eq_none, ← slot_eq_none_iff, hs] at hn
      cases hn
    rw [hin, if_neg hkeep]
    split
    · next he => rw [he, hs, entry_of_slot hs]
    · rfl
  | none =>
    have hin : s.entered b = s.newBuffer s.log.device b := by
      rw [State.entered, if_neg (by simp [hs])]
    have hentry : entry s b = (s.cache.next, Buffer.fresh s.log.device b) := by
      rw [entry, hs]
      rfl
    rw [hin, hentry]
    split
    · next he =>
      subst he
      simp [slot, State.newBuffer, Table.lookup_update, Table.lookup_touch_self]
    · next hne =>
      have hk : key s.log.device c ≠ key s.log.device b := fun h ↦ hne (key_inj.mp h).2
      simp only [slot, State.newBuffer, Table.lookup_update, if_neg hk,
        Table.lookup_touch_of_ne hk]
      split
      · rfl
      · cases hc : s.cache.bufferTable.lookup (key s.log.device c) with
        | none => rfl
        | some j =>
          have hlt := (hp c j _ (slot_eq_some_iff.mpr ⟨hc, rfl⟩)).1
          simp [Function.update_of_ne hlt.ne]

theorem placed_entered (hp : Placed s) : Placed (s.entered b) := by
  unfold State.entered
  split
  · exact hp
  · exact (Placing.newBuffer s _ b).placed hp

/-- `find` returns the buffer of the block. -/
theorem find_slots : Ensures R (BufferCache.find s.log.device b) s fun i t ↦
    i = (entry s b).1 ∧ t = s.entered b := by
  refine ensures_gets_bind ?_
  split
  · next i hi =>
    have hs : slot s b = some (i, s.cache.buffers i) := slot_eq_some_iff.mpr ⟨hi, rfl⟩
    refine ensures_pure ⟨by rw [entry_of_slot hs], ?_⟩
    rw [State.entered, if_pos (by simp [hs])]
  · next hn =>
    have hs : slot s b = none := slot_eq_none_iff.mpr hn
    refine ensures_gets_bind (ensures_modify_bind (ensures_pure ⟨?_, ?_⟩))
    · rw [entry, hs]
      rfl
    · rw [State.entered, if_neg (by simp [hs])]

/-- `get` counts and locks the buffer of the block. -/
theorem get_slots (hp : Placed s) (hc : ∀ t, R.crash t)
    (hu : R.total → (entry s b).2.locked = false) :
    Ensures R (BufferCache.get s.log.device b) s fun i t ↦
      i = (entry s b).1 ∧ (entry s b).2.locked = false ∧
      Slots (s.entered b) t b (some (i, { (entry s b).2 with
        refCount := (entry s b).2.refCount + 1, locked := true })) := by
  unfold BufferCache.get
  refine ensures_call_bind (hc _) fun _ ↦ ensures_bind find_slots ?_
  rintro i _ ⟨hi, rfl⟩
  have hself : slot (s.entered b) b = some (entry s b) := by rw [slot_entered hp, if_pos rfl]
  generalize entry s b = e at *
  obtain ⟨j, buf⟩ := e
  obtain rfl : i = j := hi
  have h₁ := slots_setBuffer (placed_entered hp) hself
    (fun b ↦ { b with refCount := b.refCount + 1 }) rfl rfl
  have h₂ := slots_setBuffer h₁.placed h₁.self (fun b ↦ { b with locked := true }) rfl rfl
  obtain ⟨-, hbuf⟩ := slot_eq_some_iff.mp h₁.self
  refine ensures_modify_bind (ensures_assert_bind ?_ (hc _) ?_)
  · intro hT
    rw [hbuf]
    exact hu hT
  · intro hl
    rw [hbuf] at hl
    exact ensures_modify_bind (ensures_pure ⟨rfl, hl, h₁.trans h₂⟩)

/-- `get` and `read` return a buffer with the content of the block. -/
theorem hold_slots {α : Type} {k : Nat → FsM α} {Q : α → State → Prop} (hp : Placed s)
    (hc : ∀ t, R.crash t) (hu : R.total → (entry s b).2.locked = false)
    (hk : ∀ i t, Slots (s.entered b) t b (some (i, { (entry s b).2 with
      refCount := (entry s b).2.refCount + 1, locked := true, valid := true,
      data := content s b })) → Ensures R (k i) t Q) :
    Ensures R (do
      let i ← BufferCache.get s.log.device b
      Buffer.read i
      k i) s Q := by
  refine ensures_bind (get_slots hp hc hu) ?_
  rintro i t ⟨-, -, ht⟩
  refine ensures_bind (read_slots ht.placed ht.self) fun _ u hu ↦ hk i u ?_
  have hdisk : t.disk = s.disk := by rw [ht.frame, entered_frame]
  rw [hdisk] at hu
  exact ht.trans hu

/-- `writeLog(Buffer*)` counts one user more for a block that it adds to the header. -/
theorem writeLog_slots (hp : Placed s) (hc : ∀ t, R.crash t) (hT : ¬ R.total)
    (hs : slot s b = some (i, buf)) :
    Ensures R (writeLog i) s fun _ t ↦
      t = { s with cache := t.cache, log := s.log.logged b } ∧ Placed t ∧
        slot t = Function.update (slot s) b (some (i, { buf with
          refCount := buf.refCount + if b ∈ s.log.header then 0 else 1 })) := by
  have hi : Ptr s i b := ⟨buf, hs⟩
  unfold writeLog
  refine ensures_gets_bind (ensures_call_bind (hc _) fun _ ↦ ?_)
  refine ensures_assert_bind (fun h ↦ absurd h hT) (hc _) fun _ ↦ ?_
  refine ensures_assert_bind (fun h ↦ absurd h hT) (hc _) fun _ ↦ ?_
  refine ensures_assert_bind (fun h ↦ absurd h hT) (hc _) fun _ ↦ ensures_gets_bind ?_
  rw [hi.block hp]
  split
  · next hn =>
    refine ensures_bind (pin_slots hp hs) fun _ t ht ↦ ?_
    have hlog : { s.log with header := s.log.header ++ [b] } = s.log.logged b := by
      rw [Log.logged, if_neg hn]
    refine ensures_modify ⟨?_, ?_, ?_⟩
    · rw [ht.frame, ← hlog]
    · refine (Placing.of_cache rfl ?_).placed ht.placed
      rfl
    · have hslot := ht.slot
      simp only
      rw [← hslot]
      exact slot_congr rfl rfl
  · next hm =>
    have hmem : b ∈ s.log.header := by simpa using hm
    refine ensures_pure ⟨by rw [Log.logged, if_pos hmem], hp, ?_⟩
    rw [if_pos hmem, UInt32.add_zero, ← hs, Function.update_eq_self]

end

end Orfos.Fs
