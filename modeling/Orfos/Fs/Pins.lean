import Orfos.Base.Guarded
import Orfos.Fs.Transaction

/-!
# The pins of the log

`writeLog(Buffer*)` pins a block when it enters the header, and `commit` takes the pin back when it
installs the block. Between the calls and between the rounds of `commit`, the reference count of a
buffer is the number of its holders and of the pins of the log. Other threads get, read, change and
release buffers at any time; a thread that would wait for a sleep lock takes its step later. Nothing
is said about the contents, and a buffer need not be read before it is logged.
-/

namespace Orfos.Fs

open Orfos.Base Orfos.Base.Traced Orfos.Lib

/-- Exactly the pinned and the held blocks are cached, and the held ones locked. -/
structure Accounted (s : State) (pins held : Finset UInt32) : Prop where
  placed : Placed s
  cached : ∀ b i buf, slot s b = some (i, buf) → (b ∈ pins ∨ b ∈ held) ∧
    buf.refCount = users pins held b ∧ buf.locked = decide (b ∈ held)
  absent : ∀ b, slot s b = none → b ∉ pins ∧ b ∉ held

/-- From `s` to `t` the log has stayed and the slots of other blocks have. -/
structure Within (s t : State) (bs : List UInt32) : Prop where
  log : t.log = s.log
  others : ∀ c, c ∉ bs → slot t c = slot s c

/-- Programs whose table insertions find room. -/
def rooms (total : Prop) : Terms := ⟨Room, Room.hasRoom, fun _ ↦ True, total⟩

section

variable {s t u : State} {pins pins' held held' : Finset UInt32} {a b c : UInt32} {i j : Nat}
  {bs : List UInt32}

theorem Calm.accounted (h : Calm s pins held) : Accounted s pins held :=
  ⟨h.placed, fun b i buf hs ↦ by
    obtain ⟨hb, -, hr, hl⟩ := h.cached b i buf hs
    exact ⟨hb, hr, hl⟩, h.absent⟩

theorem Within.refl (s : State) (bs : List UInt32) : Within s s bs := ⟨rfl, fun _ _ ↦ rfl⟩

theorem Within.trans (h : Within s t bs) (h' : Within t u bs) : Within s u bs :=
  ⟨h'.log.trans h.log, fun c hc ↦ (h'.others c hc).trans (h.others c hc)⟩

theorem Within.mono {bs' : List UInt32} (h : Within s t bs) (hb : bs ⊆ bs') : Within s t bs' :=
  ⟨h.log, fun c hc ↦ h.others c fun hm ↦ hc (hb hm)⟩

theorem Slots.within {v : Option (Nat × Buffer)} (h : Slots s t b v) : Within s t [b] :=
  ⟨by rw [h.frame], fun c hc ↦ h.of_ne (by simpa using hc)⟩

theorem Ptr.within (hp : Ptr s i c) (h : Within s t bs) (hc : c ∉ bs) : Ptr t i c := by
  obtain ⟨buf, hs⟩ := hp
  exact ⟨buf, (h.others c hc).trans hs⟩

theorem Accounted.congr (h : Accounted s pins held) (hc : t.cache = s.cache)
    (hl : t.log.device = s.log.device) : Accounted t pins held := by
  obtain ⟨hp, hcd, ha⟩ := h
  have hs := slot_congr hc hl
  refine ⟨?_, ?_, ?_⟩
  · rwa [Placed, hs, hc, hl]
  · rwa [hs]
  · rwa [hs]

/-- The buffer behind a pointer. -/
theorem Accounted.of_ptr (h : Accounted s pins held) (hi : Ptr s i b) :
    ∃ buf, slot s b = some (i, buf) ∧ buf.refCount = users pins held b ∧
      buf.locked = decide (b ∈ held) := by
  obtain ⟨buf, hs⟩ := hi
  obtain ⟨-, hr, hl⟩ := h.cached b i buf hs
  exact ⟨buf, hs, hr, hl⟩

/-- The accounts follow a change of one slot. -/
theorem Accounted.of_slots {v : Option (Nat × Buffer)} (h : Accounted s pins held)
    (hs : Slots s t b v) (hp : ∀ c, c ≠ b → (c ∈ pins' ↔ c ∈ pins))
    (hh : ∀ c, c ≠ b → (c ∈ held' ↔ c ∈ held)) (hn : v = none → b ∉ pins' ∧ b ∉ held')
    (hv : ∀ i buf, v = some (i, buf) → (b ∈ pins' ∨ b ∈ held') ∧
      buf.refCount = users pins' held' b ∧ buf.locked = decide (b ∈ held')) :
    Accounted t pins' held' := by
  refine ⟨hs.placed, ?_, ?_⟩
  · intro c j bf hc
    by_cases hcb : c = b
    · subst c
      exact hv j bf (hs.self ▸ hc)
    · rw [hs.of_ne hcb] at hc
      simpa only [users, hp c hcb, hh c hcb] using h.cached c j bf hc
  · intro c hc
    by_cases hcb : c = b
    · subst c
      exact hn (hs.self ▸ hc)
    · rw [hs.of_ne hcb] at hc
      rw [hp c hcb, hh c hcb]
      exact h.absent c hc

end

section

variable {total : Prop} {s t : State} {pins held : Finset UInt32} {a b : UInt32} {i j : Nat}

/-- `get` holds a block. -/
theorem get_accounted (h : Accounted s pins held) (hb : total → b ∉ held) :
    Ensures (rooms total).regime (BufferCache.get s.log.device b) s fun i t ↦
      b ∉ held ∧ Within s t [b] ∧ Ptr t i b ∧ Accounted t pins (insert b held) := by
  have hentry : (entry s b).2.refCount = (if b ∈ pins then 1 else 0) + (if b ∈ held then 1 else 0) ∧
      (entry s b).2.locked = decide (b ∈ held) := by
    cases hs : slot s b with
    | none =>
      obtain ⟨hp, hh⟩ := h.absent b hs
      simp [entry, hs, Buffer.fresh, hp, hh]
    | some p =>
      obtain ⟨-, hr, hl⟩ := h.cached b p.1 p.2 hs
      simp only [entry, hs, Option.getD_some]
      exact ⟨hr, hl⟩
  obtain ⟨hr, hl⟩ := hentry
  refine (get_ensures (T := rooms total) h.placed trivial fun hT ↦ ?_).imp ?_
  · rw [hl]
    exact decide_eq_false (hb hT)
  · rintro i t ⟨-, hunlocked, ht⟩
    have hnb : b ∉ held := by
      rw [hl] at hunlocked
      exact of_decide_eq_false hunlocked
    refine ⟨hnb, ht.within, ⟨_, ht.self⟩, h.of_slots ht (fun _ _ ↦ Iff.rfl)
      (fun c hc ↦ by simp [hc]) (fun h' ↦ by cases h') ?_⟩
    rintro _ _ hbuf
    cases hbuf
    simp [users, hr, hnb]

/-- A step of a holder that changes neither the count nor the lock. -/
theorem Accounted.fill {buf : Buffer} {f : Buffer → Buffer} (h : Accounted s pins held)
    (hs : slot s b = some (i, buf)) (ht : Slots s t b (some (i, f buf)))
    (hf : (f buf).refCount = buf.refCount ∧ (f buf).locked = buf.locked) :
    Within s t [b] ∧ Ptr t i b ∧ Accounted t pins held := by
  obtain ⟨hmem, hr, hl⟩ := h.cached b i buf hs
  refine ⟨ht.within, ⟨_, ht.self⟩, h.of_slots ht (fun _ _ ↦ Iff.rfl) (fun _ _ ↦ Iff.rfl)
    (fun h' ↦ by cases h') ?_⟩
  rintro _ _ hbuf
  cases hbuf
  rw [hf.1, hf.2]
  exact ⟨hmem, hr, hl⟩

theorem read_accounted (h : Accounted s pins held) (hi : Ptr s i b) :
    Ensures (rooms total).regime (Buffer.read i) s fun _ t ↦
      Within s t [b] ∧ Ptr t i b ∧ Accounted t pins held := by
  obtain ⟨buf, hs⟩ := hi
  refine (read_ensures (T := rooms total) h.placed hs).imp fun _ t ht ↦ ?_
  exact h.fill (f := fun x ↦
    { x with valid := true, data := if x.valid then x.data else s.disk b }) hs ht ⟨rfl, rfl⟩

theorem store_accounted (h : Accounted s pins held) (hi : Ptr s i b) (f : Block → Block) :
    Ensures (rooms total).regime
      (modify fun s ↦ s.setBuffer i fun x ↦ { x with data := f x.data }) s fun _ t ↦
        Within s t [b] ∧ Ptr t i b ∧ Accounted t pins held := by
  obtain ⟨buf, hs⟩ := hi
  refine ensures_modify ?_
  exact h.fill (f := fun x ↦ { x with data := f x.data }) hs
    (slots_setBuffer h.placed hs _ rfl rfl) ⟨rfl, rfl⟩

theorem write_accounted (h : Accounted s pins held) (hb : b ∈ held) (hi : Ptr s i b) :
    Ensures (rooms total).regime (Buffer.write i) s fun _ t ↦
      Within s t [b] ∧ Ptr t i b ∧ Accounted t pins held := by
  obtain ⟨buf, hs, -, hl⟩ := h.of_ptr hi
  refine (write_ensures (T := rooms total) h.placed trivial hs fun _ ↦ by rw [hl]; simpa).imp ?_
  rintro _ _ rfl
  exact ⟨⟨rfl, fun _ _ ↦ rfl⟩, hi, h.congr rfl rfl⟩

/-- `release` gives a block back; the buffer stays if the log has pinned it. -/
theorem release_accounted (h : Accounted s pins held) (hb : b ∈ held) (hi : Ptr s i b) :
    Ensures (rooms total).regime (BufferCache.release i) s fun _ t ↦
      Within s t [b] ∧ Accounted t pins (held.erase b) := by
  obtain ⟨buf, hs, hr, hl⟩ := h.of_ptr hi
  refine (release_ensures (T := rooms total) h.placed trivial hs fun _ ↦ by rw [hl]; simpa).imp ?_
  intro _ t ht
  have hh : ∀ c, c ≠ b → (c ∈ held.erase b ↔ c ∈ held) := fun c hcb ↦ by simp [hcb]
  refine ⟨ht.within, ?_⟩
  by_cases hp : b ∈ pins
  · have hz : buf.refCount - 1 ≠ 0 := by simp [hr, users, hp, hb]
    rw [if_neg hz] at ht
    refine h.of_slots ht (fun _ _ ↦ Iff.rfl) hh (fun h' ↦ by cases h') ?_
    rintro _ _ hbuf
    cases hbuf
    simp [hr, users, hp, hb]
  · have hz : buf.refCount - 1 = 0 := by simp [hr, users, hp, hb]
    rw [if_pos hz] at ht
    exact h.of_slots ht (fun _ _ ↦ Iff.rfl) hh (fun _ ↦ ⟨hp, by simp⟩) fun _ _ h' ↦ by cases h'

theorem pin_accounted (h : Accounted s pins held) (hb : b ∈ held) (hp : b ∉ pins)
    (hi : Ptr s i b) :
    Ensures (rooms total).regime (BufferCache.pin i) s fun _ t ↦
      Within s t [b] ∧ Ptr t i b ∧ Accounted t (insert b pins) held := by
  obtain ⟨buf, hs, hr, hl⟩ := h.of_ptr hi
  refine (pin_ensures (T := rooms total) h.placed hs).imp fun _ t ht ↦ ?_
  refine ⟨ht.within, ⟨_, ht.self⟩, h.of_slots ht (fun c hcb ↦ by simp [hcb]) (fun _ _ ↦ Iff.rfl)
    (fun h' ↦ by cases h') ?_⟩
  rintro _ _ hbuf
  cases hbuf
  simp [hr, users, hp, hb, hl]

/-- `unpin` takes a pin back that is there, so its assertion holds. -/
theorem unpin_accounted (h : Accounted s pins held) (hb : b ∈ held) (hp : b ∈ pins)
    (hi : Ptr s i b) :
    Ensures (rooms total).regime (BufferCache.unpin i) s fun _ t ↦
      Within s t [b] ∧ Ptr t i b ∧ Accounted t (pins.erase b) held := by
  obtain ⟨buf, hs, hr, hl⟩ := h.of_ptr hi
  refine (unpin_ensures (T := rooms total) h.placed trivial hs fun _ ↦ ?_).imp fun _ t ht ↦ ?_
  · simp [hr, users, hp, hb]
  refine ⟨ht.within, ⟨_, ht.self⟩, h.of_slots ht (fun c hcb ↦ by simp [hcb]) (fun _ _ ↦ Iff.rfl)
    (fun h' ↦ by cases h') ?_⟩
  rintro _ _ hbuf
  cases hbuf
  simp [hr, users, hp, hb, hl]

/-- `writeLog(Buffer*)` pins a block that enters the header. -/
theorem writeLog_accounted (h : Accounted s s.log.header.toFinset held)
    (hT : total → s.log.Ready) (hb : b ∈ held) (hi : Ptr s i b) :
    Ensures (rooms total).regime (writeLog i) s fun _ t ↦
      t.log = s.log.logged b ∧ (∀ c, c ≠ b → slot t c = slot s c) ∧ Ptr t i b ∧
        Accounted t t.log.header.toFinset held := by
  unfold writeLog
  refine ensures_gets_bind (ensures_call_bind trivial fun _ ↦ ?_)
  refine ensures_assert_bind (fun ht ↦ (hT ht).1.1) trivial fun _ ↦ ?_
  refine ensures_assert_bind (fun ht ↦ (hT ht).1.2) trivial fun _ ↦ ?_
  refine ensures_assert_bind (fun ht ↦ (hT ht).2) trivial fun _ ↦ ?_
  refine ensures_gets_bind ?_
  rw [hi.block h.placed]
  split
  · next hn =>
    refine ensures_bind (pin_accounted h hb (by simpa using hn) hi) ?_
    rintro _ t ⟨hwt, hit, ht⟩
    have hlogged : { t.log with header := s.log.header ++ [b] } = s.log.logged b := by
      rw [Log.logged, if_neg hn, hwt.log]
    refine ensures_modify ⟨hlogged, fun c hc ↦ ?_, hit.congr rfl rfl, ?_⟩
    · exact (congrFun (slot_congr rfl rfl) c).trans (hwt.others c (by simpa using hc))
    · have hpins := Log.toFinset_logged s.log hn
      rw [← hlogged] at hpins
      dsimp only at hpins ⊢
      rw [hpins]
      exact ht.congr rfl rfl
  · next hm =>
    have hmem : b ∈ s.log.header := by simpa using hm
    exact ensures_pure ⟨by rw [Log.logged, if_pos hmem], fun _ _ ↦ rfl, hi, h⟩

theorem erase_two (hab : a ≠ b) (ha : a ∉ held) (hb : b ∉ held) :
    ((insert b (insert a held)).erase b).erase a = held := by
  rw [Finset.erase_insert (by simp [hab.symm, hb]), Finset.erase_insert ha]

/-- Two blocks got one after the other and then read. -/
theorem pair_accounted {α : Type} {k : Nat → Nat → FsM α} {Q : α → State → Prop}
    (h : Accounted s pins held) (ha : total → a ∉ held) (hb : total → b ∉ held)
    (hab : total → a ≠ b)
    (hk : ∀ i j t, a ≠ b → a ∉ held → b ∉ held → Within s t [a, b] → Ptr t i a → Ptr t j b →
      Accounted t pins (insert b (insert a held)) → Ensures (rooms total).regime (k i j) t Q) :
    Ensures (rooms total).regime (do
      let i ← BufferCache.get s.log.device a
      let j ← BufferCache.get s.log.device b
      Buffer.read i
      Buffer.read j
      k i j) s Q := by
  refine ensures_bind (get_accounted h ha) ?_
  rintro i t₁ ⟨hna, hw₁, hi₁, h₁⟩
  rw [← hw₁.log]
  refine ensures_bind (get_accounted h₁ fun hT ↦ ?_) ?_
  · rw [Finset.mem_insert, not_or]
    exact ⟨(hab hT).symm, hb hT⟩
  rintro j t₂ ⟨hnb, hw₂, hj₂, h₂⟩
  rw [Finset.mem_insert, not_or] at hnb
  have hi₂ := hi₁.within hw₂ (by simpa using Ne.symm hnb.1)
  refine ensures_bind (read_accounted h₂ hi₂) ?_
  rintro _ t₃ ⟨hw₃, hi₃, h₃⟩
  have hj₃ := hj₂.within hw₃ (by simpa using hnb.1)
  refine ensures_bind (read_accounted h₃ hj₃) ?_
  rintro _ t₄ ⟨hw₄, hj₄, h₄⟩
  have hi₄ := hi₃.within hw₄ (by simpa using Ne.symm hnb.1)
  refine hk i j t₄ (Ne.symm hnb.1) hna hnb.2 ?_ hi₄ hj₄ h₄
  have hone : [a] ⊆ [a, b] := by simp
  have hother : [b] ⊆ [a, b] := by simp
  exact (((hw₁.mono hone).trans (hw₂.mono hother)).trans (hw₃.mono hone)).trans (hw₄.mono hother)

/-- A round of `writeLog()`. -/
theorem writeLogBlock_accounted {k : Nat} (h : Accounted s pins held)
    (ha : total → Log.blockAt s.log.start k ∉ held) (hb : total → b ∉ held)
    (hab : total → Log.blockAt s.log.start k ≠ b) :
    Ensures (rooms total).regime (Log.writeLogBlock s.log (b, k)) s fun _ t ↦
      Log.blockAt s.log.start k ∉ held ∧ b ∉ held ∧
        Within s t [Log.blockAt s.log.start k, b] ∧ Accounted t pins held := by
  unfold Log.writeLogBlock
  dsimp only
  generalize Log.blockAt s.log.start k = a at *
  refine pair_accounted h ha hb hab ?_
  intro i j t hne hna hnb hwt hi hj ht
  refine ensures_gets_bind ?_
  refine ensures_bind (store_accounted ht hi fun _ ↦ (t.cache.buffers j).data) ?_
  rintro _ u ⟨hwu, hiu, hu⟩
  have hju := hj.within hwu (by simpa using hne.symm)
  refine ensures_bind (write_accounted hu (by simp) hiu) ?_
  rintro _ v ⟨hwv, hiv, hv⟩
  have hjv := hju.within hwv (by simpa using hne.symm)
  refine ensures_bind (release_accounted hv (by simp) hjv) ?_
  rintro _ w ⟨hww, hw⟩
  have hiw := hiv.within hww (by simpa using hne)
  refine (release_accounted hw (by simp [hne]) hiw).imp ?_
  rintro _ x ⟨hwx, hx⟩
  rw [erase_two hne hna hnb] at hx
  have hone : [a] ⊆ [a, b] := by simp
  have hother : [b] ⊆ [a, b] := by simp
  exact ⟨hna, hnb, (((hwt.trans (hwu.mono hone)).trans (hwv.mono hone)).trans
    (hww.mono hother)).trans (hwx.mono hone), hx⟩

/-- A round of `installTransaction` after a commit takes the pin of its block back. -/
theorem installBlock_accounted {k : Nat} (h : Accounted s pins held) (hp : b ∈ pins)
    (ha : total → Log.blockAt s.log.start k ∉ held) (hb : total → b ∉ held)
    (hab : total → Log.blockAt s.log.start k ≠ b) :
    Ensures (rooms total).regime (Log.installBlock false s.log (b, k)) s fun _ t ↦
      Log.blockAt s.log.start k ∉ held ∧ b ∉ held ∧
        Within s t [Log.blockAt s.log.start k, b] ∧ Accounted t (pins.erase b) held := by
  unfold Log.installBlock
  dsimp only
  generalize Log.blockAt s.log.start k = a at *
  refine pair_accounted h ha hb hab ?_
  intro i j t hne hna hnb hwt hi hj ht
  refine ensures_gets_bind ?_
  refine ensures_bind (store_accounted ht hj fun _ ↦ (t.cache.buffers i).data) ?_
  rintro _ u ⟨hwu, hju, hu⟩
  have hiu := hi.within hwu (by simpa using hne)
  refine ensures_bind (write_accounted hu (by simp) hju) ?_
  rintro _ v ⟨hwv, hjv, hv⟩
  have hiv := hiu.within hwv (by simpa using hne)
  refine ensures_bind (unpin_accounted hv (by simp) hp hjv) ?_
  rintro _ w ⟨hww, hjw, hw⟩
  have hiw := hiv.within hww (by simpa using hne)
  refine ensures_bind (release_accounted hw (by simp) hiw) ?_
  rintro _ x ⟨hwx, hx⟩
  have hjx := hjw.within hwx (by simpa using hne.symm)
  refine (release_accounted hx (by simp [hne.symm]) hjx).imp ?_
  rintro _ y ⟨hwy, hy⟩
  rw [Finset.insert_comm, erase_two hne.symm hnb hna] at hy
  have hone : [a] ⊆ [a, b] := by simp
  have hother : [b] ⊆ [a, b] := by simp
  exact ⟨hna, hnb, ((((hwt.trans (hwu.mono hother)).trans (hwv.mono hother)).trans
    (hww.mono hother)).trans (hwx.mono hone)).trans (hwy.mono hother), hy⟩

/-- `writeHead` uses the buffer of the header block. -/
theorem writeHead_accounted (h : Accounted s pins held) (hb : total → s.log.start ∉ held) :
    Ensures (rooms total).regime Log.writeHead s fun _ t ↦
      s.log.start ∉ held ∧ Within s t [s.log.start] ∧ Accounted t pins held := by
  refine ensures_gets_bind (ensures_bind (get_accounted h hb) ?_)
  rintro i t ⟨hnb, hwt, hi, ht⟩
  refine ensures_bind (read_accounted ht hi) ?_
  rintro _ u ⟨hwu, hiu, hu⟩
  refine ensures_bind (store_accounted hu hiu _) ?_
  rintro _ v ⟨hwv, hiv, hv⟩
  refine ensures_bind (write_accounted hv (by simp) hiv) ?_
  rintro _ w ⟨hww, hiw, hw⟩
  refine (release_accounted hw (by simp) hiw).imp ?_
  rintro _ x ⟨hwx, hx⟩
  rw [Finset.erase_insert hnb] at hx
  exact ⟨hnb, (((hwt.trans hwu).trans hwv).trans hww).trans hwx, hx⟩

end

/-! ### Logging and committing -/

/-- Where `commit` is, with the entries that the loops still have to do. -/
inductive CommitStage where
  | idle
  | logging (log : Log) (rest : List (UInt32 × Nat))
  | heading
  | installing (log : Log) (rest : List (UInt32 × Nat))
  | clearing
  | unheading

/-- The blocks that threads have got and not released, with the pointers; the blocks of the calls of
`writeLog` since the last commit; and the place in `commit`. -/
structure Marks where
  held : List (UInt32 × Nat)
  logged : List UInt32
  stage : CommitStage

structure Session where
  state : State
  marks : Marks

/-- What a thread does: one call, with a buffer that it has got, or a round of `commit`. -/
inductive Op where
  | get (block : UInt32)
  | read (h : UInt32 × Nat)
  | store (h : UInt32 × Nat) (f : Block → Block)
  | release (h : UInt32 × Nat)
  | writeLog (h : UInt32 × Nat)
  | commit
  | go

namespace Session

/-- The next round of `commit`. -/
def round (x : Session) : Option (FsM Marks) :=
  match x.marks.stage with
  | .idle => none
  | .logging _ [] => some (pure { x.marks with stage := .heading })
  | .logging log (entry :: rest) => some do
    Log.writeLogBlock log entry
    pure { x.marks with stage := .logging log rest }
  | .heading => some do
    Log.writeHead
    let log ← gets fun s ↦ s.log
    pure { x.marks with stage := .installing log log.header.zipIdx }
  | .installing _ [] => some (pure { x.marks with stage := .clearing })
  | .installing log (entry :: rest) => some do
    Log.installBlock false log entry
    pure { x.marks with stage := .installing log rest }
  | .clearing => some do
    Log.clear
    pure { x.marks with logged := [], stage := .unheading }
  | .unheading => some do
    Log.writeHead
    pure { x.marks with stage := .idle }

/-- The program that an operation runs. -/
def code (x : Session) : Op → Option (FsM Marks)
  | .get block => some do
    let i ← BufferCache.get x.state.log.device block
    pure { x.marks with held := (block, i) :: x.marks.held }
  | .read h =>
    if h ∈ x.marks.held then some do
      Buffer.read h.2
      pure x.marks
    else none
  | .store h f =>
    if h ∈ x.marks.held then some do
      modify fun s ↦ s.setBuffer h.2 fun b ↦ { b with data := f b.data }
      pure x.marks
    else none
  | .release h =>
    if h ∈ x.marks.held then some do
      BufferCache.release h.2
      pure { x.marks with held := x.marks.held.erase h }
    else none
  | .writeLog h =>
    match x.marks.stage with
    | .idle =>
      if h ∈ x.marks.held then some do
        Fs.writeLog h.2
        pure { x.marks with logged := h.1 :: x.marks.logged }
      else none
    | _ => none
  | .commit =>
    match x.marks.stage with
    | .idle => some do
      let log ← gets fun s ↦ s.log
      if log.header.length > 0 then
        pure { x.marks with stage := .logging log log.header.zipIdx }
      else pure { x.marks with logged := [] }
    | _ => none
  | .go => x.round

/-- Run the program of an operation, if it returns. -/
def step (x : Session) (op : Op) : Option Session :=
  match x.code op with
  | none => none
  | some p => (p x.state).value.map fun m ↦ ⟨(p x.state).state, m⟩

/-- The insertions of the operation find room. -/
def Roomy (x : Session) (op : Op) : Prop := ∀ p, x.code op = some p → Met Room p x.state

/-- The blocks that the log has pinned. -/
def pins (x : Session) : List UInt32 :=
  match x.marks.stage with
  | .idle | .logging _ _ | .heading => x.state.log.header
  | .installing _ rest => rest.map Prod.fst
  | .clearing | .unheading => []

/-- The blocks whose locks the next round of `commit` takes. -/
def needs (x : Session) : List UInt32 :=
  match x.marks.stage with
  | .idle | .logging _ [] | .installing _ [] | .clearing => []
  | .logging log ((b, k) :: _) | .installing log ((b, k) :: _) => [Log.blockAt log.start k, b]
  | .heading | .unheading => [x.state.log.start]

/-- The header lists each block that was logged since the last commit once, each of these has one pin
until it is installed, and every reference count is the number of the holders and of the pins. A
round of `commit` returns as soon as the locks that it takes are free. -/
structure Sound (x : Session) : Prop where
  nodup : x.state.log.header.Nodup
  exact : ∀ b, b ∈ x.state.log.header ↔ b ∈ x.marks.logged
  emptied : x.marks.stage = .unheading → x.state.log.header = []
  once : x.pins.Nodup ∧ x.pins ⊆ x.state.log.header
  cached : ∀ b, b ∈ x.pins ∨ (∃ i, (b, i) ∈ x.marks.held) → ∃ i buf, slot x.state b = some (i, buf)
  counted : ∀ b i buf, slot x.state b = some (i, buf) →
    buf.refCount.toNat = (x.marks.held.countP fun h ↦ h.2 = i) + x.pins.count b
  returns : x.Roomy .go → x.needs.Nodup → (∀ b i buf, b ∈ x.needs → slot x.state b = some (i, buf) →
    buf.locked = false) → x.marks.stage ≠ .idle → (x.step .go).isSome

/-- What is known at a place in `commit`. -/
def Staged (s : State) (m : Marks) : Prop :=
  match m.stage with
  | .idle | .heading | .clearing => True
  | .logging log _ => log = s.log
  | .installing log rest =>
    log = s.log ∧ (rest.map Prod.fst).Nodup ∧ rest.map Prod.fst ⊆ s.log.header
  | .unheading => s.log.header = [] ∧ m.logged = []

/-- The invariant of the threads and the log. -/
structure Inv (x : Session) : Prop where
  accounted : Accounted x.state x.pins.toFinset (x.marks.held.map Prod.fst).toFinset
  pointers : ∀ h ∈ x.marks.held, Ptr x.state h.2 h.1
  distinct : (x.marks.held.map Prod.fst).Nodup
  nodup : x.state.log.header.Nodup
  exact : ∀ b, b ∈ x.state.log.header ↔ b ∈ x.marks.logged
  staged : Staged x.state x.marks

variable {x y : Session} {t : State} {b : UInt32} {i : Nat} {h : UInt32 × Nat} {total : Prop}
  {bs : List UInt32} {p : FsM Marks}

/-- The blocks that threads hold. -/
def holding (x : Session) : Finset UInt32 := (x.marks.held.map Prod.fst).toFinset

theorem mem_holding : b ∈ x.holding ↔ ∃ i, (b, i) ∈ x.marks.held := by
  simp [holding]

theorem Inv.holds (hx : Inv x) (hh : h ∈ x.marks.held) : h.1 ∈ x.holding ∧ Ptr x.state h.2 h.1 :=
  ⟨mem_holding.mpr ⟨h.2, hh⟩, hx.pointers h hh⟩

/-- The pointers of threads outlive what happens to blocks that they do not hold. -/
theorem Inv.pointers_within (hx : Inv x) (hw : Within x.state t bs)
    (hb : ∀ b ∈ bs, b ∉ x.holding) : ∀ h ∈ x.marks.held, Ptr t h.2 h.1 := by
  intro h hh
  obtain ⟨hmem, hptr⟩ := hx.holds hh
  exact hptr.within hw fun hbs ↦ hb _ hbs hmem

/-- A step of a holder changes the cache only. -/
theorem Inv.move (hx : Inv x) (hlog : t.log = x.state.log) {held : List (UInt32 × Nat)}
    (haccounted : Accounted t x.pins.toFinset (held.map Prod.fst).toFinset)
    (hpointers : ∀ h ∈ held, Ptr t h.2 h.1) (hdistinct : (held.map Prod.fst).Nodup) :
    Inv ⟨t, { x.marks with held := held }⟩ := by
  have hpins : (⟨t, { x.marks with held := held }⟩ : Session).pins = x.pins := by
    unfold pins
    rw [hlog]
  refine ⟨?_, hpointers, hdistinct, ?_, fun b ↦ ?_, ?_⟩
  · rw [hpins]
    exact haccounted
  · rw [hlog]
    exact hx.nodup
  · rw [hlog]
    exact hx.exact b
  · have hstaged := hx.staged
    unfold Staged at hstaged ⊢
    rw [hlog]
    exact hstaged

/-- A step of a holder that keeps its buffer. -/
theorem Inv.keep (hx : Inv x) (hh : h ∈ x.marks.held)
    (hw : Within x.state t [h.1]) (hi : Ptr t h.2 h.1)
    (ht : Accounted t x.pins.toFinset x.holding) : Inv ⟨t, x.marks⟩ := by
  refine hx.move hw.log ht (fun g hg ↦ ?_) hx.distinct
  by_cases hgh : g.1 = h.1
  · have hsame : g = h := List.inj_on_of_nodup_map hx.distinct hg hh hgh
    rw [hsame]
    exact hi
  · exact (hx.pointers g hg).within hw (by simpa using hgh)

theorem get_inv (hx : Inv x) :
    Ensures (rooms False).regime (do
      let i ← BufferCache.get x.state.log.device b
      pure { x.marks with held := (b, i) :: x.marks.held }) x.state fun m t ↦ Inv ⟨t, m⟩ := by
  refine ensures_bind (get_accounted hx.accounted False.elim) ?_
  rintro i t ⟨hnb, hw, hi, ht⟩
  refine ensures_pure (hx.move hw.log ?_ ?_ ?_)
  · rwa [List.map_cons, List.toFinset_cons]
  · intro h hh
    rcases List.mem_cons.mp hh with rfl | hh
    · exact hi
    · exact hx.pointers_within hw (fun c hc ↦ List.mem_singleton.mp hc ▸ hnb) h hh
  · rw [List.map_cons, List.nodup_cons]
    exact ⟨fun hm ↦ hnb (List.mem_toFinset.mpr hm), hx.distinct⟩

theorem release_inv (hx : Inv x) (hh : h ∈ x.marks.held) :
    Ensures (rooms False).regime (do
      BufferCache.release h.2
      pure { x.marks with held := x.marks.held.erase h }) x.state fun m t ↦ Inv ⟨t, m⟩ := by
  obtain ⟨hmem, hptr⟩ := hx.holds hh
  refine ensures_bind (release_accounted hx.accounted hmem hptr) ?_
  rintro _ t ⟨hw, ht⟩
  have hnodup : x.marks.held.Nodup := List.Nodup.of_map _ hx.distinct
  have hne : ∀ g ∈ x.marks.held.erase h, g ∈ x.marks.held ∧ g.1 ≠ h.1 := by
    intro g hg
    obtain ⟨hgh, hg⟩ := hnodup.mem_erase_iff.mp hg
    exact ⟨hg, fun he ↦ hgh (List.inj_on_of_nodup_map hx.distinct hg hh he)⟩
  refine ensures_pure (hx.move hw.log ?_ (fun g hg ↦ ?_) ?_)
  · have hset : ((x.marks.held.erase h).map Prod.fst).toFinset =
        (x.marks.held.map Prod.fst).toFinset.erase h.1 := by
      ext c
      simp only [List.mem_toFinset, List.mem_map, Finset.mem_erase]
      constructor
      · rintro ⟨g, hg, rfl⟩
        exact ⟨(hne g hg).2, g, (hne g hg).1, rfl⟩
      · rintro ⟨hc, g, hg, rfl⟩
        exact ⟨g, (List.mem_erase_of_ne fun he ↦ hc (by rw [he])).mpr hg, rfl⟩
    rw [hset]
    exact ht
  · exact (hx.pointers g (hne g hg).1).within hw (by simpa using (hne g hg).2)
  · exact (List.erase_sublist.map _).nodup hx.distinct

theorem writeLog_inv (hx : Inv x) (hstage : x.marks.stage = .idle) (hh : h ∈ x.marks.held) :
    Ensures (rooms False).regime (do
      Fs.writeLog h.2
      pure { x.marks with logged := h.1 :: x.marks.logged }) x.state fun m t ↦ Inv ⟨t, m⟩ := by
  obtain ⟨hmem, hptr⟩ := hx.holds hh
  have hpins : x.pins = x.state.log.header := by rw [pins, hstage]
  have haccounted := hx.accounted
  rw [hpins] at haccounted
  refine ensures_bind (writeLog_accounted haccounted False.elim hmem hptr) ?_
  rintro _ t ⟨hlog, hothers, hi, ht⟩
  refine ensures_pure ⟨?_, fun g hg ↦ ?_, hx.distinct, ?_, fun b ↦ ?_, ?_⟩
  · have hpins' : (⟨t, { x.marks with logged := h.1 :: x.marks.logged }⟩ : Session).pins =
        t.log.header := by
      rw [pins]
      dsimp only
      rw [hstage]
    rw [hpins']
    exact ht
  · by_cases hgh : g.1 = h.1
    · have hsame : g = h := List.inj_on_of_nodup_map hx.distinct hg hh hgh
      rw [hsame]
      exact hi
    · obtain ⟨buf, hs⟩ := hx.pointers g hg
      exact ⟨buf, (hothers _ hgh).trans hs⟩
  · rw [hlog, Log.logged]
    split
    · exact hx.nodup
    · next hn =>
      refine List.nodup_append.mpr ⟨hx.nodup, List.nodup_singleton _, ?_⟩
      rintro c hc d hd rfl
      exact hn (List.mem_singleton.mp hd ▸ hc)
  · rw [hlog, Log.logged, List.mem_cons, ← hx.exact b]
    split
    · next hm =>
      refine ⟨.inr, ?_⟩
      rintro (rfl | hb)
      · exact hm
      · exact hb
    · rw [List.mem_append, List.mem_singleton]
      exact or_comm
  · unfold Staged
    dsimp only
    rw [hstage]
    trivial

/-- A step of `commit` changes neither the log nor what the threads hold. -/
theorem Inv.advance (hx : Inv x) {stage : CommitStage} (hw : Within x.state t bs)
    (hb : ∀ b ∈ bs, b ∉ x.holding) {m : Marks} (hm : m = { x.marks with stage := stage })
    (ht : Accounted t (⟨t, m⟩ : Session).pins.toFinset x.holding) (hs : Staged t m) :
    Inv ⟨t, m⟩ := by
  subst hm
  refine ⟨ht, hx.pointers_within hw hb, hx.distinct, ?_, fun b ↦ ?_, hs⟩
  · rw [hw.log]
    exact hx.nodup
  · rw [hw.log]
    exact hx.exact b

/-- A round of `commit` keeps the invariant, and returns if the locks that it takes are free. -/
theorem round_inv (hx : Inv x) (hfree : total → x.needs.Nodup ∧ ∀ b ∈ x.needs, b ∉ x.holding)
    (hp : x.round = some p) :
    Ensures (rooms total).regime p x.state fun m t ↦ Inv ⟨t, m⟩ := by
  have hstaged := hx.staged
  have haccounted := hx.accounted
  unfold Staged at hstaged
  unfold round at hp
  unfold needs at hfree
  unfold pins at haccounted
  split at hp <;> rename_i hstage <;> simp only [hstage] at hstaged hfree haccounted
  case h_1 => cases hp
  case h_2 =>
    cases hp
    refine ensures_pure (hx.advance (.refl _ []) (by simp) rfl ?_ trivial)
    exact haccounted
  case h_3 log e rest =>
    cases hp
    obtain ⟨b, k⟩ := e
    subst hstaged
    have hround := writeLogBlock_accounted (b := b) (k := k) haccounted
      (fun hT ↦ (hfree hT).2 _ (by simp)) (fun hT ↦ (hfree hT).2 _ (by simp))
      (fun hT ↦ by simpa using (hfree hT).1)
    refine ensures_bind hround ?_
    rintro _ t ⟨ha, hb, hw, ht⟩
    refine ensures_pure (hx.advance hw (by simp [holding] at ha hb ⊢; exact ⟨ha, hb⟩) rfl ?_ ?_)
    · change Accounted t t.log.header.toFinset _
      rw [hw.log]
      exact ht
    · exact hw.log.symm
  case h_4 =>
    cases hp
    refine ensures_bind (writeHead_accounted haccounted fun hT ↦ (hfree hT).2 _ (by simp)) ?_
    rintro _ t ⟨hb, hw, ht⟩
    refine ensures_gets_bind (ensures_pure (hx.advance hw
      (fun c hc ↦ List.mem_singleton.mp hc ▸ hb) rfl ?_ ?_))
    · change Accounted t (t.log.header.zipIdx.map Prod.fst).toFinset _
      rw [List.zipIdx_map_fst, hw.log]
      exact ht
    · refine ⟨rfl, ?_, ?_⟩
      · rw [List.zipIdx_map_fst, hw.log]
        exact hx.nodup
      · rw [List.zipIdx_map_fst]
        exact List.Subset.refl _
  case h_5 =>
    cases hp
    exact ensures_pure (hx.advance (.refl _ []) (by simp) rfl haccounted trivial)
  case h_6 log e rest =>
    cases hp
    obtain ⟨b, k⟩ := e
    obtain ⟨rfl, hnodup, hsub⟩ := hstaged
    rw [List.map_cons, List.nodup_cons] at hnodup
    have hround := installBlock_accounted (b := b) (k := k) haccounted (by simp)
      (fun hT ↦ (hfree hT).2 _ (by simp)) (fun hT ↦ (hfree hT).2 _ (by simp))
      (fun hT ↦ by simpa using (hfree hT).1)
    refine ensures_bind hround ?_
    rintro _ t ⟨ha, hb, hw, ht⟩
    refine ensures_pure (hx.advance hw (by simp [holding] at ha hb ⊢; exact ⟨ha, hb⟩) rfl ?_ ?_)
    · rw [List.map_cons, List.toFinset_cons,
        Finset.erase_insert (by rw [List.mem_toFinset]; exact hnodup.1)] at ht
      exact ht
    · refine ⟨hw.log.symm, hnodup.2, ?_⟩
      rw [hw.log]
      exact fun c hc ↦ hsub (List.mem_cons_of_mem _ hc)
  case h_7 =>
    cases hp
    refine ensures_modify_bind (ensures_pure ⟨?_, ?_, hx.distinct, List.nodup_nil, fun b ↦ ?_,
      rfl, rfl⟩)
    · exact haccounted.congr rfl rfl
    · exact fun h hh ↦ (hx.pointers h hh).congr rfl rfl
    · exact Iff.rfl
  case h_8 =>
    cases hp
    refine ensures_bind (writeHead_accounted haccounted fun hT ↦ (hfree hT).2 _ (by simp)) ?_
    rintro _ t ⟨hb, hw, ht⟩
    refine ensures_pure (hx.advance hw (fun c hc ↦ List.mem_singleton.mp hc ▸ hb) rfl ?_ trivial)
    change Accounted t t.log.header.toFinset _
    rw [hw.log, hstaged.1]
    exact ht

/-- An operation keeps the invariant. -/
theorem code_inv {op : Op} (hx : Inv x) (hp : x.code op = some p) :
    Ensures (rooms False).regime p x.state fun m t ↦ Inv ⟨t, m⟩ := by
  cases op with
  | get b =>
    cases hp
    exact get_inv hx
  | read h =>
    simp only [code] at hp
    split at hp
    · next hh =>
      cases hp
      obtain ⟨-, hptr⟩ := hx.holds hh
      refine ensures_bind (read_accounted hx.accounted hptr) ?_
      rintro _ t ⟨hw, hi, ht⟩
      exact ensures_pure (hx.keep hh hw hi ht)
    · cases hp
  | store h f =>
    simp only [code] at hp
    split at hp
    · next hh =>
      cases hp
      obtain ⟨-, hptr⟩ := hx.holds hh
      refine ensures_bind (store_accounted hx.accounted hptr f) ?_
      rintro _ t ⟨hw, hi, ht⟩
      exact ensures_pure (hx.keep hh hw hi ht)
    · cases hp
  | release h =>
    simp only [code] at hp
    split at hp
    · next hh =>
      cases hp
      exact release_inv hx hh
    · cases hp
  | writeLog h =>
    simp only [code] at hp
    split at hp
    · next hstage =>
      split at hp
      · next hh =>
        cases hp
        exact writeLog_inv hx hstage hh
      · cases hp
    · cases hp
  | commit =>
    simp only [code] at hp
    split at hp
    · next hstage =>
      cases hp
      have haccounted := hx.accounted
      rw [pins, hstage] at haccounted
      refine ensures_gets_bind ?_
      split
      · exact ensures_pure (hx.advance (.refl _ []) (by simp) rfl haccounted rfl)
      · next hempty =>
        have hnil : x.state.log.header = [] := by
          rw [gt_iff_lt, List.length_pos_iff, not_not] at hempty
          exact hempty
        refine ensures_pure ⟨?_, hx.pointers, hx.distinct, hx.nodup, fun b ↦ ?_, ?_⟩
        · rw [pins]
          dsimp only
          rw [hstage]
          exact haccounted
        · dsimp only
          rw [hnil]
        · rw [Staged]
          dsimp only
          rw [hstage]
          trivial
    · cases hp
  | go => exact round_inv hx False.elim hp

/-- The invariant is kept by each step whose insertions find room. -/
theorem Inv.step {op : Op} (hx : Inv x) (hok : x.Roomy op) (hy : x.step op = some y) : Inv y := by
  unfold Session.step at hy
  split at hy
  · cases hy
  · next p hp =>
    obtain ⟨m, hm, rfl⟩ := Option.map_eq_some_iff.mp hy
    exact (code_inv hx hp).of_runs ⟨hm, rfl, hok p hp⟩

/-- No block is pinned twice. -/
theorem Inv.once (hx : Inv x) : x.pins.Nodup ∧ x.pins ⊆ x.state.log.header := by
  have hstaged := hx.staged
  unfold Staged at hstaged
  unfold pins
  split <;> rename_i hstage <;> simp only [hstage] at hstaged
  case h_4 => exact hstaged.2
  case h_5 | h_6 => exact ⟨List.nodup_nil, List.nil_subset _⟩
  all_goals exact ⟨hx.nodup, List.Subset.refl _⟩

/-- The holders of a buffer are the threads that have its block. -/
theorem Inv.countP_held (hx : Inv x) {buf : Buffer} (hs : slot x.state b = some (i, buf)) :
    (x.marks.held.countP fun h ↦ h.2 = i) = if b ∈ x.holding then 1 else 0 := by
  have hsame : ∀ h ∈ x.marks.held, (decide (h.2 = i) = true ↔ (h.1 == b) = true) := by
    intro h hh
    obtain ⟨buf', hs'⟩ := hx.pointers h hh
    rw [decide_eq_true_eq, beq_iff_eq]
    constructor
    · rintro rfl
      exact hx.accounted.placed.unique hs hs'
    · intro hb
      rw [hb, hs] at hs'
      cases hs'
      rfl
  have hcount : (x.marks.held.map Prod.fst).count b = x.marks.held.countP (·.1 == b) := by
    rw [List.count, List.countP_map]
    rfl
  rw [List.countP_congr hsame, ← hcount, hx.distinct.count]
  exact if_congr (by rw [holding, List.mem_toFinset]) rfl rfl

/-- A block whose buffer is not locked is held by nobody. -/
theorem Inv.notMem_holding (hx : Inv x)
    (hfree : ∀ i buf, slot x.state b = some (i, buf) → buf.locked = false) : b ∉ x.holding := by
  cases hs : slot x.state b with
  | none => exact (hx.accounted.absent b hs).2
  | some v =>
    have hlocked := (hx.accounted.cached b v.1 v.2 hs).2.2
    rw [hfree v.1 v.2 hs] at hlocked
    exact of_decide_eq_false hlocked.symm

theorem Inv.sound (hx : Inv x) : Sound x where
  nodup := hx.nodup
  exact := hx.exact
  emptied hstage := by
    have hstaged := hx.staged
    unfold Staged at hstaged
    rw [hstage] at hstaged
    exact hstaged.1
  once := hx.once
  cached b hb := by
    cases hs : slot x.state b with
    | none =>
      obtain ⟨hp, hh⟩ := hx.accounted.absent b hs
      rcases hb with hb | hb
      · exact absurd (List.mem_toFinset.mpr hb) hp
      · exact absurd (mem_holding.mpr hb) hh
    | some v => exact ⟨v.1, v.2, rfl⟩
  counted b i buf hs := by
    obtain ⟨-, hr, -⟩ := hx.accounted.cached b i buf hs
    rw [hx.countP_held hs, hx.once.1.count, hr, users]
    simp only [List.mem_toFinset, holding]
    split <;> split <;> rfl
  returns hok hneeds hfree hstage := by
    have hround : ∃ p, x.round = some p := by
      unfold round
      split
      · next h => exact absurd h hstage
      all_goals exact ⟨_, rfl⟩
    obtain ⟨p, hp⟩ := hround
    have hensures := round_inv hx
      (fun _ : True ↦ ⟨hneeds, fun b hb ↦ hx.notMem_holding fun i buf ↦ hfree b i buf hb⟩) hp
    obtain ⟨m, t, hruns, -⟩ := hensures.runs trivial (hok p hp)
    have hstep : x.step .go = (p x.state).value.map fun m ↦ ⟨(p x.state).state, m⟩ := by
      unfold Session.step code
      rw [hp]
    rw [hstep, hruns.1]
    rfl

/-- Threads that have called nothing yet. -/
def begun (s : State) : Session := ⟨s, ⟨[], [], .idle⟩⟩

theorem Inv.begun {s : State} (hheader : s.log.header = [])
    (hempty : ∀ k, s.cache.bufferTable.lookup k = none) : Inv (begun s) := by
  have hpins : (Session.begun s).pins = [] := hheader
  refine ⟨?_, (fun _ h ↦ nomatch h), List.nodup_nil, ?_, fun b ↦ ?_, trivial⟩
  · rw [hpins]
    exact (calm_of_empty hempty).accounted
  · change s.log.header.Nodup
    rw [hheader]
    exact List.nodup_nil
  · change b ∈ s.log.header ↔ b ∈ []
    rw [hheader]

/-- In every run whose insertions find room, the log pins what it lists, once. -/
theorem sound_of_roomy {s : State} (hheader : s.log.header = [])
    (hempty : ∀ k, s.cache.bufferTable.lookup k = none) (h : Run step Roomy (begun s) x) : Sound x :=
  (h.invariant (Inv.begun hheader hempty) fun _ _ _ hs hok hu ↦ hs.step hok hu).sound

/-! ### The rounds are those of `commit` -/

section

variable {s : State} {held : List (UInt32 × Nat)} {logged : List UInt32} {m : Marks}
  {good : Call → State → Prop}

/-- Nothing but `commit` runs. -/
def Alone (_ : Session) (op : Op) : Prop := op = .commit ∨ op = .go

theorem alone {op : Op} (ha : x.Alone op) (hp : x.code op = some p)
    (hr : Runs good p x.state m t) : Run step Alone x ⟨t, m⟩ := by
  have hstep : x.step op = some ⟨t, m⟩ := by
    unfold step
    rw [hp]
    dsimp only
    rw [hr.1, hr.2.1]
    rfl
  exact .tail .refl ha hstep

theorem runs_pure (good : Call → State → Prop) (m : Marks) (s : State) :
    Runs good (pure m) s m s :=
  ⟨rfl, rfl, by simp [Met, pure, Traced.pure]⟩

theorem runs_then_pure {f : FsM Unit} (hr : Runs good f s () t) :
    Runs good (do
      f
      pure m) s m t :=
  runs_bind_iff.mpr ⟨(), t, hr, runs_pure good m t⟩

/-- The rounds of a loop of `commit`. -/
theorem loop_alone {f : UInt32 × Nat → FsM Unit} {at_ : List (UInt32 × Nat) → CommitStage}
    (hround : ∀ s e rest, round ⟨s, held, logged, at_ (e :: rest)⟩ = some do
      f e
      pure ⟨held, logged, at_ rest⟩) {entries : List (UInt32 × Nat)}
    (hr : Runs good (entries.forM f) s () t) :
    Run step Alone ⟨s, held, logged, at_ entries⟩ ⟨t, held, logged, at_ []⟩ := by
  induction entries generalizing s with
  | nil =>
    obtain ⟨-, rfl, -⟩ := hr
    exact .refl
  | cons e rest ih =>
    change Runs good (f e >>= fun _ ↦ rest.forM f) s () t at hr
    obtain ⟨_, u, he, hrest⟩ := runs_bind_iff.mp hr
    exact (alone (.inr rfl) (hround s e rest) (runs_then_pure he)).trans (ih hrest)

theorem runs_gets_bind {α β : Type} {g : State → α} {f : α → FsM β} {b : β}
    (hr : Runs good (gets g >>= f) s b t) : Runs good (f (g s)) s b t := hr

/-- A run of `commit` is a run of its rounds. -/
theorem commit_alone (hr : Runs good Log.commit s () t) :
    Run step Alone ⟨s, held, logged, .idle⟩ ⟨t, held, [], .idle⟩ := by
  have hbegin : Runs good (do
      let log ← gets fun s ↦ s.log
      if log.header.length > 0 then
        pure (⟨held, logged, .logging log log.header.zipIdx⟩ : Marks)
      else pure ⟨held, [], .idle⟩) s (if s.log.header.length > 0 then
      ⟨held, logged, .logging s.log s.log.header.zipIdx⟩ else ⟨held, [], .idle⟩) s := by
    refine runs_bind_iff.mpr ⟨s.log, s, ⟨rfl, rfl, by simp [Met, gets]⟩, ?_⟩
    split <;> exact runs_pure good _ s
  have hstart := alone (x := ⟨s, held, logged, .idle⟩) (.inl rfl) rfl hbegin
  have hr := runs_gets_bind hr
  split at hr
  · next hlen =>
    rw [if_pos hlen] at hstart
    refine hstart.trans ?_
    obtain ⟨_, u, hlogs, hr⟩ := runs_bind_iff.mp hr
    obtain ⟨_, v, hhead, hr⟩ := runs_bind_iff.mp hr
    obtain ⟨_, w, hinstall, hr⟩ := runs_bind_iff.mp hr
    obtain ⟨_, y, hclear, hunhead⟩ := runs_bind_iff.mp hr
    have hlogs := runs_gets_bind hlogs
    have hinstall := runs_gets_bind hinstall
    have hheading : Runs good (do
        Log.writeHead
        let log ← gets fun s ↦ s.log
        pure (⟨held, logged, .installing log log.header.zipIdx⟩ : Marks)) u
        ⟨held, logged, .installing v.log v.log.header.zipIdx⟩ v := by
      refine runs_bind_iff.mpr ⟨(), v, hhead, runs_bind_iff.mpr ⟨v.log, v, ?_, runs_pure good _ v⟩⟩
      exact ⟨rfl, rfl, by simp [Met, gets]⟩
    refine (loop_alone (fun _ _ _ ↦ rfl) hlogs).trans ?_
    refine (alone (.inr rfl) rfl (runs_pure good _ u)).trans ?_
    refine (alone (.inr rfl) rfl hheading).trans ?_
    refine (loop_alone (fun _ _ _ ↦ rfl) hinstall).trans ?_
    refine (alone (.inr rfl) rfl (runs_pure good _ w)).trans ?_
    refine (alone (.inr rfl) rfl (runs_then_pure hclear)).trans ?_
    exact alone (.inr rfl) rfl (runs_then_pure hunhead)
  · next hlen =>
    rw [if_neg hlen] at hstart
    obtain ⟨-, rfl, -⟩ := hr
    exact hstart

end

section Examples

instance (x : Session) (op : Op) : Decidable (x.Roomy op) :=
  match h : x.code op with
  | none => .isTrue fun _ hp ↦ by rw [h] at hp; cases hp
  | some p => decidable_of_iff (Met Room p x.state)
      ⟨fun hm q hq ↦ by rw [h] at hq; cases hq; exact hm, fun hr ↦ hr p h⟩

/-- An open transaction on an empty disk, with an empty table of `n` buckets. -/
def opened (n : Nat) : State :=
  { started (fun _ ↦ Block.zero) with
    log := ⟨2, 31, 1, false, 1, []⟩
    cache := ⟨Table.empty fun k ↦ k.toNat % n, fun _ ↦ Buffer.fresh 0 0, 0⟩ }

/-- A block that is logged twice. -/
def logTwice (b : UInt32) (i : Nat) : List Op :=
  [.get b, .writeLog (b, i), .writeLog (b, i), .release (b, i)]

def committed : List Op := logTwice 50 0 ++ logTwice 51 1 ++ [.commit] ++ .replicate 9 .go

theorem sound_after_committed : ∃ x, Run step Roomy (begun (opened 256)) x ∧
    x.state.log.header = [] ∧ Sound x := by
  have hrun : Run step Roomy (begun (opened 256)) (final step (begun (opened 256)) committed) :=
    run_final (by decide +kernel) (by decide +kernel)
  exact ⟨_, hrun, by decide +kernel, sound_of_roomy rfl (fun _ ↦ rfl) hrun⟩

/-- Three blocks of one bucket: the third one drops the second one, which the log has pinned. -/
def dropped : List Op :=
  [.get 44, .get 300, .writeLog (300, 1), .release (300, 1), .get 556, .release (44, 0),
    .release (556, 2), .commit] ++ .replicate 7 .go

/-- After the commit, the reference count of the block that was dropped has wrapped around. -/
theorem unsound_after_dropped :
    ∃ x, Run step (fun _ _ ↦ True) (begun (opened 256)) x ∧ ¬ Sound x := by
  have hrun : Run step (fun _ _ ↦ True) (begun (opened 256))
      (final step (begun (opened 256)) dropped) :=
    run_final (by decide +kernel) (by decide +kernel)
  refine ⟨_, hrun, fun h ↦ ?_⟩
  have hcounted : ∀ v ∈ slot (final step (begun (opened 256)) dropped).state 300,
      v.2.refCount.toNat =
        ((final step (begun (opened 256)) dropped).marks.held.countP fun h ↦ h.2 = v.1) +
          (final step (begun (opened 256)) dropped).pins.count 300 :=
    fun v hv ↦ h.counted 300 v.1 v.2 hv
  revert hcounted
  decide +kernel

end Examples

end Session

end Orfos.Fs
