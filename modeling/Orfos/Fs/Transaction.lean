import Orfos.Fs.Recovery

/-!
# Transactions

Between `beginOp` and the commit in `endOp` the pinned blocks are the ones in the header,
and the disk stays as it was. Functions of `kernel/fs` change a block the same way each
time: `get`, `read`, a change of the bytes, `writeLog`, `release`. A whole transaction is
crash atomic.
-/

namespace Orfos.Fs

open Orfos.Base Orfos.Base.Traced Orfos.Lib

/-- A state inside a transaction: the header lists the pinned blocks, each a home block. -/
structure Open (s : State) (held : Finset UInt32) : Prop where
  calm : Calm s s.log.header.toFinset held
  nodup : s.log.header.Nodup
  fits : s.log.header.length ≤ LOG_SIZE
  room : s.log.header.length < s.log.size.toNat
  outside : ∀ b ∈ s.log.header, ¬ InLog s.log.start s.log.size b

/-- From `s` to `t` only the cache and the header have changed, and in the cache at most the
slot of one block. -/
structure Moves (s t : State) (b : UInt32) : Prop where
  frame : t = { s with cache := t.cache, log := { s.log with header := t.log.header } }
  others : ∀ c, c ≠ b → slot t c = slot s c

section

variable {s t u : State} {b : UInt32}

theorem Local.toMoves (h : Local s t b) : Moves s t b :=
  ⟨by rw [h.frame], h.others⟩

theorem Moves.trans (h : Moves s t b) (h' : Moves t u b) : Moves s u b := by
  refine ⟨?_, fun c hc ↦ (h'.others c hc).trans (h.others c hc)⟩
  rw [h'.frame, h.frame]

/-- A block that is neither logged nor held is as on the disk. -/
theorem Open.view_eq_disk {held : Finset UInt32} (h : Open s held) (hb : b ∉ s.log.header)
    (hh : b ∉ held) : view s b = s.disk b :=
  h.calm.view_eq_disk (by simpa using hb) hh

/-- The held blocks of an open state may change with the cache. -/
theorem Open.of_local {held held' : Finset UInt32} (h : Open s held) (hl : Local s t b)
    (hc : Calm t s.log.header.toFinset held') : Open t held' := by
  have hlog : t.log = s.log := by rw [hl.frame]
  refine ⟨?_, ?_, ?_, ?_, ?_⟩
  · rwa [hlog]
  · rw [hlog]; exact h.nodup
  · rw [hlog]; exact h.fits
  · rw [hlog]; exact h.room
  · rw [hlog]; exact h.outside

theorem Open.congr {held : Finset UInt32} (h : Open s held) (hc : t.cache = s.cache)
    (hl : t.log = s.log) : Open t held := by
  refine ⟨?_, ?_, ?_, ?_, ?_⟩
  · rw [hl]; exact h.calm.congr hc (by rw [hl])
  · rw [hl]; exact h.nodup
  · rw [hl]; exact h.fits
  · rw [hl]; exact h.room
  · rw [hl]; exact h.outside

/-- The log after a block is put into its header. -/
def Log.logged (log : Log) (b : UInt32) : Log :=
  if b ∈ log.header then log else { log with header := log.header ++ [b] }

/-- The assertions of `writeLog` on the length of the header. -/
def Log.HasRoom (log : Log) : Prop :=
  log.header.length < LOG_SIZE ∧ log.header.length < (log.size - 1).toNat

/-- The assertions of `writeLog`. -/
def Log.Ready (log : Log) : Prop :=
  log.HasRoom ∧ 1 ≤ log.outstanding

instance (log : Log) : Decidable log.Ready :=
  inferInstanceAs (Decidable ((_ ∧ _) ∧ _))

/-- Programs that have to return may rely on the assertions of `writeLog`. -/
def Terms.Logs (T : Terms) : Prop :=
  T.total → ∀ b t, T.good (.writeLog b) t → t.log.Ready

/-- As `Terms.Logs`, for calls with this log. -/
def Terms.LogsAt (T : Terms) (log : Log) : Prop :=
  T.total → ∀ b t, t.log = log → T.good (.writeLog b) t → log.Ready

/-- `n` more blocks may be logged. -/
structure Log.RoomFor (log : Log) (n : Nat) : Prop where
  fits : log.header.length + n ≤ LOG_SIZE
  room : log.header.length + n < log.size.toNat
  begun : 1 ≤ log.outstanding

theorem Terms.Logs.toLogsAt {T : Terms} (h : T.Logs) (log : Log) : T.LogsAt log := by
  rintro ht b t rfl
  exact h ht b t

theorem Log.RoomFor.ready {log : Log} {n : Nat} (h : log.RoomFor (n + 1)) : log.Ready := by
  have hroom := h.room
  have h1 : (1 : UInt64) ≤ log.size := by
    rw [UInt64.le_iff_toNat_le]
    change 1 ≤ _
    omega
  refine ⟨⟨?_, ?_⟩, h.begun⟩
  · have hfits := h.fits
    omega
  · rw [UInt64.toNat_sub_of_le _ _ h1]
    change _ < _ - 1
    omega

theorem Log.RoomFor.logged {log : Log} {n : Nat} (h : log.RoomFor (n + 1)) (b : UInt32) :
    (log.logged b).RoomFor n := by
  obtain ⟨hfits, hroom, hbegun⟩ := h
  unfold Log.logged
  split
  · exact ⟨by omega, by omega, hbegun⟩
  · refine ⟨?_, ?_, hbegun⟩
    all_goals
      simp only [List.length_append, List.length_singleton]
      omega

theorem Log.RoomFor.mono {log : Log} {m n : Nat} (h : log.RoomFor n) (hm : m ≤ n) :
    log.RoomFor m :=
  ⟨by have := h.fits; omega, by have := h.room; omega, h.begun⟩

theorem Log.RoomFor.logsAt {T : Terms} {log : Log} (n : Nat)
    (h : T.total → log.RoomFor (n + 1)) : T.LogsAt log :=
  fun ht _ _ _ _ ↦ (h ht).ready

theorem Log.mem_logged (log : Log) (b : UInt32) : b ∈ (log.logged b).header := by
  unfold logged
  split
  · assumption
  · exact List.mem_append_right _ (List.mem_singleton_self b)

theorem Log.length_logged_le (log : Log) (b : UInt32) :
    (log.logged b).header.length ≤ log.header.length + 1 := by
  unfold logged
  split
  · exact Nat.le_succ _
  · simp

theorem Log.logged_frame (log : Log) (b : UInt32) :
    log.logged b = { log with header := (log.logged b).header } := by
  unfold logged
  split <;> rfl

theorem Log.toFinset_logged (log : Log) {b : UInt32} (hb : b ∉ log.header) :
    (log.logged b).header.toFinset = insert b log.header.toFinset := by
  rw [logged, if_neg hb]
  ext c
  rw [Finset.mem_insert, List.mem_toFinset, List.mem_toFinset, List.mem_append,
    List.mem_singleton]
  exact or_comm

/-- What an open state says about its log. -/
structure Log.Lists (log : Log) : Prop where
  nodup : log.header.Nodup
  fits : log.header.length ≤ LOG_SIZE
  room : log.header.length < log.size.toNat
  outside : ∀ b ∈ log.header, ¬ InLog log.start log.size b

theorem Open.lists {held : Finset UInt32} (h : Open s held) : s.log.Lists :=
  ⟨h.nodup, h.fits, h.room, h.outside⟩

theorem Log.Lists.toOpen {held : Finset UInt32} (h : s.log.Lists)
    (hc : Calm s s.log.header.toFinset held) : Open s held :=
  ⟨hc, h.nodup, h.fits, h.room, h.outside⟩

/-- A home block may be added to the header as long as the assertions of `writeLog` hold. -/
theorem Log.Lists.logged {log : Log} (h : log.Lists) (hr : log.HasRoom)
    (ho : ¬ InLog log.start log.size b) : (log.logged b).Lists := by
  unfold Log.logged
  split
  · exact h
  · next hn =>
    refine ⟨?_, ?_, ?_, ?_⟩
    · refine List.nodup_append.mpr ⟨h.nodup, List.nodup_singleton b, ?_⟩
      rintro c hc' d hd rfl
      exact hn (List.mem_singleton.mp hd ▸ hc')
    · rw [List.length_append]
      exact hr.1
    · have hsize := hr.2
      have hroom := h.room
      have h1 : (1 : UInt64) ≤ log.size := by
        rw [UInt64.le_iff_toNat_le]
        exact Nat.succ_le_of_lt (Nat.zero_lt_of_lt hroom)
      rw [UInt64.toNat_sub_of_le _ _ h1] at hsize
      have h1' : (1 : UInt64).toNat = 1 := rfl
      simp only [List.length_append, List.length_singleton]
      omega
    · intro c hc'
      rcases List.mem_append.mp hc' with hc' | hc'
      · exact h.outside c hc'
      · rw [List.mem_singleton.mp hc']
        exact ho

end

section

variable {T : Terms} {s : State} {b : UInt32} {i : Nat} {held : Finset UInt32}

/-- `writeLog(Buffer*)` pins a held block and puts it into the header. -/
theorem writeLog_ensures (hT : T.LogsAt s.log) (h : Calm s s.log.header.toFinset held)
    (hc : T.crash s.disk) (hb : b ∈ held) (hi : Ptr s i b) :
    Ensures T.regime (writeLog i) s fun _ t ↦
      Moves s t b ∧ Ptr t i b ∧ t.log = s.log.logged b ∧ s.log.HasRoom ∧
        Calm t t.log.header.toFinset held ∧ view t = view s := by
  unfold writeLog
  refine ensures_gets_bind (ensures_call_bind hc fun hgood ↦ ?_)
  refine ensures_assert_bind (fun ht ↦ (hT ht _ _ rfl hgood).1.1) hc fun hlen ↦ ?_
  refine ensures_assert_bind (fun ht ↦ (hT ht _ _ rfl hgood).1.2) hc fun hsize ↦ ?_
  refine ensures_assert_bind (fun ht ↦ (hT ht _ _ rfl hgood).2) hc fun _ ↦ ?_
  refine ensures_gets_bind ?_
  rw [hi.block h.placed]
  split
  · next hn =>
    refine ensures_bind (pin_view_ensures h hb (by simpa using hn) hi) ?_
    rintro _ t ⟨hlt, hit, ht, hvt⟩
    have hlog : t.log = s.log := by rw [hlt.frame]
    have hlogged : { t.log with header := s.log.header ++ [b] } = s.log.logged b := by
      rw [Log.logged, if_neg hn, hlog]
    refine ensures_modify ⟨⟨?_, ?_⟩, hit.congr rfl rfl, hlogged, ⟨hlen, hsize⟩, ?_, ?_⟩
    · rw [hlt.frame]
    · intro c hcb
      exact (congrFun (slot_congr rfl rfl) c).trans (hlt.others c hcb)
    · have hpins := Log.toFinset_logged s.log hn
      rw [← hlogged] at hpins
      dsimp only at hpins ⊢
      rw [hpins]
      exact ht.congr rfl rfl
    · rw [← hvt]
      exact view_congr rfl rfl rfl
  · next hm =>
    have hmem : b ∈ s.log.header := by simpa using hm
    have hlogged : s.log = s.log.logged b := by rw [Log.logged, if_pos hmem]
    exact ensures_pure ⟨⟨rfl, fun _ _ ↦ rfl⟩, hi, hlogged, ⟨hlen, hsize⟩, h, rfl⟩

/-- A held block changed, logged and released. -/
theorem store_log_ready (hT : T.LogsAt s.log) (h : Calm s s.log.header.toFinset held)
    (hc : T.crash s.disk) (hb : b ∈ held) (hi : Ptr s i b) (f : Block → Block) :
    Ensures T.regime (do
      modify fun s ↦ s.setBuffer i fun x ↦ { x with data := f x.data }
      writeLog i
      BufferCache.release i) s fun _ t ↦
        Moves s t b ∧ t.log = s.log.logged b ∧ s.log.HasRoom ∧
          Calm t t.log.header.toFinset (held.erase b) ∧
            view t = Function.update (view s) b (f (view s b)) := by
  refine ensures_bind (store_ensures h hb hi f) ?_
  rintro _ t ⟨hlt, hit, ht, hvt⟩
  have hlog : t.log = s.log := by rw [hlt.frame]
  have hdt : t.disk = s.disk := by rw [hlt.frame]
  refine ensures_bind (writeLog_ensures (by rwa [hlog]) (by rwa [hlog]) (T.crash_of_eq hc hdt) hb
    hit) ?_
  rintro _ u ⟨hmu, hiu, hlu, hroom, hu, hvu⟩
  have hdu : u.disk = s.disk := by rw [hmu.frame, hdt]
  have hbu : b ∈ u.log.header := hlu ▸ Log.mem_logged _ b
  refine (release_clean_ensures hu (T.crash_of_eq hc hdu) hb hiu
    (.inl (by simpa using hbu))).imp ?_
  rintro _ w ⟨hlw, hw, hvw⟩
  have hlogw : w.log = u.log := by rw [hlw.frame]
  refine ⟨(hlt.toMoves.trans hmu).trans hlw.toMoves, ?_, ?_, ?_, ?_⟩
  · rw [hlogw, hlu, hlog]
  · rwa [← hlog]
  · rwa [hlogw]
  · rw [hvw, hvu, hvt]

/-- As `store_log_ready`, where the calls promise the assertions of `writeLog`. -/
theorem store_log_ensures (hT : T.Logs) (h : Calm s s.log.header.toFinset held)
    (hc : T.crash s.disk) (hb : b ∈ held) (hi : Ptr s i b) (f : Block → Block) :
    Ensures T.regime (do
      modify fun s ↦ s.setBuffer i fun x ↦ { x with data := f x.data }
      writeLog i
      BufferCache.release i) s fun _ t ↦
        Moves s t b ∧ t.log = s.log.logged b ∧ s.log.HasRoom ∧
          Calm t t.log.header.toFinset (held.erase b) ∧
            view t = Function.update (view s) b (f (view s b)) :=
  store_log_ready (hT.toLogsAt _) h hc hb hi f

/-- A held home block changed, logged and released. -/
theorem change_ensures (hT : T.Logs) (h : Open s held) (hc : T.crash s.disk) (hb : b ∈ held)
    (hi : Ptr s i b) (ho : ¬ InLog s.log.start s.log.size b) (f : Block → Block) :
    Ensures T.regime (do
      modify fun s ↦ s.setBuffer i fun x ↦ { x with data := f x.data }
      writeLog i
      BufferCache.release i) s fun _ t ↦
        Moves s t b ∧ Open t (held.erase b) ∧
          view t = Function.update (view s) b (f (view s b)) := by
  refine (store_log_ensures hT h.calm hc hb hi f).imp ?_
  rintro _ t ⟨hm, hlog, hroom, ht, hv⟩
  have hlists : t.log.Lists := hlog ▸ h.lists.logged hroom ho
  exact ⟨hm, hlists.toOpen ht, hv⟩

/-- A held block changed, logged and released in front of other code. -/
theorem store_log_then_ready {β : Type} {rest : FsM β} {Q : β → State → Prop} (hT : T.LogsAt s.log)
    (h : Calm s s.log.header.toFinset held) (hc : T.crash s.disk) (hb : b ∈ held)
    (hi : Ptr s i b) (f : Block → Block)
    (hk : ∀ t, Moves s t b → t.log = s.log.logged b → s.log.HasRoom →
      Calm t t.log.header.toFinset (held.erase b) →
      view t = Function.update (view s) b (f (view s b)) → Ensures T.regime rest t Q) :
    Ensures T.regime (do
      modify fun s ↦ s.setBuffer i fun x ↦ { x with data := f x.data }
      writeLog i
      BufferCache.release i
      rest) s Q := by
  have hcode : (do
      modify fun s ↦ s.setBuffer i fun x ↦ { x with data := f x.data }
      writeLog i
      BufferCache.release i
      rest) = (do
        modify fun s ↦ s.setBuffer i fun x ↦ { x with data := f x.data }
        writeLog i
        BufferCache.release i) >>= fun _ ↦ rest := by
    simp only [Traced.bind_assoc]
  rw [hcode]
  refine ensures_bind (store_log_ready hT h hc hb hi f) ?_
  rintro _ t ⟨hm, hlog, hroom, ht, hv⟩
  exact hk t hm hlog hroom ht hv

/-- As `store_log_then_ready`, where the calls promise the assertions of `writeLog`. -/
theorem store_log_then_ensures {β : Type} {rest : FsM β} {Q : β → State → Prop} (hT : T.Logs)
    (h : Calm s s.log.header.toFinset held) (hc : T.crash s.disk) (hb : b ∈ held)
    (hi : Ptr s i b) (f : Block → Block)
    (hk : ∀ t, Moves s t b → t.log = s.log.logged b → s.log.HasRoom →
      Calm t t.log.header.toFinset (held.erase b) →
      view t = Function.update (view s) b (f (view s b)) → Ensures T.regime rest t Q) :
    Ensures T.regime (do
      modify fun s ↦ s.setBuffer i fun x ↦ { x with data := f x.data }
      writeLog i
      BufferCache.release i
      rest) s Q :=
  store_log_then_ready (hT.toLogsAt _) h hc hb hi f hk

/-- A held home block changed, logged and released in front of other code. -/
theorem change_then_ensures {β : Type} {rest : FsM β} {Q : β → State → Prop} (hT : T.Logs)
    (h : Open s held) (hc : T.crash s.disk) (hb : b ∈ held) (hi : Ptr s i b)
    (ho : ¬ InLog s.log.start s.log.size b) (f : Block → Block)
    (hk : ∀ t, Moves s t b → Open t (held.erase b) →
      view t = Function.update (view s) b (f (view s b)) → Ensures T.regime rest t Q) :
    Ensures T.regime (do
      modify fun s ↦ s.setBuffer i fun x ↦ { x with data := f x.data }
      writeLog i
      BufferCache.release i
      rest) s Q := by
  refine store_log_then_ensures hT h.calm hc hb hi f fun t hm hlog hroom ht hv ↦ ?_
  have hlists : t.log.Lists := hlog ▸ h.lists.logged hroom ho
  exact hk t hm (hlists.toOpen ht) hv

end

/-- A block changed the way the functions of `kernel/fs` do it. -/
def modifyBlock (device : UInt32) (change : UInt32 × (Block → Block)) : FsM Unit := do
  let bp ← BufferCache.get device change.1
  Buffer.read bp
  modify fun s ↦ s.setBuffer bp fun x ↦ { x with data := change.2 x.data }
  writeLog bp
  BufferCache.release bp

/-- A transaction that changes some blocks. -/
def transaction (device : UInt32) (changes : List (UInt32 × (Block → Block))) : FsM Unit := do
  beginOp
  changes.forM (modifyBlock device)
  endOp

/-- The contents after some changes. -/
def applyChanges (d : UInt32 → Block) (changes : List (UInt32 × (Block → Block))) :
    UInt32 → Block :=
  changes.foldl (fun d c ↦ Function.update d c.1 (c.2 (d c.1))) d

/-- Nothing is cached, logged or in progress, and the header on the disk is empty. -/
structure Quiet (s : State) : Prop where
  empty : ∀ k, s.cache.bufferTable.lookup k = none
  header : s.log.header = []
  outstanding : s.log.outstanding = 0
  committing : s.log.committing = false
  disk : headerOf (s.disk s.log.start) = []

/-- The memory after a restart: the cache is empty and the log is where it was. -/
structure Restarted (log : Log) (r : State) : Prop where
  empty : ∀ k, r.cache.bufferTable.lookup k = none
  start : r.log.start = log.start
  size : r.log.size = log.size
  device : r.log.device = log.device

/-- The disks that recoveries leave which are cut off one after the other. -/
inductive Interrupted (log : Log) : (UInt32 → Block) → (UInt32 → Block) → Prop where
  | none (d : UInt32 → Block) : Interrupted log d d
  | again {d : UInt32 → Block} {r t : State} (before : Interrupted log d r.disk)
      (restarted : Restarted log r) (room : Met Room Log.recover r)
      (cut : Cut Log.recover r t) : Interrupted log d t.disk

section

variable {T : Terms} {s : State}

/-- `modifyBlock` changes the content of its block. -/
theorem modifyBlock_ensures (hT : T.Logs) (h : Open s ∅) (hc : T.crash s.disk)
    {c : UInt32 × (Block → Block)} (ho : ¬ InLog s.log.start s.log.size c.1) :
    Ensures T.regime (modifyBlock s.log.device c) s fun _ t ↦
      Moves s t c.1 ∧ Open t ∅ ∧ view t = applyChanges (view s) [c] := by
  refine hold_ensures h.calm hc (by simp) ?_
  intro i t _ hlt hi ht hv
  have hlog : t.log = s.log := by rw [hlt.frame]
  have hdt : t.disk = s.disk := by rw [hlt.frame]
  refine (change_ensures hT (h.of_local hlt ht) (T.crash_of_eq hc hdt) (by simp) hi
    (by rwa [hlog]) c.2).imp ?_
  rintro _ u ⟨hmu, hu, hvu⟩
  refine ⟨hlt.toMoves.trans hmu, by simpa using hu, ?_⟩
  rw [hvu, hv]
  rfl

/-- An empty cache is calm. -/
theorem calm_of_empty (h : ∀ k, s.cache.bufferTable.lookup k = none) : Calm s ∅ ∅ := by
  have hs : ∀ b, slot s b = none := fun b ↦ slot_eq_none_iff.mpr (h _)
  refine ⟨?_, ?_, ?_⟩
  · intro b i buf hb
    rw [hs] at hb
    cases hb
  · intro b i buf hb
    rw [hs] at hb
    cases hb
  · intro b _
    simp

/-- The transaction that an open state is ready to commit. -/
def Open.plan (h : Open s ∅) : Plan where
  start := s.log.start
  size := s.log.size
  header := s.log.header
  old := s.disk
  new := view s
  nodup := h.nodup
  fits := h.fits
  room := h.room
  outside := h.outside
  same _ _ hb := h.view_eq_disk hb (by simp)

theorem Open.ready (h : Open s ∅) (hd : headerOf (s.disk s.log.start) = []) :
    Plan.Ready h.plan s :=
  ⟨rfl, rfl, h.calm, fun _ _ ↦ rfl, hd, fun _ _ ↦ rfl⟩

end

section

variable {s : State} {changes : List (UInt32 × (Block → Block))}

/-- The disk is recoverable for a transaction from the old contents to themselves or to the
new ones. -/
private def OldOrNew (log : Log) (old new d : UInt32 → Block) : Prop :=
  ∃ P : Plan, P.start = log.start ∧ P.size = log.size ∧ P.old = old ∧
    (P.new = old ∨ P.new = new) ∧ P.Recoverable d

/-- The invariant of a transaction, with the changes still to be made. -/
private structure Changing (s : State) (new : UInt32 → Block)
    (rest : List (UInt32 × (Block → Block))) (t : State) : Prop where
  frame : t = { s with
    cache := t.cache, log := { s.log with header := t.log.header, outstanding := 1 } }
  inside : Open t ∅
  home : ∀ c ∈ rest, ¬ InLog s.log.start s.log.size c.1
  view : applyChanges (view t) rest = new

private def changeTerms (log : Log) (old new : UInt32 → Block) : Terms :=
  ⟨Room, Room.hasRoom, OldOrNew log old new, False⟩

/-- Before anything is written, the disk has the old contents. -/
private theorem oldOrNew_of_quiet (hd : headerOf (s.disk s.log.start) = [])
    (hz : 0 < s.log.size.toNat) (new : UInt32 → Block) : OldOrNew s.log s.disk new s.disk :=
  ⟨⟨s.log.start, s.log.size, [], s.disk, s.disk, List.nodup_nil, Nat.zero_le _, hz,
    fun _ h ↦ (by cases h), fun _ _ _ ↦ rfl⟩, rfl, rfl, rfl, .inl rfl, .inl ⟨hd, fun _ _ ↦ rfl⟩⟩

private theorem changing_step {new : UInt32 → Block} {c : UInt32 × (Block → Block)}
    {rest : List (UInt32 × (Block → Block))} {t : State}
    (hc : OldOrNew s.log s.disk new s.disk) (h : Changing s new (c :: rest) t) :
    Ensures (changeTerms s.log s.disk new).regime (modifyBlock s.log.device c) t fun _ ↦
      Changing s new rest := by
  have hdev : s.log.device = t.log.device := by rw [h.frame]
  have hdt : t.disk = s.disk := by rw [h.frame]
  have ho' : ¬ InLog t.log.start t.log.size c.1 := by
    rw [h.frame]
    exact h.home c (by simp)
  rw [hdev]
  refine (modifyBlock_ensures (T := changeTerms s.log s.disk new) False.elim h.inside
    (Terms.crash_of_eq hc hdt) ho').imp ?_
  rintro _ u ⟨hmu, hu, hvu⟩
  refine ⟨by rw [hmu.frame, h.frame], hu, fun d hd ↦ h.home d (by simp [hd]), ?_⟩
  rw [hvu]
  exact h.view

/-- Every disk on which a transaction may be cut off is recoverable. -/
private theorem transaction_ensures (hq : Quiet s) (hz : 0 < s.log.size.toNat)
    (ho : ∀ c ∈ changes, ¬ InLog s.log.start s.log.size c.1) :
    Ensures (changeTerms s.log s.disk (applyChanges s.disk changes)).regime
      (transaction s.log.device changes) s fun _ t ↦
        OldOrNew s.log s.disk (applyChanges s.disk changes) t.disk := by
  set new := applyChanges s.disk changes
  have hc : OldOrNew s.log s.disk new s.disk := oldOrNew_of_quiet hq.disk hz new
  have hcalm := calm_of_empty hq.empty
  have hview : view s = s.disk := funext fun b ↦ hcalm.view_eq_disk (by simp) (by simp)
  refine ensures_bind (P := fun _ ↦ Changing s new changes) ?_ fun _ t ht ↦ ?_
  · -- `beginOp`
    refine ensures_assert_bind False.elim hc fun _ ↦ ensures_assert_bind False.elim hc fun _ ↦ ?_
    refine ensures_modify ⟨by simp [hq.outstanding], ?_, ho, ?_⟩
    · refine ⟨?_, ?_, ?_, ?_, ?_⟩ <;> simp only [hq.header]
      · exact hcalm.congr rfl rfl
      · exact List.nodup_nil
      · simp
      · exact hz
      · simp
    · exact congrArg (applyChanges · changes) ((view_congr rfl rfl rfl).trans hview)
  refine ensures_bind (ensures_forM ht fun _ _ _ ↦ changing_step hc) fun _ u hu ↦ ?_
  -- `endOp`: the one outstanding operation ends, so the header is committed
  have hdu : u.disk = s.disk := by rw [hu.frame]
  have hcu : OldOrNew s.log s.disk new u.disk := by rwa [hdu]
  have hout : u.log.outstanding - 1 = 0 := by
    rw [hu.frame]
    rfl
  refine ensures_assert_bind False.elim hcu fun _ ↦ ensures_modify_bind (ensures_gets_bind ?_)
  rw [if_pos hout]
  refine ensures_modify_bind ?_
  set w : State := { u with log := { u.log with
    outstanding := u.log.outstanding - 1, committing := true } }
  have hw : Open w ∅ := ⟨hu.inside.calm.congr rfl rfl, hu.inside.nodup, hu.inside.fits,
    hu.inside.room, hu.inside.outside⟩
  have hready := hw.ready (by
    change headerOf (u.disk u.log.start) = []
    rw [hu.frame]
    exact hq.disk)
  have hrec : ∀ d, hw.plan.Recoverable d → OldOrNew s.log s.disk new d := by
    refine fun d hd ↦ ⟨hw.plan, ?_, ?_, hdu, .inr ?_, hd⟩
    · change u.log.start = _
      rw [hu.frame]
    · change u.log.size = _
      rw [hu.frame]
    · exact (view_congr (s := u) (t := w) rfl rfl rfl).trans hu.view
  refine ensures_bind ((Plan.commit_ensures False hready).weaken (fun _ _ h ↦ h)
    (fun t ↦ hrec t.disk) id) ?_
  rintro _ x ⟨-, hx, -⟩
  exact ensures_modify (hrec _ (.inr (.inr hx)))

/-- A recovery that is cut off, or complete, keeps the disk recoverable. -/
private theorem oldOrNew_of_interrupted {log : Log} {old new d d' : UInt32 → Block}
    (h : Interrupted log d d') (hd : OldOrNew log old new d) : OldOrNew log old new d' := by
  induction h with
  | none => exact hd
  | again _ hr hg hcut ih =>
    obtain ⟨P, hs, hz, ho, hn, hrec⟩ := ih
    have hens := Plan.recover_ensures False (calm_of_empty hr.empty)
      (hr.start.trans hs.symm) hrec
    refine ⟨P, hs, hz, ho, hn, hens.cut hg (fun _ t ht ↦ ?_) hcut⟩
    exact ht.1.imp id .inr

/-- **Crash atomicity.** A transaction is cut off anywhere, and so is any number of
recoveries after it. A further recovery returns with an empty header, and outside the log
area either every block is as before the transaction or every block is as the transaction
left it in the cache. -/
theorem crash_atomic (changes : List (UInt32 × (Block → Block))) (hq : Quiet s)
    (hn : (changes.map Prod.fst).dedup.length < s.log.size.toNat)
    (ho : ∀ c ∈ changes, ¬ InLog s.log.start s.log.size c.1)
    (hg : Met Room (transaction s.log.device changes) s) {t r : State}
    (hcut : Cut (transaction s.log.device changes) s t)
    (hint : Interrupted s.log t.disk r.disk) (hr : Restarted s.log r)
    (hgr : Met Room Log.recover r) :
    ∃ r', Runs Room Log.recover r () r' ∧ r'.log.header = [] ∧
      headerOf (r'.disk s.log.start) = [] ∧
      ((∀ b, ¬ InLog s.log.start s.log.size b → r'.disk b = s.disk b) ∨
        (∀ b, ¬ InLog s.log.start s.log.size b → r'.disk b = applyChanges s.disk changes b)) := by
  have ht : OldOrNew s.log s.disk (applyChanges s.disk changes) t.disk :=
    (transaction_ensures hq (Nat.zero_lt_of_lt hn) ho).cut hg (fun _ _ h ↦ h) hcut
  obtain ⟨P, hs, hz, hold, hnew, hrec⟩ := oldOrNew_of_interrupted hint ht
  obtain ⟨⟨⟩, r', hrun, hset, hhead⟩ := (Plan.recover_ensures True
    (calm_of_empty hr.empty) (hr.start.trans hs.symm) hrec).runs trivial hgr
  rw [← hs, ← hz]
  refine ⟨r', hrun, hhead, ?_, ?_⟩
  · rcases hset with h | h <;> exact h.1
  · rcases hset with h | h
    · exact .inl (hold ▸ h.2)
    · rcases hnew with hnew | hnew
      · exact .inl (hnew ▸ h.2)
      · exact .inr (hnew ▸ h.2)

end

instance (c : Call) (s : State) : Decidable (Room c s) :=
  match c with
  | .get d b => inferInstanceAs (Decidable (s.cache.bufferTable.HasRoom (key d b)))
  | .diskWrite _ => isTrue trivial
  | .writeLog _ => isTrue trivial
  | .unlock _ => isTrue trivial

/-- A machine that has just started, with a log of 31 blocks from block 2. -/
def started (disk : UInt32 → Block) : State where
  disk := disk
  cache := ⟨Table.empty UInt64.toNat, fun _ ↦ Buffer.fresh 0 0, 0⟩
  log := ⟨2, 31, 0, false, 1, []⟩
  superBlock := ⟨2000, 200, 31, 2, 33, 46⟩
  itable := ⟨Table.empty UInt64.toNat,
    fun _ ↦ ⟨0, 0, 0, false, false, ⟨0, 0, 0, 0, 0, fun _ ↦ 0, 0⟩⟩, 0⟩
  cwd := 0
  user _ := none
  kernel _ := 0
  overrun := false

private abbrev twoChanges : List (UInt32 × (Block → Block)) :=
  [(50, fun _ _ ↦ 1), (51, fun _ _ ↦ 2)]

/-- A commit of two blocks on an empty disk, and a recovery after it. -/
theorem crash_atomic_two_blocks :
    ∃ r', Runs Room Log.recover
        (started (transaction 1 twoChanges (started fun _ ↦ Block.zero)).state.disk) () r' ∧
      r'.log.header = [] ∧ headerOf (r'.disk 2) = [] ∧
      ((∀ b, ¬ InLog 2 31 b → r'.disk b = Block.zero) ∨
        (∀ b, ¬ InLog 2 31 b →
          r'.disk b = applyChanges (fun _ ↦ Block.zero) twoChanges b)) := by
  have hout : ∀ c ∈ twoChanges, ¬ InLog 2 31 c.1 := by
    rintro c hc ⟨i, hi, hci⟩
    have hi' : i < 31 := hi
    have hcn : c.1.toNat = (2 + UInt32.ofNat i : UInt32).toNat := congrArg UInt32.toNat hci
    rw [UInt32.toNat_add, UInt32.toNat_ofNat'] at hcn
    simp only [twoChanges, List.mem_cons, List.not_mem_nil, or_false] at hc
    have h2 : (2 : UInt32).toNat = 2 := rfl
    rcases hc with rfl | rfl
    · have h50 : (50 : UInt32).toNat = 50 := rfl
      simp only [h50] at hcn
      omega
    · have h51 : (51 : UInt32).toNat = 51 := rfl
      simp only [h51] at hcn
      omega
  have hint : Interrupted (started fun _ ↦ Block.zero).log
      (transaction 1 twoChanges (started fun _ ↦ Block.zero)).state.disk
      (started (transaction 1 twoChanges (started fun _ ↦ Block.zero)).state.disk).disk := .none _
  exact crash_atomic twoChanges (s := started fun _ ↦ Block.zero)
    (t := (transaction 1 twoChanges (started fun _ ↦ Block.zero)).state)
    (r := started (transaction 1 twoChanges (started fun _ ↦ Block.zero)).state.disk)
    ⟨fun _ ↦ rfl, rfl, rfl, rfl, by decide +kernel⟩ (by decide) hout (by decide +kernel)
    (.inr rfl) hint ⟨fun _ ↦ rfl, rfl, rfl, rfl⟩ (by decide +kernel)

end Orfos.Fs
