import Orfos.Fs.Bitmap

/-!
# Operations

What is between `beginOp` and `endOp` while nobody else works on the file system reaches the disk as
a whole. A run of operations passes through contents of the disk, and wherever it is cut off,
recovery finds one of them.
-/

namespace Orfos.Fs

open Orfos.Base Orfos.Base.Traced Orfos.Lib

/-- Contents of the disk that differ at most in the log. -/
def SameHome (log : Log) (d d' : UInt32 → Block) : Prop :=
  ∀ b, ¬ InLog log.start log.size b → d' b = d b

/-- A disk from which recovery finds some of the contents `V`. -/
def Recovers (log : Log) (V : (UInt32 → Block) → Prop) (d : UInt32 → Block) : Prop :=
  ∃ P : Plan, P.start = log.start ∧ P.size = log.size ∧ V P.old ∧ V P.new ∧ P.Recoverable d

/-- The terms of runs that have to return and pass through the contents `V`. -/
def passing (log : Log) (V : (UInt32 → Block) → Prop) : Terms :=
  ⟨Room, Room.hasRoom, Recovers log V, True⟩

/-- Nobody works on the file system, and what was done is on the disk. -/
structure Resting (s : State) : Prop where
  calm : Calm s ∅ ∅
  header : s.log.header = []
  outstanding : s.log.outstanding = 0
  committing : s.log.committing = false
  disk : headerOf (s.disk s.log.start) = []
  room : MAX_OP_BLOCKS < s.log.size.toNat

section

variable {V : (UInt32 → Block) → Prop} {s t u : State} {log : Log} {d d' : UInt32 → Block}
  {b : UInt32}

theorem SameHome.refl (log : Log) (d : UInt32 → Block) : SameHome log d d := fun _ _ ↦ rfl

theorem Resting.view (h : Resting s) : view s = s.disk :=
  funext fun _ ↦ h.calm.view_eq_disk (by simp) (by simp)

/-- Nothing is logged in a state at rest. -/
theorem Resting.toOpen (h : Resting s) : Open s ∅ := by
  have hroom := h.room
  refine ⟨by rw [h.header]; exact h.calm, ?_, ?_, ?_, ?_⟩ <;> rw [h.header]
  · exact List.nodup_nil
  · exact Nat.zero_le _
  · exact Nat.zero_lt_of_lt hroom
  · exact fun b hb ↦ by cases hb

/-- A disk with an empty header has its contents. -/
theorem recovers_of_header (hd : headerOf (d log.start) = []) (hz : 0 < log.size.toNat) (hV : V d) :
    Recovers log V d :=
  ⟨⟨log.start, log.size, [], d, d, List.nodup_nil, Nat.zero_le _, hz, fun _ h ↦ (by cases h),
    fun _ _ _ ↦ rfl⟩, rfl, rfl, hV, hV, .inl ⟨hd, fun _ _ ↦ rfl⟩⟩

theorem Resting.recovers (h : Resting s) (hV : V s.disk) : Recovers s.log V s.disk :=
  recovers_of_header h.disk (Nat.zero_lt_of_lt h.room) hV

theorem Recovers.congr {log' : Log} (h : Recovers log V d) (hs : log'.start = log.start)
    (hz : log'.size = log.size) : Recovers log' V d := by
  obtain ⟨P, hstart, hsize, hrest⟩ := h
  exact ⟨P, hstart.trans hs.symm, hsize.trans hz.symm, hrest⟩

/-- `beginOp` in a state at rest leaves room for the blocks of one operation. -/
theorem beginOp_ensures {T : Terms} (h : Resting s) (hc : T.crash s.disk) :
    Ensures T.regime beginOp s fun _ t ↦
      t = { s with log := { s.log with outstanding := 1 } } ∧ Open t ∅ ∧
        t.log.RoomFor MAX_OP_BLOCKS := by
  refine ensures_assert_bind (fun _ ↦ h.committing) hc fun _ ↦ ?_
  refine ensures_assert_bind (fun _ ↦ ?_) hc fun _ ↦ ?_
  · rw [h.header, h.outstanding]
    decide
  · refine ensures_modify ⟨by rw [h.outstanding]; rfl, ?_, ?_, ?_, ?_⟩
    · obtain ⟨hcalm, hnodup, hfits, hroom, houtside⟩ := h.toOpen
      exact ⟨hcalm.congr rfl rfl, hnodup, hfits, hroom, houtside⟩
    · change s.log.header.length + _ ≤ _
      rw [h.header]
      decide
    · change s.log.header.length + _ < s.log.size.toNat
      have hroom := h.room
      rw [h.header, List.length_nil, Nat.zero_add]
      exact hroom
    · change 1 ≤ s.log.outstanding + 1
      rw [h.outstanding]
      decide

/-- `endOp` of the only operation puts what was done on the disk. -/
theorem endOp_ensures (h : Open s ∅) (hone : s.log.outstanding = 1)
    (hcommit : s.log.committing = false) (hd : headerOf (s.disk s.log.start) = [])
    (hroom : MAX_OP_BLOCKS < s.log.size.toNat) (hs : s.log.start = log.start)
    (hz : s.log.size = log.size) (hold : V s.disk) (hnew : V (view s)) :
    Ensures (passing log V).regime endOp s fun _ t ↦
      t = { s with
        cache := t.cache
        disk := t.disk
        log := { s.log with header := [], outstanding := 0 } } ∧
        Resting t ∧ SameHome s.log (view s) t.disk := by
  have hc : Recovers log V s.disk :=
    (recovers_of_header hd (Nat.zero_lt_of_lt hroom) hold).congr hs.symm hz.symm
  have hzero : s.log.outstanding - 1 = 0 := by
    rw [hone]
    rfl
  refine ensures_assert_bind (fun _ ↦ hcommit) hc fun _ ↦ ensures_modify_bind (ensures_gets_bind ?_)
  rw [if_pos hzero]
  refine ensures_modify_bind ?_
  set w : State := { s with log := { s.log with
    outstanding := s.log.outstanding - 1, committing := true } }
  have hw : Open w ∅ := ⟨h.calm.congr rfl rfl, h.nodup, h.fits, h.room, h.outside⟩
  have hview : view w = view s := view_congr rfl rfl rfl
  have hrec : ∀ d, hw.plan.Recoverable d → Recovers log V d := fun d hd ↦
    ⟨hw.plan, hs, hz, hold, by change V (view w); rwa [hview], hd⟩
  refine ensures_bind ((Plan.commit_ensures True (hw.ready hd)).weaken (fun _ _ h ↦ h)
    (fun t ↦ hrec t.disk) id) ?_
  rintro _ x ⟨hfx, hx, hcalm⟩
  have hlogx : x.log = { w.log with header := [] } := by rw [hfx]
  refine ensures_modify ⟨?_, ⟨hcalm.congr rfl rfl, ?_, ?_, rfl, ?_, ?_⟩, fun b hb ↦ ?_⟩
  · rw [hfx]
    simp only [w, hzero, hcommit]
  · change x.log.header = []
    rw [hlogx]
  · change x.log.outstanding = 0
    rw [hlogx]
    exact hzero
  · change headerOf (x.disk x.log.start) = []
    rw [hlogx]
    exact hx.1
  · change _ < x.log.size.toNat
    rw [hlogx]
    exact hroom
  · exact (hx.2 b hb).trans (congrFun hview b)

end
end Orfos.Fs
