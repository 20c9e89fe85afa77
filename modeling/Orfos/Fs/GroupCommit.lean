import Mathlib.Data.Finset.Card
import Orfos.Base.Guarded
import Orfos.Fs.State

/-!
# The log shared by processes

`beginOp`, `writeLog(Buffer*)` and `endOp` (`kernel/fs/log.cpp`) called by any number of
processes. Each critical section of `log.mutex` is one step; a process that has to sleep in
`beginOp` takes none. `commit` runs without the lock, one block at a time. A failed assertion
stops the machine and is recorded.

The state carries some history that the code does not: the blocks passed to `writeLog` since
the last commit, the headers that were committed, and the operations that have ended, each
with the number of commits before it began.
-/

namespace Orfos.Fs

open Orfos.Base

/-- The assertions of `writeLog` and `endOp`. -/
inductive Assertion where
  | headerFull
  | areaFull
  | noOperation
  | committing
  deriving DecidableEq, Repr

/-- The next step of `commit`: the loop of `writeLog()`, `writeHead`, the loop of
`installTransaction`, `log.header.n = 0`, `writeHead`, and the end of `endOp`. -/
inductive Stage where
  | start
  | writeLog (tail : Nat)
  | writeHead
  | install (tail : Nat)
  | clear
  | clearHead
  | finish
  deriving DecidableEq, Repr

/-- An operation: the number of commits before it began, and the blocks it passed to
`writeLog`. -/
structure Operation where
  epoch : Nat
  blocks : List UInt32

/-- Where a process is. -/
inductive Where where
  | outside
  | inside (op : Operation)
  | commit (stage : Stage)

/-- The log and the processes that use it. -/
structure Group where
  size : UInt64
  header : List UInt32
  outstanding : Int
  committing : Bool
  content : UInt32 → Nat
  place : Nat → Where
  failed : Option Assertion
  passed : List UInt32
  commits : List (List UInt32)
  finished : List Operation

/-- What a process does next. `modify` is a change of a buffer that it holds. -/
inductive Act where
  | beginOp
  | writeLog (block : UInt32)
  | modify (block : UInt32) (version : Nat)
  | endOp
  | go
  deriving DecidableEq, Repr

namespace Group

/-- Move a process. -/
def goto (s : Group) (p : Nat) (l : Where) : Group :=
  { s with place := Function.update s.place p l }

/-- `beginOp`, once it need not sleep. -/
def beginOp (s : Group) (p : Nat) : Option Group :=
  if s.committing then none
  else if UInt64.ofNat s.header.length +
      UInt64.ofInt (s.outstanding + 1) * UInt64.ofNat MAX_OP_BLOCKS > UInt64.ofNat LOG_SIZE then
    none
  else
    some ({ s with outstanding := s.outstanding + 1 }.goto p (.inside ⟨s.commits.length, []⟩))

/-- `writeLog(Buffer*)`. -/
def writeLog (s : Group) (p : Nat) (op : Operation) (block : UInt32) : Group :=
  if ¬ s.header.length < LOG_SIZE then { s with failed := some .headerFull }
  else if ¬ s.header.length < (s.size - 1).toNat then { s with failed := some .areaFull }
  else if ¬ s.outstanding ≥ 1 then { s with failed := some .noOperation }
  else
    { s with
      header := if block ∈ s.header then s.header else s.header ++ [block]
      passed := s.passed ++ [block] }.goto p (.inside { op with blocks := block :: op.blocks })

/-- `endOp` up to the call of `commit`. -/
def endOp (s : Group) (p : Nat) (op : Operation) : Group :=
  if s.committing then { s with failed := some .committing }
  else if s.outstanding - 1 = 0 then
    { s with
      outstanding := s.outstanding - 1
      committing := true
      finished := s.finished ++ [op] }.goto p (.commit .start)
  else
    { s with
      outstanding := s.outstanding - 1
      finished := s.finished ++ [op] }.goto p .outside

/-- `commit` and the rest of `endOp`. -/
def commit (s : Group) (p : Nat) : Stage → Group
  | .start => s.goto p (.commit (if s.header.length > 0 then .writeLog 0 else .finish))
  | .writeLog tail =>
    s.goto p (.commit (if tail < s.header.length then .writeLog (tail + 1) else .writeHead))
  | .writeHead => { s with commits := s.commits ++ [s.header] }.goto p (.commit (.install 0))
  | .install tail =>
    s.goto p (.commit (if tail < s.header.length then .install (tail + 1) else .clear))
  | .clear => { s with header := [], passed := [] }.goto p (.commit .clearHead)
  | .clearHead => s.goto p (.commit .finish)
  | .finish => { s with committing := false }.goto p .outside

/-- One step of a process. -/
def step (s : Group) (e : Nat × Act) : Option Group :=
  if s.failed.isSome then none
  else
    match s.place e.1, e.2 with
    | .outside, .beginOp => s.beginOp e.1
    | .inside op, .writeLog block => some (s.writeLog e.1 op block)
    | .inside _, .modify block version =>
      some { s with content := Function.update s.content block version }
    | .inside op, .endOp => some (s.endOp e.1 op)
    | .commit stage, .go => some (s.commit e.1 stage)
    | _, _ => none

/-- An empty log after `recover`. -/
def initial (size : UInt64) : Group where
  size := size
  header := []
  outstanding := 0
  committing := false
  content _ := 0
  place _ := .outside
  failed := none
  passed := []
  commits := []
  finished := []

/-- The process is between `beginOp` and `endOp`. -/
def Inside (s : Group) (p : Nat) : Prop := ∃ op, s.place p = .inside op

/-- The process is in `commit`, or about to reset `committing`. -/
def Commits (s : Group) (p : Nat) : Prop := ∃ stage, s.place p = .commit stage

/-- The header is in the log and has not been cleared yet. -/
def Recorded (s : Group) : Prop :=
  ∃ p, (∃ tail, s.place p = .commit (.install tail)) ∨ s.place p = .commit .clear

/-- Operations, commits and the header. -/
structure Inv (s : Group) : Prop where
  counted : ∃ ps : Finset Nat, (∀ p, p ∈ ps ↔ s.Inside p) ∧ s.outstanding = ps.card
  committer : s.committing = true ↔ ∃ p, s.Commits p
  alone : ∀ p q, s.Commits p → s.Commits q → p = q
  idle : s.committing = true → ∀ p, ¬ s.Inside p
  current : ∀ p op, s.place p = .inside op →
    op.epoch = s.commits.length ∧ ∀ b ∈ op.blocks, b ∈ s.header
  ended : ∀ op ∈ s.finished, op.epoch < s.commits.length ∨
    op.epoch = s.commits.length ∧ ∀ b ∈ op.blocks, b ∈ s.header
  recorded : s.Recorded → ∀ op ∈ s.finished, op.epoch < s.commits.length
  pending : ¬ s.Recorded → ∀ b ∈ s.header,
    (∃ op ∈ s.finished, op.epoch = s.commits.length ∧ b ∈ op.blocks) ∨
      ∃ p op, s.place p = .inside op ∧ b ∈ op.blocks
  committed : ∀ n h, s.commits[n]? = some h →
    ∀ b, b ∈ h ↔ ∃ op ∈ s.finished, op.epoch = n ∧ b ∈ op.blocks
  checked : s.failed ≠ some .committing

section

variable {s u : Group} {p q : Nat} {l : Where} {op : Operation} {b : UInt32}

@[simp] theorem place_goto (s : Group) (p q : Nat) (l : Where) :
    (s.goto p l).place q = if q = p then l else s.place q := by
  simp [goto, Function.update_apply]

theorem inside_goto :
    (s.goto p l).Inside q ↔ if q = p then ∃ op, l = .inside op else s.Inside q := by
  unfold Inside
  rw [place_goto]
  split <;> rfl

theorem commits_goto :
    (s.goto p l).Commits q ↔ if q = p then ∃ stage, l = .commit stage else s.Commits q := by
  unfold Commits
  rw [place_goto]
  split <;> rfl

/-- A process inside an operation is not in `commit`. -/
private theorem Inside.not_commits (h : s.Inside p) : ¬ s.Commits p := by
  obtain ⟨op, h⟩ := h
  rintro ⟨stage, h'⟩
  rw [h] at h'
  cases h'

/-- Nobody is inside an operation while the log commits. -/
private theorem Inv.not_committing (hs : Inv s) (h : s.Inside p) : s.committing = false := by
  by_contra hc
  exact hs.idle (by simpa using hc) p h

/-- A recorded header is being committed. -/
private theorem Recorded.commits (h : s.Recorded) :
    ∃ p, s.Commits p ∧ ((∃ tail, s.place p = .commit (.install tail)) ∨
      s.place p = .commit .clear) := by
  obtain ⟨p, h⟩ := h
  refine ⟨p, ?_, h⟩
  rcases h with ⟨tail, h⟩ | h
  · exact ⟨_, h⟩
  · exact ⟨_, h⟩

/-- No header is recorded while nobody commits. -/
private theorem Inv.not_recorded (hs : Inv s) (hc : s.committing = false) : ¬ s.Recorded := by
  intro h
  obtain ⟨p, hp, -⟩ := h.commits
  have := hs.committer.mpr ⟨p, hp⟩
  rw [hc] at this
  cases this

/-- A move between `outside` and `inside` leaves the committing processes alone. -/
private theorem commits_of_place (hplace : u.place = Function.update s.place p l)
    (hp : ¬ s.Commits p) (hl : ∀ stage, l ≠ .commit stage) (q : Nat) :
    u.Commits q ↔ s.Commits q := by
  unfold Commits
  rw [hplace]
  by_cases hq : q = p
  · subst q
    rw [Function.update_self]
    exact iff_of_false (fun ⟨stage, h⟩ ↦ hl stage h) hp
  · rw [Function.update_of_ne hq]

private theorem recorded_of_place (hplace : u.place = Function.update s.place p l)
    (hp : ¬ s.Commits p) (hl : ∀ stage, l ≠ .commit stage) : u.Recorded ↔ s.Recorded := by
  have hmove : ∀ q stage, u.place q = .commit stage ↔ s.place q = .commit stage := by
    intro q stage
    rw [hplace]
    by_cases hq : q = p
    · subst q
      rw [Function.update_self]
      exact iff_of_false (hl stage) fun h ↦ hp ⟨stage, h⟩
    · rw [Function.update_of_ne hq]
  unfold Recorded
  simp only [hmove]

/-- `beginOp` counts the process in. -/
private theorem Inv.beginOp (hs : Inv s) (hp : s.place p = .outside)
    (hu : s.beginOp p = some u) : Inv u := by
  unfold Group.beginOp at hu
  split at hu
  · cases hu
  · next hcom =>
    split at hu
    · cases hu
    · cases hu
      have hnot : ¬ s.Commits p := by
        rintro ⟨stage, h⟩
        rw [hp] at h
        cases h
      have hcm := commits_of_place (s := s) (u := { s with outstanding := s.outstanding + 1 }.goto p
        (.inside ⟨s.commits.length, []⟩)) (p := p) rfl hnot (by simp)
      have hrec := recorded_of_place (s := s)
        (u := { s with outstanding := s.outstanding + 1 }.goto p
          (.inside ⟨s.commits.length, []⟩)) (p := p) rfl hnot (by simp)
      refine ⟨?_, ?_, ?_, ?_, ?_, hs.ended, ?_, ?_, hs.committed, hs.checked⟩
      · obtain ⟨ps, hps, hcard⟩ := hs.counted
        have hnotin : p ∉ ps := by
          rw [hps]
          rintro ⟨op, h⟩
          rw [hp] at h
          cases h
        refine ⟨insert p ps, fun q ↦ ?_, ?_⟩
        · rw [inside_goto, Finset.mem_insert]
          by_cases hq : q = p
          · simp [hq]
          · simp only [hq, false_or, if_false]
            exact hps q
        · simp only [goto, Finset.card_insert_of_notMem hnotin, hcard]
          omega
      · simp only [hcm]
        exact hs.committer
      · simp only [hcm]
        exact hs.alone
      · exact fun h ↦ absurd h hcom
      · intro q op hq
        rw [place_goto] at hq
        split at hq
        · cases hq
          simp [goto]
        · exact hs.current q op hq
      · rw [hrec]
        exact hs.recorded
      · rw [hrec]
        intro hr c hc
        rcases hs.pending hr c hc with h | ⟨q, op, hq, hm⟩
        · exact .inl h
        · refine .inr ⟨q, op, ?_, hm⟩
          rw [place_goto, if_neg]
          · exact hq
          · rintro rfl
            rw [hp] at hq
            cases hq

/-- `writeLog` adds a block to the header and to the operation. -/
private theorem Inv.writeLog (hs : Inv s) (hp : s.place p = .inside op) :
    Inv (s.writeLog p op b) := by
  have hnot : ¬ s.Commits p := Inside.not_commits ⟨op, hp⟩
  have hcom := hs.not_committing ⟨op, hp⟩
  have hfail : ∀ f, f ≠ .committing → Inv { s with failed := some f } := fun f hf ↦
    ⟨hs.counted, hs.committer, hs.alone, hs.idle, hs.current, hs.ended, hs.recorded,
      hs.pending, hs.committed, by simpa using hf⟩
  unfold Group.writeLog
  split
  · exact hfail _ (by simp)
  split
  · exact hfail _ (by simp)
  split
  · exact hfail _ (by simp)
  generalize hh : (if b ∈ s.header then s.header else s.header ++ [b]) = header
  have hmem : ∀ c, c ∈ header ↔ c ∈ s.header ∨ c = b := by
    intro c
    rw [← hh]
    split
    · next hb =>
      refine ⟨.inl, fun h ↦ h.elim id ?_⟩
      rintro rfl
      exact hb
    · simp
  set v : Group := { s with header := header, passed := s.passed ++ [b] }.goto p
    (.inside { op with blocks := b :: op.blocks }) with hv
  have hcm := commits_of_place (s := s) (u := v) (p := p) rfl hnot (by simp)
  have hrec := recorded_of_place (s := s) (u := v) (p := p) rfl hnot (by simp)
  obtain ⟨hepoch, hblocks⟩ := hs.current p op hp
  refine ⟨?_, ?_, ?_, ?_, ?_, ?_, ?_, ?_, hs.committed, hs.checked⟩
  · obtain ⟨ps, hps, hcard⟩ := hs.counted
    refine ⟨ps, fun q ↦ ?_, hcard⟩
    rw [hv, inside_goto]
    by_cases hq : q = p
    · subst q
      simp only [if_true, hps]
      exact iff_of_true ⟨op, hp⟩ ⟨_, rfl⟩
    · simp only [hq, if_false]
      exact hps q
  · simp only [hcm]
    exact hs.committer
  · simp only [hcm]
    exact hs.alone
  · exact fun h ↦ absurd (hcom.symm.trans h) (by simp)
  · intro q op' hq
    rw [hv, place_goto] at hq
    split at hq
    · cases hq
      refine ⟨hepoch, fun c hc ↦ (hmem c).mpr ?_⟩
      rcases List.mem_cons.mp hc with rfl | hc
      · exact .inr rfl
      · exact .inl (hblocks c hc)
    · obtain ⟨h1, h2⟩ := hs.current q op' hq
      exact ⟨h1, fun c hc ↦ (hmem c).mpr (.inl (h2 c hc))⟩
  · intro op' hop
    exact (hs.ended op' hop).imp id fun ⟨h1, h2⟩ ↦ ⟨h1, fun c hc ↦ (hmem c).mpr (.inl (h2 c hc))⟩
  · rw [hrec]
    exact hs.recorded
  · rw [hrec]
    intro hr c hc
    rcases (hmem c).mp hc with hc | rfl
    · rcases hs.pending hr c hc with h | ⟨q, op', hq, hm⟩
      · exact .inl h
      · by_cases hqp : q = p
        · subst q
          rw [hp] at hq
          cases hq
          exact .inr ⟨p, _, by rw [hv, place_goto, if_pos rfl], List.mem_cons_of_mem _ hm⟩
        · exact .inr ⟨q, op', by rw [hv, place_goto, if_neg hqp]; exact hq, hm⟩
    · exact .inr ⟨p, _, by rw [hv, place_goto, if_pos rfl], List.mem_cons_self⟩

/-- The operations that `endOp` leaves inside. -/
private theorem counted_endOp (hs : Inv s) (hp : s.place p = .inside op)
    (hl : ∀ op, l ≠ .inside op) (hplace : u.place = Function.update s.place p l)
    (hout : u.outstanding = s.outstanding - 1) :
    ∃ ps : Finset Nat, (∀ q, q ∈ ps ↔ u.Inside q) ∧ u.outstanding = ps.card := by
  obtain ⟨ps, hps, hcard⟩ := hs.counted
  have hmem : p ∈ ps := (hps p).mpr ⟨op, hp⟩
  refine ⟨ps.erase p, fun q ↦ ?_, ?_⟩
  · unfold Inside
    rw [Finset.mem_erase, hplace]
    by_cases hq : q = p
    · subst q
      simp [hl]
    · rw [Function.update_of_ne hq]
      simp only [ne_eq, hq, not_false_eq_true, true_and]
      exact hps q
  · have hpos : 0 < ps.card := Finset.card_pos.mpr ⟨p, hmem⟩
    rw [hout, hcard, Finset.card_erase_of_mem hmem]
    omega

/-- `endOp` ends the operation; the last one of a group goes on to commit. -/
private theorem Inv.endOp (hs : Inv s) (hp : s.place p = .inside op) : Inv (s.endOp p op) := by
  have hnot : ¬ s.Commits p := Inside.not_commits ⟨op, hp⟩
  have hcom := hs.not_committing ⟨op, hp⟩
  have hnone : ∀ q, ¬ s.Commits q := by
    intro q hq
    have := hs.committer.mpr ⟨q, hq⟩
    rw [hcom] at this
    cases this
  have hnr := hs.not_recorded hcom
  obtain ⟨hepoch, hblocks⟩ := hs.current p op hp
  have hended : ∀ op' ∈ s.finished ++ [op], op'.epoch < s.commits.length ∨
      op'.epoch = s.commits.length ∧ ∀ b ∈ op'.blocks, b ∈ s.header := by
    intro op' hop
    rcases List.mem_append.mp hop with hop | hop
    · exact hs.ended op' hop
    · rw [List.mem_singleton.mp hop]
      exact .inr ⟨hepoch, hblocks⟩
  have hcommitted : ∀ n h, s.commits[n]? = some h →
      ∀ b, b ∈ h ↔ ∃ op' ∈ s.finished ++ [op], op'.epoch = n ∧ b ∈ op'.blocks := by
    intro n h hn c
    have hlt := (List.getElem?_eq_some_iff.mp hn).1
    rw [hs.committed n h hn]
    constructor
    · rintro ⟨op', hop, h1⟩
      exact ⟨op', List.mem_append_left _ hop, h1⟩
    · rintro ⟨op', hop, h1, h2⟩
      rcases List.mem_append.mp hop with hop | hop
      · exact ⟨op', hop, h1, h2⟩
      · rw [List.mem_singleton.mp hop, hepoch] at h1
        omega
  have hpending : ∀ l, ∀ b ∈ s.header,
      (∃ op' ∈ s.finished ++ [op], op'.epoch = s.commits.length ∧ b ∈ op'.blocks) ∨
        ∃ q op', Function.update s.place p l q = .inside op' ∧ b ∈ op'.blocks := by
    intro l c hc
    rcases hs.pending hnr c hc with ⟨op', hop, h1⟩ | ⟨q, op', hq, hm⟩
    · exact .inl ⟨op', List.mem_append_left _ hop, h1⟩
    · by_cases hqp : q = p
      · subst q
        rw [hp] at hq
        cases hq
        exact .inl ⟨op, by simp, hepoch, hm⟩
      · exact .inr ⟨q, op', by rw [Function.update_of_ne hqp]; exact hq, hm⟩
  have hcurrent : ∀ l, (∀ op', l ≠ .inside op') → ∀ q op',
      Function.update s.place p l q = .inside op' →
        op'.epoch = s.commits.length ∧ ∀ b ∈ op'.blocks, b ∈ s.header := by
    intro l hl q op' hq
    by_cases hqp : q = p
    · subst q
      rw [Function.update_self] at hq
      exact absurd hq (hl op')
    · rw [Function.update_of_ne hqp] at hq
      exact hs.current q op' hq
  unfold Group.endOp
  rw [if_neg (by simp [hcom])]
  split
  · next hzero =>
    set v : Group := { s with
      outstanding := s.outstanding - 1
      committing := true
      finished := s.finished ++ [op] }.goto p (.commit .start) with hv
    have hcount := counted_endOp hs hp (l := .commit .start) (u := v) (by simp) rfl rfl
    have hcm : ∀ q, v.Commits q ↔ q = p := by
      intro q
      rw [hv, commits_goto]
      by_cases hq : q = p
      · simp [hq]
      · simp only [hq, if_false, iff_false]
        exact hnone q
    have hrec : ¬ v.Recorded := by
      rintro ⟨q, h⟩
      by_cases hq : q = p
      · subst q
        simp [hv] at h
      · refine hnr ⟨q, ?_⟩
        simpa [hv, hq] using h
    refine ⟨hcount, ?_, ?_, ?_, hcurrent _ (by simp), hended, fun h ↦ absurd h hrec,
      fun _ ↦ hpending _, hcommitted, hs.checked⟩
    · exact iff_of_true rfl ⟨p, (hcm p).mpr rfl⟩
    · intro q q' hq hq'
      rw [hcm] at hq hq'
      rw [hq, hq']
    · intro _ q hq
      obtain ⟨ps, hps, hcard⟩ := hcount
      have hz : ps.card = 0 := by
        have h0 : v.outstanding = 0 := hzero
        omega
      rw [Finset.card_eq_zero] at hz
      have := (hps q).mpr hq
      rw [hz] at this
      cases this
  · set v : Group := { s with
      outstanding := s.outstanding - 1
      finished := s.finished ++ [op] }.goto p .outside with hv
    have hcount := counted_endOp hs hp (l := .outside) (u := v) (by simp) rfl rfl
    have hcm := commits_of_place (s := s) (u := v) (p := p) rfl hnot (by simp)
    have hrec := recorded_of_place (s := s) (u := v) (p := p) rfl hnot (by simp)
    refine ⟨hcount, ?_, ?_, ?_, hcurrent _ (by simp), hended, ?_, fun _ ↦ hpending _,
      hcommitted, hs.checked⟩
    · simp only [hcm]
      exact hs.committer
    · simp only [hcm]
      exact hs.alone
    · exact fun h ↦ absurd (hcom.symm.trans h) (by simp)
    · rw [hrec]
      exact fun h ↦ absurd h hnr

/-- The committing process is the only one that has recorded the header. -/
private theorem Inv.recorded_iff (hs : Inv s) {stage : Stage} (hp : s.place p = .commit stage) :
    s.Recorded ↔ (∃ tail, stage = .install tail) ∨ stage = .clear := by
  constructor
  · intro h
    obtain ⟨q, hq, h⟩ := h.commits
    obtain rfl := hs.alone q p hq ⟨stage, hp⟩
    rw [hp] at h
    simpa using h
  · intro h
    refine ⟨p, ?_⟩
    rw [hp]
    simpa using h

/-- What `commit` leaves alone when it goes on. -/
private theorem Inv.goOn (hs : Inv s) {stage : Stage} (stage' : Stage)
    (hp : s.place p = .commit stage)
    (hu : u = { s with
      header := u.header
      passed := u.passed
      commits := u.commits
      place := Function.update s.place p (.commit stage') })
    (hended : ∀ op ∈ s.finished, op.epoch < u.commits.length ∨
      op.epoch = u.commits.length ∧ ∀ b ∈ op.blocks, b ∈ u.header)
    (hrec : (∃ tail, stage' = .install tail) ∨ stage' = .clear →
      ∀ op ∈ s.finished, op.epoch < u.commits.length)
    (hpending : ¬ ((∃ tail, stage' = .install tail) ∨ stage' = .clear) → ∀ b ∈ u.header,
      ∃ op ∈ s.finished, op.epoch = u.commits.length ∧ b ∈ op.blocks)
    (hcommitted : ∀ n h, u.commits[n]? = some h →
      ∀ b, b ∈ h ↔ ∃ op ∈ s.finished, op.epoch = n ∧ b ∈ op.blocks) : Inv u := by
  have hcom : s.committing = true := hs.committer.mpr ⟨p, stage, hp⟩
  have hplace : u.place = Function.update s.place p (.commit stage') := by rw [hu]
  have hcm : ∀ q, u.Commits q ↔ q = p := by
    intro q
    unfold Commits
    rw [hplace]
    by_cases hq : q = p
    · simp [hq]
    · rw [Function.update_of_ne hq]
      exact iff_of_false (fun h ↦ hq (hs.alone q p h ⟨stage, hp⟩)) hq
  have hinside : ∀ q op', u.place q ≠ .inside op' := by
    intro q op' h
    rw [hplace] at h
    by_cases hq : q = p
    · subst q
      simp at h
    · rw [Function.update_of_ne hq] at h
      exact hs.idle hcom q ⟨op', h⟩
  have hrecorded : u.Recorded ↔ (∃ tail, stage' = .install tail) ∨ stage' = .clear := by
    constructor
    · rintro ⟨q, h⟩
      have hq : q = p := by
        rw [← hcm]
        rcases h with ⟨tail, h⟩ | h
        · exact ⟨_, h⟩
        · exact ⟨_, h⟩
      subst q
      rw [hplace, Function.update_self] at h
      simpa using h
    · intro h
      refine ⟨p, ?_⟩
      rw [hplace, Function.update_self]
      simpa using h
  have hfin : u.finished = s.finished := by rw [hu]
  refine ⟨?_, ?_, ?_, fun _ q ⟨op', h⟩ ↦ hinside q op' h, fun q op' h ↦ absurd h (hinside q op'),
    ?_, ?_, ?_, ?_, ?_⟩
  · obtain ⟨ps, hps, hcard⟩ := hs.counted
    refine ⟨ps, fun q ↦ ?_, by rw [hu]; exact hcard⟩
    exact iff_of_false (fun h ↦ hs.idle hcom q ((hps q).mp h)) fun h ↦ h.elim (hinside q)
  · refine iff_of_true ?_ ⟨p, (hcm p).mpr rfl⟩
    rw [hu]
    exact hcom
  · intro q q' hq hq'
    rw [hcm] at hq hq'
    rw [hq, hq']
  · rw [hfin]
    exact hended
  · rw [hfin, hrecorded]
    exact hrec
  · rw [hfin, hrecorded]
    exact fun h b hb ↦ .inl (hpending h b hb)
  · rw [hfin]
    exact hcommitted
  · rw [hu]
    exact hs.checked

/-- Every stage of `commit` keeps the invariant. -/
private theorem Inv.commit (hs : Inv s) {stage : Stage} (hp : s.place p = .commit stage) :
    Inv (s.commit p stage) := by
  have hcom : s.committing = true := hs.committer.mpr ⟨p, stage, hp⟩
  have hpending : ¬ s.Recorded → ∀ b ∈ s.header,
      ∃ op ∈ s.finished, op.epoch = s.commits.length ∧ b ∈ op.blocks := by
    intro hr b hb
    rcases hs.pending hr b hb with h | ⟨q, op', hq, -⟩
    · exact h
    · exact absurd ⟨op', hq⟩ (hs.idle hcom q)
  have hrec := hs.recorded_iff hp
  cases stage with
  | start =>
    refine hs.goOn (if s.header.length > 0 then .writeLog 0 else .finish) hp rfl
      hs.ended ?_ (fun _ ↦ hpending (by simp [hrec])) hs.committed
    split <;> simp
  | writeLog tail =>
    refine hs.goOn (if tail < s.header.length then .writeLog (tail + 1) else .writeHead)
      hp rfl hs.ended ?_ (fun _ ↦ hpending (by simp [hrec])) hs.committed
    split <;> simp
  | writeHead =>
    have hlt : ∀ op ∈ s.finished, op.epoch < (s.commits ++ [s.header]).length := by
      intro op' hop
      rw [List.length_append, List.length_singleton]
      rcases hs.ended op' hop with h | ⟨h, -⟩ <;> omega
    refine hs.goOn (.install 0) hp rfl (fun op' hop ↦ .inl (hlt op' hop))
      (fun _ ↦ hlt) (by simp) fun n h hn b ↦ ?_
    change (s.commits ++ [s.header])[n]? = some h at hn
    rcases Nat.lt_trichotomy n s.commits.length with hlt' | rfl | hgt
    · rw [List.getElem?_append_left hlt'] at hn
      exact hs.committed n h hn b
    · -- the header that is recorded now has the blocks of this epoch
      simp only [List.getElem?_concat_length, Option.some.injEq] at hn
      subst hn
      refine ⟨hpending (by simp [hrec]) b, ?_⟩
      rintro ⟨op', hop, h1, h2⟩
      rcases hs.ended op' hop with h | ⟨-, h⟩
      · omega
      · exact h b h2
    · rw [List.getElem?_eq_none (by simp; omega)] at hn
      cases hn
  | install tail =>
    refine hs.goOn (if tail < s.header.length then .install (tail + 1) else .clear)
      hp rfl hs.ended (fun _ ↦ hs.recorded (hrec.mpr (.inl ⟨tail, rfl⟩))) ?_ hs.committed
    split <;> simp
  | clear =>
    have hlt := hs.recorded (hrec.mpr (.inr rfl))
    exact hs.goOn .clearHead hp rfl (fun op' hop ↦ .inl (hlt op' hop)) (by simp)
      (fun _ b hb ↦ by cases hb) hs.committed
  | clearHead =>
    exact hs.goOn .finish hp rfl hs.ended (by simp)
      (fun _ ↦ hpending (by simp [hrec])) hs.committed
  | finish =>
    have hplace : ∀ q, ({ s with committing := false }.goto p .outside).place q =
        if q = p then .outside else s.place q := fun q ↦ place_goto ..
    have hcm : ∀ q, ¬ ({ s with committing := false }.goto p .outside).Commits q := by
      rintro q ⟨stage, h⟩
      rw [hplace] at h
      split at h
      · cases h
      · next hq => exact hq (hs.alone q p ⟨stage, h⟩ ⟨_, hp⟩)
    have hinside : ∀ q op', ({ s with committing := false }.goto p .outside).place q ≠
        .inside op' := by
      intro q op' h
      rw [hplace] at h
      split at h
      · cases h
      · exact hs.idle hcom q ⟨op', h⟩
    refine ⟨?_, ?_, fun q q' hq ↦ absurd hq (hcm q), fun h ↦ (by cases h),
      fun q op' h ↦ absurd h (hinside q op'), hs.ended, ?_,
      fun _ b hb ↦ .inl (hpending (by simp [hrec]) b hb), hs.committed, hs.checked⟩
    · obtain ⟨ps, hps, hcard⟩ := hs.counted
      refine ⟨ps, fun q ↦ ?_, hcard⟩
      exact iff_of_false (fun h ↦ hs.idle hcom q ((hps q).mp h)) fun h ↦ h.elim (hinside q)
    · exact iff_of_false (by simp [Group.commit, goto]) fun h ↦ h.elim hcm
    · rintro ⟨q, h⟩
      refine absurd ?_ (hcm q)
      rcases h with ⟨tail, h⟩ | h
      · exact ⟨_, h⟩
      · exact ⟨_, h⟩

/-- Every step keeps the invariant. -/
theorem Inv.step {e : Nat × Act} (hs : Inv s) (hu : s.step e = some u) : Inv u := by
  unfold Group.step at hu
  split at hu
  · cases hu
  · split at hu
    case h_1 hp _ => exact hs.beginOp hp hu
    case h_2 hp _ =>
      cases hu
      exact hs.writeLog hp
    case h_3 hp _ =>
      cases hu
      exact ⟨hs.counted, hs.committer, hs.alone, hs.idle, hs.current, hs.ended, hs.recorded,
        hs.pending, hs.committed, hs.checked⟩
    case h_4 hp _ =>
      cases hu
      exact hs.endOp hp
    case h_5 hp _ =>
      cases hu
      exact hs.commit hp
    case h_6 => cases hu

/-- The invariant holds of an empty log. -/
theorem Inv.initial (size : UInt64) : Inv (initial size) := by
  refine ⟨⟨∅, ?_, rfl⟩, ?_, ?_, ?_, ?_, ?_, ?_, ?_, ?_, ?_⟩ <;>
    simp [Group.initial, Inside, Commits, Recorded]

/-- Commits are isolated from operations, and each operation is in one commit as a whole. -/
structure Isolated (s : Group) : Prop where
  quiet : s.committing = true → s.outstanding = 0
  counted : ∃ ps : Finset Nat, (∀ p, p ∈ ps ↔ s.Inside p) ∧ s.outstanding = ps.card
  undisturbed : ∀ p q e u, s.Commits q → p ≠ q → s.step (p, e) = some u →
    u.header = s.header ∧ u.content = s.content
  checked : s.failed ≠ some .committing
  together : ∀ op ∈ s.finished, (∃ h, s.commits[op.epoch]? = some h ∧ ∀ b ∈ op.blocks, b ∈ h) ∨
    op.epoch = s.commits.length ∧ ∀ b ∈ op.blocks, b ∈ s.header
  once : ∀ n h, s.commits[n]? = some h →
    ∀ b, b ∈ h ↔ ∃ op ∈ s.finished, op.epoch = n ∧ b ∈ op.blocks

/-- While a process commits, the steps of the others change neither the header nor a block. -/
private theorem Inv.undisturbed (hs : Inv s) {e : Act} (hq : s.Commits q) (hpq : p ≠ q)
    (hu : s.step (p, e) = some u) : u.header = s.header ∧ u.content = s.content := by
  have hcom : s.committing = true := hs.committer.mpr ⟨q, hq⟩
  unfold Group.step at hu
  split at hu
  · cases hu
  · split at hu
    case h_1 hp _ =>
      rw [Group.beginOp, if_pos hcom] at hu
      cases hu
    case h_2 hp _ => exact absurd ⟨_, hp⟩ (hs.idle hcom p)
    case h_3 hp _ => exact absurd ⟨_, hp⟩ (hs.idle hcom p)
    case h_4 hp _ => exact absurd ⟨_, hp⟩ (hs.idle hcom p)
    case h_5 stage hp _ => exact absurd (hs.alone p q ⟨stage, hp⟩ hq) hpq
    case h_6 => cases hu

/-- **Commit isolation.** In every state that processes reach which call `beginOp`, `writeLog`
and `endOp` in any interleaving, commits are isolated. -/
theorem isolated_of_run {size : UInt64} (hrun : Run step (fun _ _ ↦ True) (initial size) s) :
    Isolated s := by
  have hs : Inv s := hrun.invariant (Inv.initial size) fun _ _ _ hs _ hu ↦ hs.step hu
  refine ⟨fun hc ↦ ?_, hs.counted, fun p q e u hq hpq hu ↦ hs.undisturbed hq hpq hu, hs.checked,
    fun op hop ↦ ?_, hs.committed⟩
  · obtain ⟨ps, hps, hcard⟩ := hs.counted
    have hempty : ps = ∅ :=
      Finset.eq_empty_of_forall_notMem fun p hp ↦ hs.idle hc p ((hps p).mp hp)
    rw [hcard, hempty]
    rfl
  · refine (hs.ended op hop).imp (fun hlt ↦ ?_) id
    have hh : s.commits[op.epoch]? = some s.commits[op.epoch] := List.getElem?_eq_getElem hlt
    exact ⟨_, hh, fun b hb ↦ (hs.committed _ _ hh b).mpr ⟨op, hop, rfl, hb⟩⟩

/-- Two overlapping operations, and a third one that begins while they are committed. -/
private def overlapping : List (Nat × Act) :=
  [(0, .beginOp), (1, .beginOp), (0, .writeLog 5), (1, .writeLog 6), (1, .writeLog 5),
    (0, .endOp), (1, .endOp)] ++ List.replicate 11 (1, .go) ++
    [(2, .beginOp), (2, .writeLog 7)]

/-- Both operations are in the first commit, and the third one waits for the next. -/
theorem isolated_after_overlap :
    ∃ s, Run step (fun _ _ ↦ True) (initial 30) s ∧ s.commits = [[5, 6]] ∧
      s.header = [7] ∧ s.outstanding = 1 ∧ Isolated s := by
  have hrun : Run step (fun _ _ ↦ True) (initial 30) (final step (initial 30) overlapping) :=
    run_final (by decide) (by decide)
  exact ⟨_, hrun, by decide, by decide, by decide, isolated_of_run hrun⟩

/-- Every operation passes at most `MAX_OP_BLOCKS` different blocks. -/
def within (s : Group) (e : Nat × Act) : Bool :=
  match s.place e.1, e.2 with
  | .inside op, .writeLog block => (block :: op.blocks).dedup.length ≤ MAX_OP_BLOCKS
  | _, _ => true

/-- When `writeLog` is called, fewer than `LOG_SIZE - 1` different blocks have been passed to
it since the last commit. -/
def spare (s : Group) (e : Nat × Act) : Bool :=
  match e.2 with
  | .writeLog _ => s.passed.dedup.length < LOG_SIZE - 1
  | _ => true

/-- No assertion of `writeLog` has failed, and the log blocks are in the log area. -/
def Reserved (s : Group) : Prop :=
  s.failed ≠ some .headerFull ∧ s.failed ≠ some .areaFull ∧ s.failed ≠ some .noOperation ∧
    ∀ tail < s.header.length, tail + 1 < s.size.toNat

/-- The header lists the blocks passed since the last commit, and fits the log area. -/
private structure Logged (s : Group) : Prop where
  size : s.size = UInt64.ofNat LOG_SIZE
  nodup : s.header.Nodup
  mem : ∀ b, b ∈ s.header ↔ b ∈ s.passed
  bound : s.header.length < LOG_SIZE
  failed : s.failed = none ∨ s.failed = some .committing

/-- The header is as long as there are different blocks. -/
private theorem Logged.length_eq (hl : Logged s) : s.header.length = s.passed.dedup.length := by
  have hperm : s.header.Perm s.passed.dedup := by
    rw [List.perm_ext_iff_of_nodup hl.nodup (List.nodup_dedup _)]
    intro b
    rw [List.mem_dedup]
    exact hl.mem b
  exact hperm.length_eq

/-- `writeLog` passes its assertions while there is room. -/
private theorem Logged.writeLog (hs : Inv s) (hl : Logged s) (hp : s.place p = .inside op)
    (hspare : s.passed.dedup.length < LOG_SIZE - 1) : Logged (s.writeLog p op b) := by
  have hlen := hl.length_eq
  have hone : s.outstanding ≥ 1 := by
    obtain ⟨ps, hps, hcard⟩ := hs.counted
    have hpos : 0 < ps.card := Finset.card_pos.mpr ⟨p, (hps p).mpr ⟨op, hp⟩⟩
    omega
  have harea : s.header.length < (s.size - 1).toNat := by
    rw [hlen, hl.size]
    exact hspare
  unfold Group.writeLog
  rw [if_neg (by simpa using hl.bound), if_neg (by simpa using harea), if_neg (by simpa using hone)]
  refine ⟨hl.size, ?_, fun c ↦ ?_, ?_, hl.failed⟩
  · show (if b ∈ s.header then s.header else s.header ++ [b]).Nodup
    split
    · exact hl.nodup
    · next hb =>
      refine List.nodup_append.mpr ⟨hl.nodup, List.nodup_singleton b, ?_⟩
      rintro c hc d hd rfl
      exact hb (List.mem_singleton.mp hd ▸ hc)
  · show c ∈ (if b ∈ s.header then s.header else s.header ++ [b]) ↔ c ∈ s.passed ++ [b]
    rw [List.mem_append, List.mem_singleton, ← hl.mem c]
    split
    · next hb =>
      refine ⟨.inl, fun h ↦ h.elim id ?_⟩
      rintro rfl
      exact hb
    · simp
  · show (if b ∈ s.header then s.header else s.header ++ [b]).length < LOG_SIZE
    split
    · exact hl.bound
    · rw [List.length_append, List.length_singleton, hlen]
      omega

/-- A step with spare room keeps the log in order. -/
private theorem Logged.step {e : Nat × Act} (hs : Inv s) (hl : Logged s)
    (hspare : s.spare e = true) (hu : s.step e = some u) : Logged u := by
  unfold Group.step at hu
  split at hu
  · cases hu
  · split at hu
    case h_1 =>
      unfold Group.beginOp at hu
      split at hu
      · cases hu
      · split at hu
        · cases hu
        · cases hu
          exact ⟨hl.size, hl.nodup, hl.mem, hl.bound, hl.failed⟩
    case h_2 op block hp he =>
      cases hu
      refine hl.writeLog hs hp ?_
      simpa [spare, he] using hspare
    case h_3 =>
      cases hu
      exact ⟨hl.size, hl.nodup, hl.mem, hl.bound, hl.failed⟩
    case h_4 =>
      cases hu
      unfold Group.endOp
      split
      · exact ⟨hl.size, hl.nodup, hl.mem, hl.bound, .inr rfl⟩
      · split <;> exact ⟨hl.size, hl.nodup, hl.mem, hl.bound, hl.failed⟩
    case h_5 stage _ _ =>
      cases hu
      cases stage with
      | clear => exact ⟨hl.size, List.nodup_nil, fun b ↦ Iff.rfl, by simp [commit, goto], hl.failed⟩
      | _ => exact ⟨hl.size, hl.nodup, hl.mem, hl.bound, hl.failed⟩
    case h_6 => cases hu

end
end Group
end Orfos.Fs
