import Orfos.Base.Guarded
import Orfos.Sched.Machine

/-!
# Interrupts and nested spin locks

`SpinMutex` (`kernel/mutex/spin_mutex.cpp`) keeps a counter and a flag for each hart, and
`Scheduler::reschedule` saves and restores the flag around a context switch. Any number of
processes take and release spin locks in any order, and call `reschedule` where its assertions
hold, as `yield` and `sleep` do; the scheduler resumes a process on any hart. Traps and the
scheduler write `SIE` only where the hart holds no spin lock. `registerProcess` in `reschedule`
takes and gives back a lock inside another one, which changes nothing here (`pop_push`).

Each process carries the value that `SIE` had when it took its outermost lock. Whether an
outermost release has left another value, and whether a process has written the flag of
another hart, is recorded.
-/

namespace Orfos.Mutex

open Orfos.Base Orfos.Sched

/-- The local variables of a process inside `reschedule`: the hart that the reference `cpu`
belongs to, the saved flag, and whether the process has been switched out since. -/
structure Frame where
  cpu : Hart
  interruptEnabled : Bool
  away : Bool

/-- The harts, the locks and the processes. -/
structure Nesting where
  cpu : Hart → Cpu
  holder : Lock → Option Hart
  running : Proc → Bool
  frame : Proc → Option Frame
  entry : Proc → Option Bool
  mismatch : Bool
  foreign : Bool

/-- What a hart does next. -/
inductive Move where
  | lock (l : Lock)
  | unlock (l : Lock)
  | write (sie : Bool)
  | reschedule
  | switchBack
  | switchTo (p : Proc)
  | restore
  deriving DecidableEq

/-- Taking and giving back a lock inside another one leaves the hart as it was. -/
theorem pop_push (c : Cpu) (hn : 0 < c.numLocks) (hs : c.sie = false) : c.push.pop = c := by
  cases c
  simp_all [Cpu.push, Cpu.pop, Nat.ne_of_gt]

namespace Nesting

/-- Change the fields of a hart. -/
def setCpu (s : Nesting) (h : Hart) (f : Cpu → Cpu) : Nesting :=
  { s with cpu := Function.update s.cpu h (f (s.cpu h)) }

/-- `SpinMutex::lock`, once the lock is free. -/
def lock (s : Nesting) (h : Hart) (l : Lock) : Nesting :=
  { s with holder := Function.update s.holder l (some h) }.setCpu h Cpu.push

/-- `SpinMutex::unlock`. -/
def unlock (s : Nesting) (h : Hart) (l : Lock) : Nesting :=
  { s with holder := Function.update s.holder l none }.setCpu h Cpu.pop

/-- A process takes a lock, its outermost one if the hart holds none. -/
def enter (s : Nesting) (h : Hart) (p : Proc) (l : Lock) : Nesting :=
  { s.lock h l with
    entry := if (s.cpu h).numLocks = 0 then Function.update s.entry p (some (s.cpu h).sie)
      else s.entry }

/-- A process releases a lock, its outermost one if the hart holds no other. -/
def leave (s : Nesting) (h : Hart) (p : Proc) (l : Lock) : Nesting :=
  let u := s.unlock h l
  if (u.cpu h).numLocks = 0 then
    { u with
      entry := Function.update s.entry p none
      mismatch := s.mismatch || (s.entry p).any fun v ↦ v != (u.cpu h).sie }
  else u

/-- One step of a process outside `reschedule`. -/
def process (s : Nesting) (h : Hart) (p : Proc) : Move → Option Nesting
  | .lock l => if s.holder l = none then some (s.enter h p l) else none
  | .unlock l =>
    if s.holder l = some h ∧ 0 < (s.cpu h).numLocks ∧ (s.cpu h).sie = false then
      some (s.leave h p l)
    else none
  | .write sie =>
    if (s.cpu h).numLocks = 0 then some (s.setCpu h fun c ↦ { c with sie := sie }) else none
  | .reschedule =>
    if s.holder (.process p) = some h ∧ (s.cpu h).numLocks = 1 ∧ (s.cpu h).sie = false then
      some { s with
        frame := Function.update s.frame p (some ⟨h, (s.cpu h).interruptEnabled, false⟩) }
    else none
  | _ => none

/-- One step of a process inside `reschedule`. -/
def resched (s : Nesting) (h : Hart) (p : Proc) (x : Frame) : Move → Option Nesting
  | .switchBack =>
    if x.away = false then
      some { s.setCpu h fun c ↦ { c with current := .sched h } with
        running := Function.update s.running p false
        frame := Function.update s.frame p (some { x with away := true }) }
    else none
  | .restore =>
    if x.away = true then
      -- the hart of the reference, not the one that executes this
      some { s.setCpu x.cpu fun c ↦ { c with interruptEnabled := x.interruptEnabled } with
        frame := Function.update s.frame p none
        foreign := s.foreign || x.cpu != h }
    else none
  | _ => none

/-- One step of `Scheduler::run`. -/
def scheduler (s : Nesting) (h : Hart) : Move → Option Nesting
  | .lock l => if s.holder l = none then some (s.lock h l) else none
  | .unlock l =>
    if s.holder l = some h ∧ 0 < (s.cpu h).numLocks ∧ (s.cpu h).sie = false then
      some (s.unlock h l)
    else none
  | .write sie =>
    if (s.cpu h).numLocks = 0 then some (s.setCpu h fun c ↦ { c with sie := sie }) else none
  | .switchTo p =>
    if s.holder (.process p) = some h ∧ (s.cpu h).numLocks = 1 ∧ s.running p = false then
      some { s.setCpu h fun c ↦ { c with process := some p, current := .proc p } with
        running := Function.update s.running p true }
    else none
  | _ => none

/-- One step of a hart. -/
def step (s : Nesting) (e : Hart × Move) : Option Nesting :=
  match (s.cpu e.1).current with
  | .sched _ => s.scheduler e.1 e.2
  | .proc p =>
    match s.frame p with
    | none => s.process e.1 p e.2
    | some x => s.resched e.1 p x e.2

/-- Every hart is in `Scheduler::run`, and no process has been dispatched. -/
def initial : Nesting where
  cpu h := ⟨none, 0, false, false, .sched h⟩
  holder _ := none
  running _ := false
  frame _ := none
  entry _ := none
  mismatch := false
  foreign := false

/-- `SIE` is clear wherever a lock is held, every outermost release has left the value from
before the outermost acquisition, and no process has written the flag of another hart. -/
def Preserved (s : Nesting) : Prop :=
  (∀ h, 0 < (s.cpu h).numLocks → (s.cpu h).sie = false) ∧ s.mismatch = false ∧ s.foreign = false

/-- A process that is resumed inside `reschedule` is resumed on the hart that it left. -/
def returns (s : Nesting) (e : Hart × Move) : Bool :=
  match e.2 with
  | .switchTo p => (s.frame p).all fun x ↦ x.cpu == e.1
  | _ => true

/-- What is known of a process that runs on hart `h`: it holds a lock if it has taken an
outermost one, and the flag of the hart or the saved one is the value from before. -/
structure Level (s : Nesting) (h : Hart) (p : Proc) : Prop where
  depth : ∀ v, s.entry p = some v → 0 < (s.cpu h).numLocks
  flag : ∀ v, s.entry p = some v → s.frame p = none → (s.cpu h).interruptEnabled = v
  home : ∀ x, s.frame p = some x → x.cpu = h

/-- The invariant of the harts and processes. -/
structure Inv (s : Nesting) : Prop where
  quiet : ∀ h, 0 < (s.cpu h).numLocks → (s.cpu h).sie = false
  unique : ∀ h g p, (s.cpu h).current = .proc p → (s.cpu g).current = .proc p → h = g
  running : ∀ h p, (s.cpu h).current = .proc p → s.running p = true
  level : ∀ h p, (s.cpu h).current = .proc p → s.Level h p
  kept : ∀ p x v, s.frame p = some x → s.entry p = some v → x.interruptEnabled = v
  fresh : ∀ p, s.running p = false → s.frame p = none → s.entry p = none
  match_ : s.mismatch = false
  own : s.foreign = false

variable {s u : Nesting} {h : Hart} {p : Proc} {l : Lock} {x : Frame}

theorem cpu_setCpu (s : Nesting) (h g : Hart) (f : Cpu → Cpu) :
    (s.setCpu h f).cpu g = if g = h then f (s.cpu h) else s.cpu g :=
  Function.update_apply ..

/-- The invariant in terms of the hart that takes a step on the same thread. -/
theorem Inv.advance (hs : Inv s) (hcpu : ∀ g, g ≠ h → u.cpu g = s.cpu g)
    (hcurrent : (u.cpu h).current = (s.cpu h).current) (hrunning : u.running = s.running)
    (hothers : ∀ p, (s.cpu h).current ≠ .proc p → u.frame p = s.frame p ∧ u.entry p = s.entry p)
    (hquiet : 0 < (u.cpu h).numLocks → (u.cpu h).sie = false)
    (hlevel : ∀ p, (s.cpu h).current = .proc p → u.Level h p ∧
      ∀ x v, u.frame p = some x → u.entry p = some v → x.interruptEnabled = v)
    (hmatch : u.mismatch = false) (hown : u.foreign = false) : Inv u := by
  have hcur : ∀ g, (u.cpu g).current = (s.cpu g).current := by
    intro g
    by_cases hg : g = h
    · rw [hg, hcurrent]
    · rw [hcpu g hg]
  refine ⟨fun g hg ↦ ?_, fun g g' p hg hg' ↦ ?_, fun g p hg ↦ ?_, fun g p hg ↦ ?_,
    fun p x v hx hv ↦ ?_, fun p hp hf ↦ ?_, hmatch, hown⟩
  · by_cases hgh : g = h
    · subst hgh
      exact hquiet hg
    · rw [hcpu g hgh] at hg ⊢
      exact hs.quiet g hg
  · rw [hcur] at hg hg'
    exact hs.unique g g' p hg hg'
  · rw [hrunning]
    exact hs.running g p (hcur g ▸ hg)
  · rw [hcur] at hg
    by_cases hgh : g = h
    · subst hgh
      exact (hlevel p hg).1
    · have hne : (s.cpu h).current ≠ .proc p := fun hp ↦ hgh (hs.unique g h p hg hp)
      obtain ⟨hframe, hentry⟩ := hothers p hne
      have hold := hs.level g p hg
      refine ⟨fun v hv ↦ ?_, fun v hv hf ↦ ?_, fun x hx ↦ hold.home x (hframe ▸ hx)⟩
      · rw [hcpu g hgh]
        exact hold.depth v (hentry ▸ hv)
      · rw [hcpu g hgh]
        exact hold.flag v (hentry ▸ hv) (hframe ▸ hf)
  · by_cases hp : (s.cpu h).current = .proc p
    · exact (hlevel p hp).2 x v hx hv
    · obtain ⟨hframe, hentry⟩ := hothers p hp
      exact hs.kept p x v (hframe ▸ hx) (hentry ▸ hv)
  · by_cases hcp : (s.cpu h).current = .proc p
    · rw [hrunning, hs.running h p hcp] at hp
      cases hp
    · obtain ⟨hframe, hentry⟩ := hothers p hcp
      rw [hentry]
      exact hs.fresh p (hrunning ▸ hp) (hframe ▸ hf)

/-- `SIE` may be written where no lock is held. -/
theorem Inv.write {sie : Bool} (hs : Inv s) (hn : (s.cpu h).numLocks = 0) :
    Inv (s.setCpu h fun c ↦ { c with sie := sie }) := by
  refine hs.advance (h := h) (fun g hg ↦ ?_) ?_ rfl (fun _ _ ↦ ⟨rfl, rfl⟩) ?_ (fun p hp ↦ ?_)
    hs.match_ hs.own
  · rw [cpu_setCpu, if_neg hg]
  · rw [cpu_setCpu, if_pos rfl]
  · rw [cpu_setCpu, if_pos rfl]
    intro h'
    exact absurd hn (Nat.ne_of_gt h')
  · have hold := hs.level h p hp
    refine ⟨⟨fun v hv ↦ ?_, fun v hv hf ↦ ?_, hold.home⟩, hs.kept p⟩
    · exact absurd hn (Nat.ne_of_gt (hold.depth v hv))
    · exact absurd hn (Nat.ne_of_gt (hold.depth v hv))

/-- The scheduler takes a lock. -/
theorem Inv.lock {t : Hart} (hs : Inv s) (ht : (s.cpu h).current = .sched t) :
    Inv (s.lock h l) := by
  refine hs.advance (h := h) (fun g hg ↦ ?_) ?_ rfl (fun _ _ ↦ ⟨rfl, rfl⟩) (fun _ ↦ ?_)
    (fun p hp ↦ ?_) hs.match_ hs.own
  · rw [Nesting.lock, cpu_setCpu, if_neg hg]
  · rw [Nesting.lock, cpu_setCpu, if_pos rfl, Cpu.push]
  · rw [Nesting.lock, cpu_setCpu, if_pos rfl, Cpu.push]
  · rw [ht] at hp
    cases hp

/-- The scheduler releases a lock. -/
theorem Inv.unlock {t : Hart} (hs : Inv s) (ht : (s.cpu h).current = .sched t)
    (hsie : (s.cpu h).sie = false) : Inv (s.unlock h l) := by
  refine hs.advance (h := h) (fun g hg ↦ ?_) ?_ rfl (fun _ _ ↦ ⟨rfl, rfl⟩) (fun hn ↦ ?_)
    (fun p hp ↦ ?_) hs.match_ hs.own
  · rw [Nesting.unlock, cpu_setCpu, if_neg hg]
  · rw [Nesting.unlock, cpu_setCpu, if_pos rfl, Cpu.pop]
  · rw [Nesting.unlock, cpu_setCpu, if_pos rfl, Cpu.pop] at hn ⊢
    simp_all [Nat.ne_of_gt]
  · rw [ht] at hp
    cases hp

/-- A process takes a lock. -/
theorem Inv.enter (hs : Inv s) (hp : (s.cpu h).current = .proc p) (hf : s.frame p = none) :
    Inv (s.enter h p l) := by
  have hcpu : ∀ g, (s.enter h p l).cpu g = if g = h then (s.cpu h).push else s.cpu g :=
    fun g ↦ cpu_setCpu ..
  have hentry : ∀ q, (s.enter h p l).entry q =
      if (s.cpu h).numLocks = 0 ∧ q = p then some (s.cpu h).sie else s.entry q := by
    intro q
    unfold Nesting.enter
    by_cases hn : (s.cpu h).numLocks = 0 <;> by_cases hq : q = p <;> simp [hn, hq]
  refine hs.advance (h := h) (fun g hg ↦ ?_) ?_ rfl (fun q hq ↦ ⟨rfl, ?_⟩) (fun _ ↦ ?_)
    (fun q hq ↦ ?_) hs.match_ hs.own
  · rw [hcpu, if_neg hg]
  · rw [hcpu, if_pos rfl, Cpu.push]
  · rw [hentry, if_neg]
    rintro ⟨-, rfl⟩
    exact hq hp
  · rw [hcpu, if_pos rfl, Cpu.push]
  · rw [hp] at hq
    cases hq
    refine ⟨⟨fun v _ ↦ ?_, fun v hv _ ↦ ?_, fun x hx ↦ ?_⟩, fun x v hx ↦ ?_⟩
    · rw [hcpu, if_pos rfl]
      exact Nat.succ_pos _
    · rw [hentry] at hv
      rw [hcpu, if_pos rfl, Cpu.push]
      by_cases hn : (s.cpu h).numLocks = 0
      · rw [if_pos ⟨hn, rfl⟩] at hv
        simpa [hn] using hv
      · rw [if_neg fun h ↦ hn h.1] at hv
        simpa [hn] using (hs.level h p hp).flag v hv hf
    · exact absurd (hf.symm.trans hx) (by simp)
    · exact absurd (hf.symm.trans hx) (by simp)

/-- A process releases a lock. The flag is the value from before its outermost one. -/
theorem Inv.leave (hs : Inv s) (hp : (s.cpu h).current = .proc p) (hf : s.frame p = none)
    (hsie : (s.cpu h).sie = false) : Inv (s.leave h p l) := by
  have hcpu : ∀ g, (s.leave h p l).cpu g = if g = h then (s.cpu h).pop else s.cpu g := by
    intro g
    rw [← cpu_setCpu]
    unfold Nesting.leave
    dsimp only
    split <;> rfl
  have hentry : ∀ q, (s.leave h p l).entry q =
      if (s.cpu h).numLocks - 1 = 0 ∧ q = p then none else s.entry q := by
    intro q
    unfold Nesting.leave
    by_cases hn : (s.cpu h).numLocks - 1 = 0 <;> by_cases hq : q = p <;>
      simp [hn, hq, Nesting.unlock, setCpu, Cpu.pop]
  have hframe : (s.leave h p l).frame = s.frame := by
    unfold Nesting.leave
    dsimp only
    split <;> rfl
  refine hs.advance (h := h) (fun g hg ↦ ?_) ?_ ?_ (fun q hq ↦ ⟨by rw [hframe], ?_⟩) (fun hn ↦ ?_)
    (fun q hq ↦ ?_) ?_ ?_
  · rw [hcpu, if_neg hg]
  · rw [hcpu, if_pos rfl, Cpu.pop]
  · unfold Nesting.leave
    dsimp only
    split <;> rfl
  · rw [hentry, if_neg]
    rintro ⟨-, rfl⟩
    exact hq hp
  · rw [hcpu, if_pos rfl, Cpu.pop] at hn ⊢
    simp_all [Nat.ne_of_gt]
  · rw [hp] at hq
    cases hq
    refine ⟨⟨fun v hv ↦ ?_, fun v hv _ ↦ ?_, fun x hx ↦ ?_⟩, fun x v hx ↦ ?_⟩
    · rw [hentry] at hv
      rw [hcpu, if_pos rfl, Cpu.pop]
      split at hv
      · cases hv
      · next hn => exact Nat.pos_of_ne_zero fun h ↦ hn ⟨h, rfl⟩
    · rw [hentry] at hv
      rw [hcpu, if_pos rfl, Cpu.pop]
      split at hv
      · cases hv
      · exact (hs.level h p hp).flag v hv hf
    · exact absurd (hf.symm.trans (hframe ▸ hx)) (by simp)
    · exact absurd (hf.symm.trans (hframe ▸ hx)) (by simp)
  · -- the outermost release sets `SIE` from the flag
    unfold Nesting.leave
    dsimp only
    split
    · next hn =>
      have hsie' : ((s.unlock h l).cpu h).sie = (s.cpu h).interruptEnabled := by
        rw [Nesting.unlock, cpu_setCpu, if_pos rfl, Cpu.pop] at hn ⊢
        simp_all
      rw [hs.match_, hsie', Bool.false_or]
      cases hv : s.entry p with
      | none => rfl
      | some v => simp [(hs.level h p hp).flag v hv hf]
    · exact hs.match_
  · unfold Nesting.leave
    dsimp only
    split <;> exact hs.own

/-- `reschedule` saves the flag of its hart. -/
theorem Inv.reschedule (hs : Inv s) (hp : (s.cpu h).current = .proc p) (hf : s.frame p = none) :
    Inv { s with
      frame := Function.update s.frame p (some ⟨h, (s.cpu h).interruptEnabled, false⟩) } := by
  have hold := hs.level h p hp
  refine hs.advance (h := h) (fun g _ ↦ rfl) rfl rfl (fun q hq ↦ ⟨?_, rfl⟩) (hs.quiet h)
    (fun q hq ↦ ?_) hs.match_ hs.own
  · refine Function.update_of_ne ?_ _ _
    rintro rfl
    exact hq hp
  · rw [hp] at hq
    cases hq
    refine ⟨⟨hold.depth, fun v hv hf' ↦ ?_, fun x hx ↦ ?_⟩, fun x v hx hv ↦ ?_⟩
    · simp at hf'
    · simp only [Function.update_self, Option.some.injEq] at hx
      rw [← hx]
    · simp only [Function.update_self, Option.some.injEq] at hx
      rw [← hx]
      exact hold.flag v hv hf

/-- The switch to the scheduler. -/
theorem Inv.switchBack (hs : Inv s) (hp : (s.cpu h).current = .proc p)
    (hf : s.frame p = some x) :
    Inv { s.setCpu h fun c ↦ { c with current := .sched h } with
      running := Function.update s.running p false
      frame := Function.update s.frame p (some { x with away := true }) } := by
  have hcur : ∀ g q, (if g = h then { s.cpu h with current := .sched h } else s.cpu g).current =
      .proc q → g ≠ h ∧ q ≠ p ∧ (s.cpu g).current = .proc q := by
    intro g q hg
    split at hg
    · cases hg
    · next hgh =>
      refine ⟨hgh, ?_, hg⟩
      rintro rfl
      exact hgh (hs.unique g h q hg hp)
  refine ⟨fun g hg ↦ ?_, fun g g' q hg hg' ↦ ?_, fun g q hg ↦ ?_, fun g q hg ↦ ?_,
    fun q y v hy hv ↦ ?_, fun q hq hy ↦ ?_, hs.match_, hs.own⟩
  · simp only [cpu_setCpu] at hg ⊢
    split
    · next hgh =>
      rw [if_pos hgh] at hg
      exact hs.quiet h hg
    · next hgh =>
      rw [if_neg hgh] at hg
      exact hs.quiet g hg
  · simp only [cpu_setCpu] at hg hg'
    exact hs.unique g g' q (hcur g q hg).2.2 (hcur g' q hg').2.2
  · simp only [cpu_setCpu] at hg
    obtain ⟨-, hqp, hg⟩ := hcur g q hg
    simp only [Function.update_of_ne hqp]
    exact hs.running g q hg
  · simp only [cpu_setCpu] at hg
    obtain ⟨hgh, hqp, hg⟩ := hcur g q hg
    have hold := hs.level g q hg
    refine ⟨fun v hv ↦ ?_, fun v hv hy ↦ ?_, fun y hy ↦ ?_⟩
    · simp only [cpu_setCpu, if_neg hgh]
      exact hold.depth v hv
    · simp only [Function.update_of_ne hqp] at hy
      simp only [cpu_setCpu, if_neg hgh]
      exact hold.flag v hv hy
    · simp only [Function.update_of_ne hqp] at hy
      exact hold.home y hy
  · by_cases hqp : q = p
    · subst hqp
      simp only [Function.update_self, Option.some.injEq] at hy
      rw [← hy]
      exact hs.kept q x v hf hv
    · simp only [Function.update_of_ne hqp] at hy
      exact hs.kept q y v hy hv
  · by_cases hqp : q = p
    · subst hqp
      simp at hy
    · simp only [Function.update_of_ne hqp] at hq hy
      exact hs.fresh q hq hy

/-- The switch to a process that is resumed on the hart that it left. -/
theorem Inv.switchTo {t : Hart} (hs : Inv s) (ht : (s.cpu h).current = .sched t)
    (hn : (s.cpu h).numLocks = 1) (hp : s.running p = false)
    (hhome : ∀ x, s.frame p = some x → x.cpu = h) :
    Inv { s.setCpu h fun c ↦ { c with process := some p, current := .proc p } with
      running := Function.update s.running p true } := by
  have hnot : ∀ g, (s.cpu g).current ≠ .proc p := by
    intro g hg
    rw [hs.running g p hg] at hp
    cases hp
  have hcur : ∀ g q, (if g = h then { s.cpu h with process := some p, current := .proc p }
      else s.cpu g).current = .proc q → g = h ∧ q = p ∨ g ≠ h ∧ q ≠ p ∧
        (s.cpu g).current = .proc q := by
    intro g q hg
    split at hg
    · next hgh =>
      cases hg
      exact .inl ⟨hgh, rfl⟩
    · next hgh =>
      refine .inr ⟨hgh, ?_, hg⟩
      rintro rfl
      exact hnot g hg
  refine ⟨fun g hg ↦ ?_, fun g g' q hg hg' ↦ ?_, fun g q hg ↦ ?_, fun g q hg ↦ ?_,
    hs.kept, fun q hq hy ↦ ?_, hs.match_, hs.own⟩
  · simp only [cpu_setCpu] at hg ⊢
    split
    · next hgh =>
      rw [if_pos hgh] at hg
      exact hs.quiet h hg
    · next hgh =>
      rw [if_neg hgh] at hg
      exact hs.quiet g hg
  · simp only [cpu_setCpu] at hg hg'
    rcases hcur g q hg with ⟨rfl, rfl⟩ | ⟨-, hqp, hg⟩ <;>
      rcases hcur g' _ hg' with ⟨rfl, h'⟩ | ⟨-, hqp', hg'⟩
    · rfl
    · exact absurd rfl hqp'
    · exact absurd h' hqp
    · exact hs.unique g g' q hg hg'
  · simp only [cpu_setCpu] at hg
    rcases hcur g q hg with ⟨rfl, rfl⟩ | ⟨-, hqp, hg⟩
    · simp
    · simp only [Function.update_of_ne hqp]
      exact hs.running g q hg
  · simp only [cpu_setCpu] at hg
    rcases hcur g q hg with ⟨rfl, rfl⟩ | ⟨hgh, hqp, hg⟩
    · refine ⟨fun v _ ↦ ?_, fun v hv hf ↦ ?_, hhome⟩
      · simp [cpu_setCpu, hn]
      · have hnone : some v = none := hv.symm.trans (hs.fresh q hp hf)
        cases hnone
    · have hold := hs.level g q hg
      refine ⟨fun v hv ↦ ?_, fun v hv hf ↦ ?_, hold.home⟩
      · simp only [cpu_setCpu, if_neg hgh]
        exact hold.depth v hv
      · simp only [cpu_setCpu, if_neg hgh]
        exact hold.flag v hv hf
  · by_cases hqp : q = p
    · subst hqp
      simp at hq
    · simp only [Function.update_of_ne hqp] at hq
      exact hs.fresh q hq hy

/-- `reschedule` restores the flag of its hart. -/
theorem Inv.restore (hs : Inv s) (hp : (s.cpu h).current = .proc p) (hf : s.frame p = some x) :
    Inv { s.setCpu x.cpu fun c ↦ { c with interruptEnabled := x.interruptEnabled } with
      frame := Function.update s.frame p none
      foreign := s.foreign || x.cpu != h } := by
  have hold := hs.level h p hp
  rw [hold.home x hf]
  refine hs.advance (h := h) (fun g hg ↦ ?_) ?_ rfl (fun q hq ↦ ⟨?_, rfl⟩) ?_ (fun q hq ↦ ?_)
    hs.match_ ?_
  · simp only [cpu_setCpu, if_neg hg]
  · simp only [cpu_setCpu, if_true]
  · refine Function.update_of_ne ?_ _ _
    rintro rfl
    exact hq hp
  · simp only [cpu_setCpu, if_true]
    exact hs.quiet h
  · rw [hp] at hq
    cases hq
    refine ⟨⟨fun v hv ↦ ?_, fun v hv _ ↦ ?_, fun y hy ↦ ?_⟩, fun y v hy ↦ ?_⟩
    · simp only [cpu_setCpu, if_true]
      exact hold.depth v hv
    · simp only [cpu_setCpu, if_true]
      exact hs.kept p x v hf hv
    · simp at hy
    · simp at hy
  · simp [hs.own]

/-- Every step keeps the invariant if processes are resumed where they left. -/
theorem Inv.step {e : Hart × Move} (hs : Inv s) (hr : s.returns e) (hu : s.step e = some u) :
    Inv u := by
  obtain ⟨h, m⟩ := e
  unfold Nesting.step at hu
  split at hu
  · next t ht =>
    cases m <;> simp only [scheduler] at hu <;> try cases hu
    case lock l =>
      split at hu <;> cases hu
      exact hs.lock ht
    case unlock l =>
      split at hu <;> cases hu
      next hl => exact hs.unlock ht hl.2.2
    case write sie =>
      split at hu <;> cases hu
      next hn => exact hs.write hn
    case switchTo p =>
      split at hu <;> cases hu
      next hl =>
        refine hs.switchTo ht hl.2.1 hl.2.2 fun x hx ↦ ?_
        simpa [returns, hx] using hr
  · next p hp =>
    split at hu
    · next hf =>
      cases m <;> simp only [process] at hu <;> try cases hu
      case lock l =>
        split at hu <;> cases hu
        exact hs.enter hp hf
      case unlock l =>
        split at hu <;> cases hu
        next hl => exact hs.leave hp hf hl.2.2
      case write sie =>
        split at hu <;> cases hu
        next hn => exact hs.write hn
      case reschedule =>
        split at hu <;> cases hu
        exact hs.reschedule hp hf
    · next x hf =>
      cases m <;> simp only [resched] at hu <;> try cases hu
      case switchBack =>
        split at hu <;> cases hu
        exact hs.switchBack hp hf
      case restore =>
        split at hu <;> cases hu
        exact hs.restore hp hf

/-- The state of the interrupts is preserved in every run in which a process that is resumed
inside `reschedule` is resumed on the hart that it left. -/
theorem preserved_of_returns (hrun : Run step (fun s e ↦ s.returns e) initial s) :
    s.Preserved := by
  have hs : Inv s := by
    refine hrun.invariant ⟨fun h hn ↦ rfl, fun h g p hp ↦ ?_, fun h p hp ↦ ?_, fun h p hp ↦ ?_,
      fun p x v hx ↦ ?_, fun p _ _ ↦ rfl, rfl, rfl⟩ fun _ _ _ hs hr hu ↦ hs.step hr hu
    all_goals first | cases hp | cases hx
  exact ⟨hs.quiet, hs.match_, hs.own⟩

/-- The scheduler of a hart dispatches process 0. -/
def dispatches (h : Hart) : List (Hart × Move) :=
  [(h, .write true), (h, .lock (.process 0)), (h, .switchTo 0)]

/-- Process 0 yields in a trap on a hart, and the scheduler releases its lock. -/
def yields (h : Hart) : List (Hart × Move) :=
  [(h, .write false), (h, .lock (.process 0)), (h, .reschedule), (h, .switchBack),
    (h, .unlock (.process 0))]

/-- Process 0 comes back from `reschedule` and releases its lock. -/
def resumes (h : Hart) : List (Hart × Move) := [(h, .restore), (h, .unlock (.process 0))]

/-- Process 0 yields with interrupts off and is resumed on the same hart. -/
theorem preserved_after_yield : ∃ s, Run step (fun s e ↦ s.returns e) initial s ∧
    (s.cpu 0).current = .proc 0 ∧ (s.cpu 0).sie = false ∧ s.Preserved := by
  have hrun : Run step (fun s e ↦ s.returns e) initial (final step initial
      (dispatches 0 ++ [(0, .unlock (.process 0))] ++ yields 0 ++ dispatches 0 ++ resumes 0)) :=
    run_final (by decide) (by decide)
  exact ⟨_, hrun, by decide, by decide, preserved_of_returns hrun⟩

/-- Process 0 yields with interrupts off on hart 0 and is resumed on hart 1. -/
theorem not_preserved_after_migration :
    ∃ s, Run step (fun _ _ ↦ True) initial s ∧ ¬ s.Preserved := by
  have hrun : Run step (fun _ _ ↦ True) initial (final step initial
      (dispatches 0 ++ [(0, .unlock (.process 0))] ++ yields 0 ++ dispatches 1 ++ resumes 1)) :=
    run_final (by decide) (by decide)
  refine ⟨_, hrun, fun h ↦ ?_⟩
  exact absurd h.2.1 (by decide)

end Nesting
end Orfos.Mutex
