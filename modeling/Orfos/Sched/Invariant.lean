import Orfos.Sched.Effect

/-!
# The structural invariant of the scheduler

`Frame` says that every hart executes one thread, that a process is executed by one hart at
most, and that the locks a hart holds are those that its code still has to give back. `Life`
ties the state of a process to the thread that executes it. Both are kept by every step that
is `Sane`: `run` marks no process `Running`, and `wakeup` none `Ready`, that is `Running`.
-/

namespace Orfos.Sched

open Instr

/-- The locks that the executed thread of a hart has taken. -/
def State.taken (s : State) (h : Hart) : List Lock :=
  held (s.cpu h).current (s.code (s.cpu h).current)

/-- The step of the code that a hart executes, unless it takes an interrupt. -/
def executes (s : State) (e : Hart × Event) : Option Instr :=
  match handler s e.1 e.2 with
  | some _ => none
  | none => (s.code (s.cpu e.1).current).head?

/-- What a step does to the machine: it is an interrupt, or the next step of the code. -/
theorem step_cases {s u : State} {h : Hart} {e : Event} (hu : step s (h, e) = some u) :
    (∃ k, handler s h e = some k ∧ (s.cpu h).sie = true ∧
      u = (s.setCpu h fun c ↦ { c with sie := false }).setCode (s.cpu h).current
        (k ++ sret :: s.code (s.cpu h).current)) ∨
    ∃ i k r, s.code (s.cpu h).current = i :: k ∧ executes s (h, e) = some i ∧
      unfold s h i e = some r ∧ u = r.1.setCode (s.cpu h).current (r.2 ++ k) := by
  unfold step at hu
  split at hu
  case h_1 k hk =>
    left
    split at hu
    · exact ⟨k, hk, ‹_›, by simpa using hu.symm⟩
    · cases hu
  case h_2 hnone =>
    right
    split at hu
    · cases hu
    case h_2 i k hc =>
      obtain ⟨r, hr, rfl⟩ := Option.map_eq_some_iff.mp hu
      exact ⟨i, k, r, hc, by simp [executes, hnone, hc], hr, rfl⟩

/-- The process that `run` or `wakeup` marks, under the lock of the process. -/
def marked : Instr → Option Proc
  | .wake _ p | .markRunning p => some p
  | _ => none

/-- `run` and `wakeup` mark no process that is `Running`. -/
def Sane (s : State) (e : Hart × Event) : Prop :=
  ∀ p ∈ (executes s e).bind marked, (s.process p).state ≠ .Running

instance (s : State) (e : Hart × Event) : Decidable (Sane s e) :=
  inferInstanceAs (Decidable (∀ p ∈ (executes s e).bind marked, (s.process p).state ≠ .Running))

/-- Threads, locks and interrupts. -/
structure Frame (s : State) : Prop where
  wf : ∀ t, WF t (s.code t)
  home : ∀ h g, (s.cpu h).current = .sched g → g = h
  runs : ∀ h p, (s.cpu h).current = .proc p → (s.cpu h).process = some p
  after : ∀ h p, (s.cpu h).process = some p → s.code (.sched h) = afterSwitch p
  alone : ∀ h g p, (s.cpu h).process = some p → (s.cpu g).process = some p → h = g
  holds : ∀ h l, s.holder l = some h ↔ l ∈ s.taken h
  nodup : ∀ h, (s.taken h).Nodup
  locks : ∀ h, (s.cpu h).numLocks = (s.taken h).length
  masked : ∀ h, (s.cpu h).sie = true → (s.cpu h).numLocks = 0
  suspended : ∀ p, (∀ h, (s.cpu h).current ≠ .proc p) →
    held (.proc p) (s.code (.proc p)) = [.process p] ∧ Quick p (s.code (.proc p))

namespace Frame

variable {s u : State} {h g : Hart} {p : Proc}

/-- Two harts execute two threads. -/
theorem current_ne (hs : Frame s) (hg : g ≠ h) : (s.cpu g).current ≠ (s.cpu h).current := by
  intro heq
  cases ht : (s.cpu h).current with
  | sched f =>
    exact hg ((hs.home g f (heq.trans ht)).symm.trans (hs.home h f ht))
  | proc p =>
    exact hg (hs.alone g h p (hs.runs g p (heq.trans ht)) (hs.runs h p ht))

/-- A lock has one holder. -/
theorem holder_unique (hs : Frame s) {l : Lock} (hh : l ∈ s.taken h) (hg : l ∈ s.taken g) :
    h = g := by
  have h1 := (hs.holds h l).mpr hh
  have h2 := (hs.holds g l).mpr hg
  simpa [h1] using h2

/-- A hart may go on in its thread if it then holds what its code gives back. -/
theorem advance (hs : Frame s) {k : List Instr}
    (hcpu : ∀ g, (u.cpu g).current = (s.cpu g).current ∧
      ((s.cpu g).current ≠ .sched h → (u.cpu g).process = (s.cpu g).process))
    (hothers : ∀ g, g ≠ h → (u.cpu g).numLocks = (s.cpu g).numLocks ∧
      ((u.cpu g).sie = true → (s.cpu g).sie = true) ∧
      ∀ l, u.holder l = some g ↔ s.holder l = some g)
    (hcode : u.code = Function.update s.code (s.cpu h).current k)
    (hk : WF (s.cpu h).current k) (hnodup : (held (s.cpu h).current k).Nodup)
    (hlocks : (u.cpu h).numLocks = (held (s.cpu h).current k).length)
    (hmasked : (u.cpu h).sie = true → (u.cpu h).numLocks = 0)
    (hholds : ∀ l, u.holder l = some h ↔ l ∈ held (s.cpu h).current k)
    (hafter : (s.cpu h).current = .sched h → (u.cpu h).process = none) : Frame u := by
  have hproc : ∀ g p, (u.cpu g).process = some p → (s.cpu g).process = some p := by
    intro g p hp
    rcases eq_or_ne (s.cpu g).current (.sched h) with ht | ht
    · obtain rfl := hs.home g h ht
      rw [hafter ht] at hp
      cases hp
    · rwa [← (hcpu g).2 ht]
  have hmine : u.taken h = held (s.cpu h).current k := by
    simp [State.taken, (hcpu h).1, hcode]
  have htaken : ∀ g, g ≠ h → u.taken g = s.taken g := by
    intro g hg
    simp [State.taken, (hcpu g).1, hcode, hs.current_ne hg]
  refine ⟨fun t ↦ ?_, fun h g ↦ ?_, fun h p ↦ ?_, fun g p ↦ ?_, fun h g p ↦ ?_, fun g l ↦ ?_,
    fun g ↦ ?_, fun g ↦ ?_, fun g hg' ↦ ?_, fun p hp ↦ ?_⟩
  · rw [hcode]
    rcases eq_or_ne t (s.cpu h).current with rfl | ht
    · simpa using hk
    · simpa [ht] using hs.wf t
  · rw [(hcpu h).1]
    exact hs.home h g
  · rw [(hcpu h).1]
    intro hp
    rw [(hcpu h).2 (by simp [hp])]
    exact hs.runs h p hp
  · rw [hcode]
    intro hp
    rcases eq_or_ne (Thread.sched g) (s.cpu h).current with ht | ht
    · obtain rfl := hs.home h g ht.symm
      rw [hafter ht.symm] at hp
      cases hp
    · simpa [ht] using hs.after g p (hproc g p hp)
  · exact fun hp hp' ↦ hs.alone h g p (hproc h p hp) (hproc g p hp')
  · rcases eq_or_ne g h with rfl | hg
    · rw [hmine]
      exact hholds l
    · rw [htaken g hg, (hothers g hg).2.2]
      exact hs.holds g l
  · rcases eq_or_ne g h with rfl | hg
    · rw [hmine]
      exact hnodup
    · rw [htaken g hg]
      exact hs.nodup g
  · rcases eq_or_ne g h with rfl | hg
    · rw [hmine, hlocks]
    · rw [htaken g hg, (hothers g hg).1]
      exact hs.locks g
  · rcases eq_or_ne g h with rfl | hg
    · exact hmasked hg'
    · rw [(hothers g hg).1]
      exact hs.masked g ((hothers g hg).2.1 hg')
  · have ht : Thread.proc p ≠ (s.cpu h).current := fun ht ↦ hp h ((hcpu h).1.trans ht.symm)
    rw [hcode, Function.update_of_ne ht]
    exact hs.suspended p fun g hg ↦ hp g ((hcpu g).1.trans hg)

/-- A hart that still has to clear `Cpu::process` does nothing else. -/
theorem process_none (hs : Frame s) {i : Instr} {k : List Instr}
    (hcode : s.code (s.cpu h).current = i :: k) (hi : i ≠ clearProcess)
    (ht : (s.cpu h).current = .sched h) : (s.cpu h).process = none := by
  cases hp : (s.cpu h).process with
  | none => rfl
  | some p =>
    have h1 := hs.after h p hp
    rw [← ht, hcode] at h1
    simp [afterSwitch, hi] at h1

/-- With interrupts unmasked a hart holds no lock. -/
theorem taken_of_sie (hs : Frame s) (hi : (s.cpu h).sie = true) : s.taken h = [] :=
  List.eq_nil_of_length_eq_zero ((hs.locks h).symm.trans (hs.masked h hi))

/-- With interrupts unmasked, `Cpu::process` is the executed process. -/
theorem current_of_sie (hs : Frame s) (hi : (s.cpu h).sie = true)
    (hp : (s.cpu h).process = some p) : (s.cpu h).current = .proc p := by
  cases ht : (s.cpu h).current with
  | sched g =>
    obtain rfl := hs.home h g ht
    have htaken := hs.taken_of_sie hi
    rw [State.taken, ht, hs.after g p hp, wf_afterSwitch.2] at htaken
    cases htaken
  | proc q =>
    rw [hs.runs h q ht] at hp
    cases hp
    rfl

/-- An interrupt. -/
theorem interrupt (hs : Frame s) {e : Event} {k : List Instr} (hk : handler s h e = some k)
    (hi : (s.cpu h).sie = true) :
    Frame ((s.setCpu h fun c ↦ { c with sie := false }).setCode (s.cpu h).current
      (k ++ sret :: s.code (s.cpu h).current)) := by
  have htaken := hs.taken_of_sie hi
  have hnone : (s.cpu h).current = .sched h → (s.cpu h).process = none := by
    intro ht
    cases hp : (s.cpu h).process with
    | none => rfl
    | some p =>
      rw [hs.current_of_sie hi hp] at ht
      cases ht
  have hret : WF (s.cpu h).current (sret :: s.code (s.cpu h).current) := ⟨htaken, hs.wf _⟩
  have hret' : held (s.cpu h).current (sret :: s.code (s.cpu h).current) = [] := htaken
  have hcode : WF (s.cpu h).current (k ++ sret :: s.code (s.cpu h).current) ∧
      held (s.cpu h).current (k ++ sret :: s.code (s.cpu h).current) = [] := by
    rcases handler_cases hk with rfl | ⟨p, hp, rfl⟩ | ⟨m, c, rfl⟩
    · exact ⟨hret, hret'⟩
    · rw [hs.current_of_sie hi hp] at hret hret' ⊢
      exact wf_yield hret hret'
    · have hwake := wf_wakeup (c := c) (show WF (s.cpu h).current
        (unlock (.condition m) :: sret :: s.code (s.cpu h).current) from ⟨trivial, hret⟩)
      have hbase : held (s.cpu h).current (s.code (s.cpu h).current) = [] := htaken
      simp [WF, Fits, held, hwake, hbase]
  refine hs.advance (fun g ↦ ?_) (fun g hg ↦ ?_) rfl hcode.1 ?_ ?_ ?_ (fun l ↦ ?_)
    (by simpa [State.setCpu, State.setCode] using hnone)
  · rcases eq_or_ne g h with rfl | hg <;> simp [State.setCpu, State.setCode, *]
  · simp [State.setCpu, State.setCode, hg]
  · rw [hcode.2]
    exact List.nodup_nil
  · rw [hcode.2]
    simp [State.setCpu, State.setCode, hs.masked h hi]
  · simp [State.setCpu, State.setCode]
  · rw [hcode.2, ← htaken]
    exact hs.holds h l

/-- A step that controls nothing. -/
theorem plain (hs : Frame s) {i : Instr} {k : List Instr} {e : Event} {r : State × List Instr}
    (hcode : s.code (s.cpu h).current = i :: k) (hc : controls i = false)
    (hr : unfold s h i e = some r) : Frame (r.1.setCode (s.cpu h).current (r.2 ++ k)) := by
  have hw : WF (s.cpu h).current (i :: k) := hcode ▸ hs.wf _
  have htaken : s.taken h = held (s.cpu h).current (i :: k) := by
    rw [State.taken, hcode]
  obtain ⟨hholder, hcpu⟩ := cpu_unfold hc hr
  obtain ⟨hk, hheld⟩ := wf_unfold hc (fun p ht ↦ hs.runs h p ht) hw hr
  have hi : i ≠ clearProcess := by
    rintro rfl
    cases hc
  rw [← htaken] at hheld
  refine hs.advance (fun g ↦ ?_) (fun g hg ↦ ?_) ?_ hk ?_ ?_ ?_ (fun l ↦ ?_)
    (fun ht ↦ (hcpu h).2.1.trans (hs.process_none hcode hi ht))
  · exact ⟨(hcpu g).1, fun _ ↦ (hcpu g).2.1⟩
  · refine ⟨(hcpu g).2.2.1, fun hsie ↦ ?_, fun l ↦ by simp [State.setCode, hholder]⟩
    rcases (hcpu g).2.2.2 hsie with h1 | ⟨h1, -⟩
    · exact h1
    · exact absurd h1 hg
  · rw [← code_unfold hr]
    rfl
  · rw [hheld]
    exact hs.nodup h
  · rw [hheld]
    exact (hcpu h).2.2.1.trans (hs.locks h)
  · intro hsie
    refine (hcpu h).2.2.1.trans ?_
    rcases (hcpu h).2.2.2 hsie with h1 | ⟨-, h1⟩
    · exact hs.masked h h1
    · -- the code that unmasks interrupts has no lock to give back
      have : held (s.cpu h).current (i :: k) = [] := by
        rcases h1 with rfl | rfl | rfl
        · exact hw.1.2
        · exact hw.1
        · exact hw.1.2
      rw [hs.locks h, htaken, this, List.length_nil]
  · rw [hheld]
    simpa [State.setCode, hholder] using hs.holds h l

section

variable {k : List Instr} {l : Lock}

/-- A lock that a step takes is one that the code gives back. -/
theorem mem_held_of_lock {t : Thread} (hw : WF t (lock l :: k)) : l ∈ held t k := by
  cases l with
  | process p => exact hw.1.1
  | _ => exact hw.1

/-- `SpinMutex::lock`. -/
theorem lock (hs : Frame s) (hcode : s.code (s.cpu h).current = lock l :: k)
    (hl : s.holder l = none) : Frame ((s.acquire h l).setCode (s.cpu h).current k) := by
  have hw : WF (s.cpu h).current (.lock l :: k) := hcode ▸ hs.wf _
  have htaken : s.taken h = (held (s.cpu h).current k).erase l := by
    rw [State.taken, hcode, held]
  have hmem := mem_held_of_lock hw
  have hnot : l ∉ (held (s.cpu h).current k).erase l := by
    rw [← htaken, ← hs.holds h l, hl]
    simp
  have hperm := List.perm_cons_erase hmem
  refine hs.advance (fun g ↦ ?_) (fun g hg ↦ ?_) rfl hw.2 ?_ ?_ ?_ (fun l' ↦ ?_) ?_
  · rcases eq_or_ne g h with rfl | hg <;>
      simp [State.acquire, State.setCode, State.setCpu, Cpu.push, *]
  · refine ⟨by simp [State.acquire, State.setCode, State.setCpu, hg],
      by simp [State.acquire, State.setCode, State.setCpu, hg], fun l' ↦ ?_⟩
    rcases eq_or_ne l' l with rfl | hl'
    · simp [State.acquire, State.setCode, State.setCpu, hl, Ne.symm hg]
    · simp [State.acquire, State.setCode, State.setCpu, hl']
  · rw [hperm.nodup_iff, List.nodup_cons]
    exact ⟨hnot, htaken ▸ hs.nodup h⟩
  · rw [hperm.length_eq, List.length_cons, ← htaken, ← hs.locks h]
    simp [State.acquire, State.setCode, State.setCpu, Cpu.push]
  · simp [State.acquire, State.setCode, State.setCpu, Cpu.push]
  · rw [hperm.mem_iff, List.mem_cons, ← htaken, ← hs.holds h l']
    rcases eq_or_ne l' l with rfl | hl'
    · simp [State.acquire, State.setCode, State.setCpu]
    · simp [State.acquire, State.setCode, State.setCpu, hl']
  · simpa [State.acquire, State.setCode, State.setCpu, Cpu.push]
      using hs.process_none hcode (by simp)

/-- `SpinMutex::unlock`. -/
theorem unlock (hs : Frame s) (hcode : s.code (s.cpu h).current = unlock l :: k) :
    Frame ((s.release h l).setCode (s.cpu h).current k) := by
  have hw : WF (s.cpu h).current (.unlock l :: k) := hcode ▸ hs.wf _
  have htaken : s.taken h = l :: held (s.cpu h).current k := by
    rw [State.taken, hcode, held]
  have hnodup : (l :: held (s.cpu h).current k).Nodup := htaken ▸ hs.nodup h
  have hlocks : (s.cpu h).numLocks = (held (s.cpu h).current k).length + 1 := by
    rw [hs.locks h, htaken, List.length_cons]
  have hl : s.holder l = some h := (hs.holds h l).mpr (htaken ▸ List.mem_cons_self)
  refine hs.advance (fun g ↦ ?_) (fun g hg ↦ ?_) rfl hw.2 hnodup.of_cons ?_ ?_ (fun l' ↦ ?_) ?_
  · rcases eq_or_ne g h with rfl | hg <;>
      simp [State.release, State.setCode, State.setCpu, Cpu.pop, *]
  · refine ⟨by simp [State.release, State.setCode, State.setCpu, hg],
      by simp [State.release, State.setCode, State.setCpu, hg], fun l' ↦ ?_⟩
    rcases eq_or_ne l' l with rfl | hl'
    · simp [State.release, State.setCode, State.setCpu, hl, Ne.symm hg]
    · simp [State.release, State.setCode, State.setCpu, hl']
  · simp [State.release, State.setCode, State.setCpu, Cpu.pop, hlocks]
  · have hsie : (s.cpu h).sie = false := by
      by_contra hsie
      have := hs.masked h (by simpa using hsie)
      omega
    simp only [State.release, State.setCode, State.setCpu, Cpu.pop, Function.update_self, hsie,
      Bool.false_or, Bool.and_eq_true, beq_iff_eq]
    exact fun hz ↦ hz.1
  · rcases eq_or_ne l' l with rfl | hl'
    · simpa [State.release, State.setCode, State.setCpu] using (List.nodup_cons.mp hnodup).1
    · have := hs.holds h l'
      rw [htaken, List.mem_cons] at this
      simpa [State.release, State.setCode, State.setCpu, hl'] using this
  · simpa [State.release, State.setCode, State.setCpu, Cpu.pop]
      using hs.process_none hcode (by simp)

/-- A switch to a thread whose code has the locks of the hart to give back. -/
theorem switch (hs : Frame s) {t : Thread} {f : Option Proc}
    (hw : WF (s.cpu h).current k) (hne : ∀ g, t ≠ (s.cpu g).current)
    (hheld : held t (s.code t) = s.taken h) (hhome : ∀ g, t = .sched g → g = h)
    (hruns : ∀ p, t = .proc p → f = some p)
    (hafter : ∀ p, f = some p →
      Function.update s.code (s.cpu h).current k (.sched h) = afterSwitch p)
    (halone : ∀ p g, f = some p → (s.cpu g).process = some p → g = h)
    (hsuspended : ∀ p, (s.cpu h).current = .proc p →
      held (.proc p) k = [.process p] ∧ Quick p k) :
    Frame ((s.setCpu h fun c ↦ { c with process := f, current := t }).setCode
      (s.cpu h).current k) := by
  generalize hu : (s.setCpu h fun c ↦ { c with process := f, current := t }).setCode
    (s.cpu h).current k = u
  have hcode : u.code = Function.update s.code (s.cpu h).current k := by
    rw [← hu]
    rfl
  have hholder : u.holder = s.holder := by
    rw [← hu]
    rfl
  have hme : u.cpu h = { s.cpu h with process := f, current := t } := by
    rw [← hu]
    simp [State.setCpu, State.setCode]
  have hother : ∀ g, g ≠ h → u.cpu g = s.cpu g := by
    intro g hg
    rw [← hu]
    simp [State.setCpu, State.setCode, hg]
  have htaken : ∀ g, u.taken g = s.taken g := by
    intro g
    rcases eq_or_ne g h with rfl | hg
    · simp [State.taken, hme, hcode, hne g, hheld]
    · simp [State.taken, hother g hg, hcode, hs.current_ne hg]
  refine ⟨fun t' ↦ ?_, fun g g' ↦ ?_, fun g p ↦ ?_, fun g p hp ↦ ?_, fun g g' p hp hp' ↦ ?_,
    fun g l ↦ ?_, fun g ↦ ?_, fun g ↦ ?_, fun g ↦ ?_, fun p hp ↦ ?_⟩
  · rw [hcode]
    rcases eq_or_ne t' (s.cpu h).current with rfl | ht
    · simpa using hw
    · simpa [ht] using hs.wf t'
  · rcases eq_or_ne g h with rfl | hg
    · rw [hme]
      exact hhome g'
    · rw [hother g hg]
      exact hs.home g g'
  · rcases eq_or_ne g h with rfl | hg
    · rw [hme]
      exact hruns p
    · rw [hother g hg]
      exact hs.runs g p
  · rcases eq_or_ne g h with rfl | hg
    · rw [hme] at hp
      rw [hcode]
      exact hafter p hp
    · rw [hother g hg] at hp
      have ht : Thread.sched g ≠ (s.cpu h).current := by
        intro ht
        exact hg (hs.home h g ht.symm)
      rw [hcode, Function.update_of_ne ht]
      exact hs.after g p hp
  · rcases eq_or_ne g h with rfl | hg
    · rcases eq_or_ne g' g with rfl | hg'
      · rfl
      · rw [hme] at hp
        rw [hother g' hg'] at hp'
        exact (halone p g' hp hp').symm
    · rw [hother g hg] at hp
      rcases eq_or_ne g' h with rfl | hg'
      · rw [hme] at hp'
        exact halone p g hp' hp
      · rw [hother g' hg'] at hp'
        exact hs.alone g g' p hp hp'
  · rw [hholder, htaken]
    exact hs.holds g l
  · rw [htaken]
    exact hs.nodup g
  · rw [htaken, ← hs.locks]
    rcases eq_or_ne g h with rfl | hg
    · rw [hme]
    · rw [hother g hg]
  · rcases eq_or_ne g h with rfl | hg
    · rw [hme]
      exact hs.masked g
    · rw [hother g hg]
      exact hs.masked g
  · rw [hcode]
    rcases eq_or_ne (Thread.proc p) (s.cpu h).current with ht | ht
    · rw [← ht, Function.update_self]
      exact hsuspended p ht.symm
    · rw [Function.update_of_ne ht]
      refine hs.suspended p fun g hg ↦ ?_
      rcases eq_or_ne g h with rfl | hgh
      · exact ht hg.symm
      · exact hp g ((congrArg Cpu.current (hother g hgh)).trans hg)

/-- `switchContext` in `run`. -/
theorem switchTo (hs : Frame s) (hcode : s.code (s.cpu h).current = switchTo p :: k)
    (hp : ∀ g, (s.cpu g).process ≠ some p) :
    Frame ((s.setCpu h fun c ↦ { c with process := some p, current := .proc p }).setCode
      (s.cpu h).current k) := by
  have hw : WF (s.cpu h).current (.switchTo p :: k) := hcode ▸ hs.wf _
  obtain ⟨⟨⟨g, ht⟩, rfl⟩, hk⟩ := hw
  obtain rfl := hs.home h g ht
  have hnot : ∀ h, (s.cpu h).current ≠ .proc p := fun h hh ↦ hp h (hs.runs h p hh)
  have htaken : s.taken g = [.process p] := by
    rw [State.taken, hcode, ht]
    exact wf_afterSwitch.2
  refine hs.switch hk (fun h ↦ (hnot h).symm) ?_ ?_ ?_ ?_ ?_ ?_
  · rw [htaken]
    exact (hs.suspended p hnot).1
  · simp
  · simp
  · intro q hq
    cases hq
    rw [ht, Function.update_self]
  · intro q h hq hproc
    cases hq
    exact absurd hproc (hp h)
  · simp [ht]

/-- `switchContext` in `reschedule`. -/
theorem switchBack (hs : Frame s) (hcode : s.code (s.cpu h).current = switchBack p :: k) :
    Frame ((s.setCpu h fun c ↦ { c with current := .sched h }).setCode
      (s.cpu h).current k) := by
  have hw : WF (s.cpu h).current (.switchBack p :: k) := hcode ▸ hs.wf _
  obtain ⟨⟨ht, hheld, hquick⟩, hk⟩ := hw
  have hproc := hs.runs h p ht
  refine hs.switch (f := (s.cpu h).process) hk ?_ ?_ ?_ ?_ ?_ ?_ ?_
  · intro g hg
    obtain rfl := hs.home g h hg.symm
    rw [ht] at hg
    cases hg
  · rw [State.taken, hcode, hs.after h p hproc, wf_afterSwitch.2]
    exact hheld.symm
  · simp
  · simp
  · intro q hq
    rw [ht, Function.update_of_ne (by simp)]
    exact hs.after h q hq
  · intro q g hq hg
    exact hs.alone g h q hg hq
  · intro q hq
    rw [ht] at hq hheld
    cases hq
    exact ⟨hheld, hquick⟩

/-- `Cpu::process` is reset. -/
theorem clearProcess (hs : Frame s) (hcode : s.code (s.cpu h).current = clearProcess :: k) :
    Frame ((s.setCpu h fun c ↦ { c with process := none }).setCode (s.cpu h).current k) := by
  have hw : WF (s.cpu h).current (.clearProcess :: k) := hcode ▸ hs.wf _
  obtain ⟨⟨g, ht⟩, hk⟩ := hw
  obtain rfl := hs.home h g ht
  have htaken : held (s.cpu g).current k = s.taken g := by
    rw [State.taken, hcode]
    rfl
  refine hs.advance (fun h ↦ ?_) (fun h hh ↦ ?_) rfl hk ?_ ?_ ?_ (fun l ↦ ?_) ?_
  · rcases eq_or_ne h g with rfl | hh <;> simp [State.setCode, State.setCpu, *]
  · simp [State.setCode, State.setCpu, hh]
  · rw [htaken]
    exact hs.nodup g
  · rw [htaken, ← hs.locks g]
    simp [State.setCode, State.setCpu]
  · simpa [State.setCode, State.setCpu] using hs.masked g
  · rw [htaken]
    exact hs.holds g l
  · simp [State.setCode, State.setCpu]

end

/-- A step of the code keeps the threads and locks in order, if it switches to a process
that no hart runs. -/
theorem code (hs : Frame s) {i : Instr} {k : List Instr} {e : Event} {r : State × List Instr}
    (hcode : s.code (s.cpu h).current = i :: k) (hr : unfold s h i e = some r)
    (hto : ∀ p, i = .switchTo p → ∀ g, (s.cpu g).process ≠ some p) :
    Frame (r.1.setCode (s.cpu h).current (r.2 ++ k)) := by
  cases hc : controls i with
  | false => exact hs.plain hcode hc hr
  | true =>
    have hx := exec_of_controls hc hr
    cases i with
    | lock l =>
      simp only [exec] at hx
      split at hx <;> cases hx
      exact hs.lock hcode ‹_›
    | unlock l =>
      simp only [exec] at hx
      split at hx <;> cases hx
      exact hs.unlock hcode
    | switchBack p =>
      cases hx
      exact hs.switchBack hcode
    | switchTo p =>
      cases hx
      exact hs.switchTo hcode (hto p rfl)
    | clearProcess =>
      cases hx
      exact hs.clearProcess hcode
    | _ => cases hc

end Frame
end Orfos.Sched
