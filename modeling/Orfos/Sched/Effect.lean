import Orfos.Sched.Code

/-!
# What a step of the machine can do

For each part of the state, which steps change it and how; for each kind of step in the code
of a thread, which call it comes from.
-/

namespace Orfos.Sched

open Orfos.Lib Instr

/-- The process whose state a step writes, and the state. -/
def writes : Instr → Option (Proc × ProcessState)
  | .wake _ p | .markReady p | .forkReady p => some (p, .Ready)
  | .markRunning p => some (p, .Running)
  | .markSleeping p => some (p, .Sleeping)
  | .markZombie p _ => some (p, .Zombie)
  | _ => none

/-- The steps that change who holds a lock, what a hart executes, or `Cpu::process`. -/
def controls : Instr → Bool
  | .lock _ | .unlock _ | .switchBack _ | .switchTo _ | .clearProcess => true
  | _ => false

section

variable {s : State} {h : Hart} {i : Instr} {e : Event} {r : State × List Instr}

@[simp] theorem process_setProcess (s : State) (p : Proc) (f : Process → Process) :
    (s.setProcess p f).process = Function.update s.process p (f (s.process p)) := rfl

@[simp] theorem process_enroll (s : State) (p : Proc) : (s.enroll p).process = s.process := by
  unfold State.enroll
  split <;> rfl

@[simp] theorem holder_enroll (s : State) (p : Proc) : (s.enroll p).holder = s.holder := by
  unfold State.enroll
  split <;> rfl

@[simp] theorem cpu_enroll (s : State) (p : Proc) : (s.enroll p).cpu = s.cpu := by
  unfold State.enroll
  split <;> rfl

@[simp] theorem code_enroll (s : State) (p : Proc) : (s.enroll p).code = s.code := by
  unfold State.enroll
  split <;> rfl

@[simp] theorem next_enroll (s : State) (p : Proc) : (s.enroll p).next = s.next := by
  unfold State.enroll
  split <;> rfl

/-- Only the marking steps write a process state. -/
theorem state_unfold (hr : unfold s h i e = some r) (q : Proc) :
    (r.1.process q).state =
      match writes i with
      | some (p, st) => if q = p then st else (s.process q).state
      | none => (s.process q).state := by
  unfold unfold at hr
  split at hr
  · cases i <;> simp only [exec] at hr <;> (try split at hr) <;> (try split at hr) <;> cases hr <;>
      try rfl
    all_goals simp only [writes, process_enroll, State.setState, State.setProcess,
      Function.update_apply]
    all_goals (repeat' split) <;> simp_all
  · obtain ⟨p, -, hr⟩ := Option.bind_eq_some_iff.mp hr
    unfold choose at hr
    split at hr <;> (try split at hr) <;> cases hr <;> try rfl
    simp only [writes, State.setProcess]
    split
    · simp only [Function.update_apply]
      split <;> simp_all
    · rfl

/-- Only `sleep` changes the channel of a process. -/
theorem chan_unfold (hr : unfold s h i e = some r) (q : Proc) :
    (r.1.process q).chan = (s.process q).chan ∨ ∃ c, i = setChan q c := by
  unfold unfold at hr
  split at hr
  · cases i <;> simp only [exec] at hr <;> (try split at hr) <;> (try split at hr) <;> cases hr <;>
      try exact .inl rfl
    case h_1.setChan.refl p c =>
      rcases eq_or_ne q p with rfl | hq
      · exact .inr ⟨c, rfl⟩
      · left
        simp [hq]
    case h_1.enroll.refl site p => exact .inl (by rw [process_enroll])
    all_goals
      left
      simp only [State.setState, State.setProcess, Function.update_apply]
      (repeat' split) <;> simp_all
  · obtain ⟨p, -, hr⟩ := Option.bind_eq_some_iff.mp hr
    unfold choose at hr
    split at hr <;> (try split at hr) <;> cases hr <;> left <;> try rfl
    simp only [State.setProcess]
    split
    · simp only [Function.update_apply]
      split <;> simp_all
    · rfl

/-- A step that controls nothing leaves the locks and the threads of the harts alone; it
unmasks interrupts only at the end of a handler and in the outermost code. -/
theorem cpu_unfold (hc : controls i = false) (hr : unfold s h i e = some r) :
    r.1.holder = s.holder ∧ ∀ g, (r.1.cpu g).current = (s.cpu g).current ∧
      (r.1.cpu g).process = (s.cpu g).process ∧ (r.1.cpu g).numLocks = (s.cpu g).numLocks ∧
      ((r.1.cpu g).sie = true →
        (s.cpu g).sie = true ∨ g = h ∧ (i = enable ∨ i = sret ∨ i = user)) := by
  unfold unfold at hr
  split at hr
  · cases i <;> simp only [controls, Bool.true_eq_false] at hc <;> simp only [exec] at hr <;>
      (try split at hr) <;> (try split at hr) <;> cases hr
    all_goals refine ⟨by simp [State.setCpu, State.setState, State.setProcess], fun g ↦ ?_⟩
    all_goals simp only [State.setCpu, State.setState, State.setProcess, Function.update_apply]
    all_goals (repeat' split) <;> simp_all
  · obtain ⟨p, -, hr⟩ := Option.bind_eq_some_iff.mp hr
    unfold choose at hr
    split at hr <;> (try split at hr) <;> cases hr
    all_goals refine ⟨by first | rfl | (split <;> rfl), fun g ↦ ?_⟩
    all_goals simp only [State.setCpu, State.setProcess, Function.update_apply]
    all_goals (repeat' split) <;> simp_all

/-- A hart comes to a process only by a switch. -/
theorem process_unfold (hr : unfold s h i e = some r) (g : Hart) (p : Proc) :
    ((r.1.cpu g).process = some p → (s.cpu g).process = some p ∨ g = h ∧ i = switchTo p) ∧
    ((r.1.cpu g).current = .proc p →
      (s.cpu g).current = .proc p ∧ (g = h → ∀ q, i ≠ switchBack q) ∨
        g = h ∧ i = switchTo p) := by
  cases hc : controls i with
  | false =>
    have hcpu := (cpu_unfold hc hr).2 g
    refine ⟨fun hp ↦ .inl (hcpu.2.1 ▸ hp), fun hp ↦ .inl ⟨hcpu.1 ▸ hp, ?_⟩⟩
    rintro - q rfl
    cases hc
  | true =>
    unfold unfold at hr
    split at hr
    · rcases eq_or_ne g h with rfl | hg <;> cases i <;> simp only [controls, reduceCtorEq] at hc <;>
        simp only [exec] at hr <;> (try split at hr) <;> cases hr <;>
        simp [State.acquire, State.release, State.setCpu, Cpu.push, Cpu.pop, *]
      exact ⟨.inr, .inr⟩
    · obtain ⟨q, -, hr⟩ := Option.bind_eq_some_iff.mp hr
      unfold choose at hr
      split at hr <;> simp [controls] at hc hr

/-- A step leaves the thread of another hart alone. -/
theorem current_unfold (hr : unfold s h i e = some r) {g : Hart} (hg : g ≠ h) :
    (r.1.cpu g).current = (s.cpu g).current := by
  cases hc : controls i with
  | false => exact ((cpu_unfold hc hr).2 g).1
  | true =>
    unfold unfold at hr
    split at hr
    · cases i <;> simp only [controls, reduceCtorEq] at hc <;>
        simp only [exec] at hr <;> (try split at hr) <;> cases hr <;>
        simp [State.acquire, State.release, State.setCpu, hg]
    · obtain ⟨q, -, hr⟩ := Option.bind_eq_some_iff.mp hr
      unfold choose at hr
      split at hr <;> simp [controls] at hc hr

/-- A step that marks a process unfolds to nothing. -/
theorem unfold_of_writes {w : Proc × ProcessState} (hw : writes i = some w)
    (hr : unfold s h i e = some r) : r.2 = [] := by
  unfold unfold at hr
  split at hr
  · cases i <;> simp only [writes, reduceCtorEq] at hw <;> cases hr <;> rfl
  · obtain ⟨q, -, hr⟩ := Option.bind_eq_some_iff.mp hr
    unfold choose at hr
    split at hr <;> simp [writes] at hw hr

/-- A step that controls is no free choice. -/
theorem exec_of_controls (hc : controls i = true) (hr : unfold s h i e = some r) :
    exec s h i = some r := by
  unfold unfold at hr
  split at hr
  · exact hr
  · obtain ⟨q, -, hr⟩ := Option.bind_eq_some_iff.mp hr
    unfold choose at hr
    split at hr <;> simp [controls] at hc hr

/-- The switch to a process is unfolded with the whole dispatch. -/
theorem dispatch_of_unfold {p : Proc} (hr : unfold s h i e = some r)
    (hj : markRunning p ∈ r.2 ∨ switchTo p ∈ r.2) :
    i = check p ∧ (s.process p).state = .Ready ∧ r.2 = dispatch p := by
  unfold unfold at hr
  split at hr
  · cases i <;> simp only [exec] at hr <;> (try split at hr) <;> (try split at hr) <;> cases hr
    all_goals simp [registerProcess, run, scan, wakeRound, dispatch, afterSwitch, reparentRound,
      wakeup, sleep] at hj
    obtain rfl := hj
    exact ⟨rfl, ‹_›, rfl⟩
  · obtain ⟨q, -, hr⟩ := Option.bind_eq_some_iff.mp hr
    unfold choose at hr
    split at hr <;> (try split at hr) <;> cases hr
    all_goals
      simp [yield, unregisterProcess, wakeup, fork, registerProcess, exit, wait, sleep] at hj

/-- The rounds of a `wakeup` are over the list that it finds. -/
theorem wake_of_unfold {c : Chan} {p : Proc} (hr : unfold s h i e = some r)
    (hj : wake c p ∈ r.2) : i = iterate c ∧ p ∈ s.sleepers c := by
  unfold unfold at hr
  split at hr
  · cases i <;> simp only [exec] at hr <;> (try split at hr) <;> (try split at hr) <;> cases hr
    all_goals simp [registerProcess, run, scan, wakeRound, dispatch, afterSwitch, reparentRound,
      wakeup, sleep] at hj
    obtain ⟨hp, rfl⟩ := hj
    exact ⟨rfl, hp⟩
  · obtain ⟨q, -, hr⟩ := Option.bind_eq_some_iff.mp hr
    unfold choose at hr
    split at hr <;> (try split at hr) <;> cases hr
    all_goals
      simp [yield, unregisterProcess, wakeup, fork, registerProcess, exit, wait, sleep] at hj

/-- The channel whose entry a step makes in the sleep table. -/
def touches (s : State) : Instr → Option Chan
  | .iterate c => some c
  | .enroll _ p =>
    if (s.process p).state = .Sleeping then some (s.process p).chan else none
  | _ => none

/-- Making an entry may lose the list of another channel. -/
theorem sleepers_touch (s : State) (c c' : Chan) :
    ((s.sleepTable.touch c').lookup c).getD [] = s.sleepers c ∨
      c ≠ c' ∧ ((s.sleepTable.touch c').lookup c).getD [] = [] ∧ ¬ s.sleepTable.HasRoom c' := by
  rcases eq_or_ne c c' with rfl | hc
  · left
    rw [Table.lookup_touch_self]
    rfl
  · by_cases hr : s.sleepTable.HasRoom c'
    · left
      rw [Table.lookup_touch_of_room hr hc]
      rfl
    · cases hl : (s.sleepTable.touch c').lookup c with
      | none => exact .inr ⟨hc, rfl, hr⟩
      | some v =>
        left
        rw [State.sleepers, Table.lookup_of_lookup_touch hc hl]

/-- The list of a channel only grows when a process that sleeps on it is registered. -/
theorem sleepers_unfold (hr : unfold s h i e = some r) (c : Chan) :
    r.1.sleepers c = s.sleepers c ∨
    (r.1.sleepers c = [] ∧
      (i = erase c ∨ ∃ c', c ≠ c' ∧ touches s i = some c' ∧ ¬ s.sleepTable.HasRoom c')) ∨
    ∃ site p, i = enroll site p ∧ (s.process p).state = .Sleeping ∧ c = (s.process p).chan ∧
      r.1.sleepers c = s.sleepers c ++ [p] := by
  unfold unfold at hr
  split at hr
  · cases i <;> simp only [exec] at hr <;> (try split at hr) <;> (try split at hr) <;> cases hr <;>
      try exact .inl rfl
    case h_1.enroll.refl site p =>
      simp only [State.enroll]
      split
      case h_5 hst =>
        simp only [State.sleepers, Table.lookup_update, touches, hst, if_true]
        rcases eq_or_ne c (s.process p).chan with rfl | hc
        · right
          right
          refine ⟨site, p, rfl, hst, rfl, ?_⟩
          rw [if_pos rfl, Table.lookup_touch_self]
          rfl
        · rw [if_neg hc]
          rcases sleepers_touch s c (s.process p).chan with h1 | ⟨h1, h2, h3⟩
          · exact .inl h1
          · exact .inr (.inl ⟨h2, .inr ⟨_, hc, rfl, h3⟩⟩)
      all_goals exact .inl rfl
    case h_1.iterate.refl c' =>
      rcases sleepers_touch s c c' with h1 | ⟨h1, h2, h3⟩
      · exact .inl h1
      · exact .inr (.inl ⟨h2, .inr ⟨c', h1, rfl, h3⟩⟩)
    case h_1.erase.refl c' =>
      simp only [State.sleepers, Table.lookup_erase]
      rcases eq_or_ne c c' with rfl | hc
      · right
        left
        simp
      · simp [hc]
  · obtain ⟨p, -, hr⟩ := Option.bind_eq_some_iff.mp hr
    unfold choose at hr
    split at hr <;> (try split at hr) <;> cases hr <;> left <;> first | rfl | (split <;> rfl)

theorem sleepers_erase {c : Chan} (hr : unfold s h (erase c) e = some r) :
    r.1.sleepers c = [] := by
  cases e <;> simp only [unfold, exec, choose, Option.bind_fun_none, reduceCtorEq] at hr
  cases hr
  simp [State.sleepers, Table.lookup_erase]

/-- What a step does to the ready queue. -/
theorem readyQueue_unfold (hr : unfold s h i e = some r) :
    r.1.readyQueue = match i with
      | .enroll _ p =>
        if (s.process p).state = .Ready then s.readyQueue ++ [p] else s.readyQueue
      | .remove p => s.readyQueue.filter (· ≠ p)
      | .pop => s.readyQueue.tail
      | _ => s.readyQueue := by
  unfold unfold at hr
  split at hr
  · cases i <;> simp only [exec] at hr <;> (try split at hr) <;> (try split at hr) <;> cases hr <;>
      try rfl
    case h_1.enroll.refl site p =>
      simp only [State.enroll]
      split <;> simp_all
    all_goals simp_all
  · obtain ⟨p, -, hr⟩ := Option.bind_eq_some_iff.mp hr
    unfold choose at hr
    split at hr <;> (try split at hr) <;> cases hr <;> first | rfl | (split <;> rfl)

section

variable {t : Thread} {k : List Instr}

private theorem wf_exec (hc : controls i = false)
    (hp : ∀ p, t = .proc p → (s.cpu h).process = some p) (hf : Fits t i k) (hk : WF t k)
    (hr : exec s h i = some r) :
    WF t (r.2 ++ k) ∧ held t (r.2 ++ k) = held t (i :: k) := by
  cases i with
  | reschedule =>
    obtain ⟨q, rfl, hh, hq⟩ := hf
    simp only [exec, hp q rfl] at hr
    split at hr
    · cases hr
      simp [registerProcess, WF, Fits, held, Quick, hk, hh, hq]
    · cases hr
  | iterate c =>
    obtain ⟨k', rfl⟩ := hf
    cases hr
    exact wf_wakeRounds _ hk rfl
  | pop =>
    obtain ⟨⟨g, rfl⟩, rfl⟩ := hf
    simp only [exec] at hr
    split at hr <;> cases hr <;> simp [run, scan, WF, Fits, held]
  | check p =>
    obtain ⟨⟨g, rfl⟩, rfl⟩ := hf
    simp only [exec] at hr
    split at hr <;> cases hr
    · simpa [held] using wf_dispatch (p := p) (h := g)
    all_goals simp [registerProcess, run, scan, WF, Fits, held]
  | reparent p =>
    cases hr
    exact wf_reparentRounds _ hk hf
  | wakeParent p =>
    cases hr
    exact wf_wakeup hk
  | waitLoop p =>
    obtain ⟨rfl, hh⟩ := hf
    simp only [exec] at hr
    split at hr <;> cases hr <;> simp [WF, Fits, held, hk, hh]
  | scanChildren p n =>
    obtain ⟨rfl, hh⟩ := hf
    simp only [exec] at hr
    split at hr <;> cases hr
    · simp [WF, Fits, held, Quick, hk, hh]
    · rw [List.append_assoc]
      simpa [held, hh] using wf_sleep (m := .wait) (.inl rfl)
        (show WF (.proc p) (waitLoop p :: k) from ⟨⟨rfl, hh⟩, hk⟩) (by simp [held, hh])
  | testChild p n q =>
    obtain ⟨rfl, hh⟩ := hf
    simp only [exec] at hr
    split at hr <;> cases hr
    simp [WF, Fits, held, hk, hh]
  | returnFork =>
    obtain ⟨⟨q, rfl⟩, hh⟩ := hf
    simp only [exec, hp q rfl] at hr
    cases hr
    simp [WF, Fits, held, hk, hh]
  | lock l => cases hc
  | unlock l => cases hc
  | switchBack p => cases hc
  | switchTo p => cases hc
  | clearProcess => cases hc
  | kill p =>
    simp only [exec] at hr
    split at hr <;> cases hr
    exact ⟨hk, rfl⟩
  | _ =>
    cases hr <;> exact ⟨hk, rfl⟩

private theorem wf_choose {p : Proc} (ht : ∀ q, t = .proc q → q = p) (hf : Fits t i k)
    (hk : WF t k) (hr : choose s h p i e = some r) :
    WF t (r.2 ++ k) ∧ held t (r.2 ++ k) = held t (i :: k) := by
  cases i with
  | user =>
    obtain ⟨⟨q, rfl⟩, hh⟩ := hf
    obtain rfl := ht q rfl
    have hu : WF (.proc q) (user :: k) := ⟨⟨⟨q, rfl⟩, hh⟩, hk⟩
    have hh' : held (.proc q) (user :: k) = [] := hh
    rw [hh']
    cases e with
    | lock m =>
      cases hr
      simp [WF, Fits, held, hk, hh]
    | yield =>
      cases hr
      simpa using wf_yield hu hh'
    | wakeup c =>
      cases hr
      simpa [hh] using wf_wakeup (c := c) hu
    | fork =>
      cases hr
      simpa using wf_fork hu hh'
    | exit status =>
      cases hr
      simpa using wf_exit hu hh'
    | wait =>
      cases hr
      simpa using wf_wait hu hh'
    | _ => cases hr
  | critical m =>
    obtain ⟨⟨q, rfl⟩, hh⟩ := hf
    obtain rfl := ht q rfl
    have hu : WF (.proc q) (critical m :: k) := ⟨⟨⟨q, rfl⟩, hh⟩, hk⟩
    have hh' : held (.proc q) (critical m :: k) = [.condition m] := by simp [held, hh]
    rw [hh']
    cases e with
    | sleep c =>
      cases hr
      simpa using wf_sleep (.inr ⟨m, rfl⟩) hu hh'
    | wakeup c =>
      cases hr
      simpa [hh] using wf_wakeup (c := c) hu
    | leave =>
      cases hr
      simp [WF, Fits, held, hk, hh]
    | _ => cases hr
  | testChild q n q' =>
    obtain ⟨rfl, hh⟩ := hf
    cases e with
    | copyout ok =>
      simp only [choose] at hr
      split at hr <;> cases hr
      simp [WF, Fits, held, hk, hh]
    | _ => cases hr
  | _ => cases e <;> cases hr

/-- The code that a step unfolds to is well formed and gives back the same locks. -/
theorem wf_unfold (hc : controls i = false)
    (hp : ∀ p, t = .proc p → (s.cpu h).process = some p) (hw : WF t (i :: k))
    (hr : unfold s h i e = some r) :
    WF t (r.2 ++ k) ∧ held t (r.2 ++ k) = held t (i :: k) := by
  unfold unfold at hr
  split at hr
  · exact wf_exec hc hp hw.1 hw.2 hr
  · obtain ⟨p, hproc, hr⟩ := Option.bind_eq_some_iff.mp hr
    refine wf_choose (fun q hq ↦ ?_) hw.1 hw.2 hr
    simpa [hp q hq] using hproc

/-- Only `fork` makes a new process. -/
theorem forked_unfold (hr : unfold s h i e = some r) :
    forked r.2 = (if e = .fork then [s.next] else []) ∧
      r.1.next = s.next + (if e = .fork then 1 else 0) := by
  unfold unfold at hr
  split at hr
  · cases i <;> simp only [exec] at hr <;> (try split at hr) <;> (try split at hr) <;> cases hr
    all_goals refine ⟨?_, by simp [State.setCpu, State.setState, State.setProcess, State.acquire,
      State.release]⟩
    all_goals first
      | rfl
      | exact forked_flatMap (fun _ ↦ rfl) _
  · obtain ⟨p, -, hr⟩ := Option.bind_eq_some_iff.mp hr
    unfold choose at hr
    split at hr <;> (try split at hr) <;> cases hr
    all_goals refine ⟨rfl, ?_⟩
    all_goals first
      | rfl
      | (split <;> rfl)

/-- A step leaves the code of the threads to `step`. -/
theorem code_unfold (hr : unfold s h i e = some r) : r.1.code = s.code := by
  unfold unfold at hr
  split at hr
  · cases i <;> simp only [exec] at hr <;> (try split at hr) <;> (try split at hr) <;> cases hr <;>
      simp [State.setCpu, State.setState, State.setProcess, State.acquire, State.release]
  · obtain ⟨p, -, hr⟩ := Option.bind_eq_some_iff.mp hr
    unfold choose at hr
    split at hr <;> (try split at hr) <;> cases hr <;> first | rfl | (split <;> rfl)

/-- Code that gives a lock back at once goes on to do so. -/
theorem quick_unfold {p : Proc} (hc : controls i = false)
    (hp : ∀ q, t = .proc q → (s.cpu h).process = some q) (hw : WF t (i :: k))
    (hheld : .process p ∈ held t (i :: k)) (hr : unfold s h i e = some r)
    (hq : Quick p (i :: k)) : Quick p (r.2 ++ k) := by
  cases i with
  | testChild q n q' =>
    obtain rfl : q' = p := hq
    cases e <;> simp only [unfold, exec, choose, Option.bind_eq_some_iff, reduceCtorEq, and_false,
      exists_false] at hr
    · split at hr <;> cases hr
      exact .inl rfl
    · obtain ⟨q'', -, hr⟩ := hr
      split at hr <;> cases hr
      exact .inl rfl
  | returnFork =>
    obtain ⟨⟨q, rfl⟩, hk⟩ := hw.1
    cases e <;> simp only [unfold, exec, choose, Option.bind_fun_none, reduceCtorEq,
      hp q rfl] at hr
    cases hr
    left
    simpa [held, hk, eq_comm] using hheld
  | restore g flag | setChan q c | markRunning q | forkReady q =>
    cases e <;> simp only [unfold, exec, choose, Option.bind_fun_none, reduceCtorEq] at hr
    cases hr
    exact hq
  | panic =>
    cases e <;> simp only [unfold, exec, choose, Option.bind_fun_none, reduceCtorEq] at hr
  | unlock l | switchBack q | switchTo q | clearProcess => cases hc
  | _ => exact absurd hq id

/-- The code of an interrupt handler. -/
theorem handler_cases (hk : handler s h e = some k) :
    k = [] ∨ (∃ p, (s.cpu h).process = some p ∧ k = yield p) ∨
      ∃ m c, k = [lock (.condition m)] ++ wakeup c ++ [unlock (.condition m)] := by
  unfold handler at hk
  split at hk
  · split at hk <;> cases hk
    · exact .inl rfl
    case h_2 p hp => exact .inr (.inl ⟨p, hp, rfl⟩)
  case h_2 m c =>
    cases hk
    exact .inr (.inr ⟨m, c, rfl⟩)
  · cases hk

/-- A parked process stays parked until the switch. -/
theorem parked_unfold {p : Proc} (hp : (s.cpu h).process = some p)
    (hr : unfold s h i e = some r) (hk : Parked p (i :: k)) :
    i = switchBack p ∨ Parked p (r.2 ++ k) := by
  unfold Parked at hk
  split at hk
  case h_1 heq =>
    cases heq
    right
    cases e <;> simp only [unfold, exec, hp, choose, Option.bind_some, reduceCtorEq] at hr
    split at hr <;> cases hr
    simp [registerProcess, Parked]
  case h_2 heq =>
    cases heq
    right
    cases e <;> simp only [unfold, exec, hp, choose, Option.bind_some, reduceCtorEq] at hr
    split at hr <;> cases hr
    exact hk
  case h_3 heq =>
    cases heq
    right
    cases e <;> simp only [unfold, exec, hp, choose, Option.bind_some, reduceCtorEq] at hr
    cases hr
    exact hk
  case h_4 heq =>
    cases heq
    right
    cases e <;> simp only [unfold, exec, hp, choose, Option.bind_some, reduceCtorEq] at hr
    split at hr <;> cases hr
    exact hk
  case h_5 heq =>
    cases heq
    right
    cases e <;> simp only [unfold, exec, hp, choose, Option.bind_some, reduceCtorEq] at hr
    split at hr <;> cases hr
    exact hk
  case h_6 heq =>
    cases heq
    cases hk
    exact .inl rfl
  case h_7 => exact absurd hk id

end

end
end Orfos.Sched
