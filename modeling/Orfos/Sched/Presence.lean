import Orfos.Sched.Accounts

/-!
# No process is dropped

A `Ready` process is in the ready queue and a `Sleeping` one in the list of its channel,
unless a thread has a duty towards it. Besides marks of `Running` processes, two steps lose
processes: the `erase` at the end of `wakeup`, when a process has gone to sleep on the
channel during the loop, and an insertion into a bucket of the sleep table without room.
-/

namespace Orfos.Sched

open Orfos.Base Instr

/-- A thread is in the middle of enrolling or dispatching process `p`. -/
def Engaged (s : State) (p : Proc) : Prop := ∃ t, 0 < owed t p (s.code t)

/-- The channel whose list a step erases. -/
def erases : Instr → Option Chan
  | .erase c => some c
  | _ => none

/-- The step marks no `Running` process, erases no list with a process that sleeps on its
channel, and makes an entry in the sleep table only where there is room. -/
def Keeps (s : State) (e : Hart × Event) : Prop :=
  Sane s e ∧
  (∀ c ∈ (executes s e).bind erases, ∀ p ∈ s.sleepers c,
    ¬ ((s.process p).state = .Sleeping ∧ (s.process p).chan = c)) ∧
  ∀ c ∈ (executes s e).bind (touches s), s.sleepTable.HasRoom c

instance (s : State) (e : Hart × Event) : Decidable (Keeps s e) :=
  inferInstanceAs (Decidable (_ ∧ _ ∧ _))

/-- Process `p` is where its state says. -/
def Present (s : State) (p : Proc) : Prop :=
  ((s.process p).state = .Ready → p ∈ s.readyQueue) ∧
    ((s.process p).state = .Sleeping → p ∈ s.sleepers (s.process p).chan)

section

variable {s : State} {h : Hart} {p : Proc} {i : Instr} {k : List Instr} {e : Event}
  {r : State × List Instr}

/-- A process that is neither `Running` nor parked executes nothing. -/
theorem Inv.running_of_head (hs : Inv s) (hcode : s.code (s.cpu h).current = i :: k)
    (ht : (s.cpu h).current = .proc p) (hi : ¬ Parked p (i :: k)) :
    (s.process p).state = .Running := by
  refine (hs.running h p ht).2.resolve_right fun hpark ↦ hi ?_
  rwa [← ht, hcode] at hpark

section

variable (hs : Inv s) (hcode : s.code (s.cpu h).current = i :: k)
  (hr : unfold s h i e = some r)

/-- A mark starts a duty. -/
theorem engaged_of_mark (hf : Fits (s.cpu h).current i k) (hr : unfold s h i e = some r)
    (hpay : pay p i ≠ 0) : Engaged (r.1.setCode (s.cpu h).current (r.2 ++ k)) p := by
  obtain ⟨w, hw⟩ : ∃ w, writes i = some w := by
    rcases pay_cases hpay with ⟨c, rfl⟩ | rfl | rfl | rfl | ⟨status, rfl⟩ <;> exact ⟨_, rfl⟩
  refine ⟨(s.cpu h).current, ?_⟩
  rw [unfold_of_writes hw hr]
  simpa [State.setCode] using owed_of_pay hf hpay

include hs hcode hr in
/-- A duty stays until it is fulfilled. -/
theorem Engaged.code (hp : Engaged s p) (henroll : ∀ site, i = enroll site p → site = .run)
    (hrun : i ≠ markRunning p) (hzombie : i = check p → (s.process p).state ≠ .Zombie) :
    Engaged (r.1.setCode (s.cpu h).current (r.2 ++ k)) p := by
  have hw : WF (s.cpu h).current (i :: k) := hcode ▸ hs.wf _
  obtain ⟨t, ht⟩ := hp
  refine ⟨t, ?_⟩
  rcases eq_or_ne t (s.cpu h).current with rfl | hne
  · rw [hcode] at ht
    have := owed_ge (fun q hq ↦ hs.runs h q hq) hw.1 hr henroll hrun hzombie
    simp only [State.setCode, Function.update_self]
    omega
  · simpa [State.setCode, hne, code_unfold hr] using ht

/-- A registered process is where its state says. -/
theorem present_of_enroll {site : Site} (hr : unfold s h (enroll site p) e = some r)
    (t : Thread) (k : List Instr) : Present (r.1.setCode t k) p := by
  have hst : (r.1.process p).state = (s.process p).state := state_unfold hr p
  have hchan : (r.1.process p).chan = (s.process p).chan :=
    (chan_unfold hr p).resolve_right (by simp)
  constructor
  · intro hready
    have hready' : (s.process p).state = .Ready := hst.symm.trans hready
    change p ∈ r.1.readyQueue
    rw [readyQueue_unfold hr]
    simp [hready']
  · intro hsleep
    have hsleep' : (s.process p).state = .Sleeping := hst.symm.trans hsleep
    change p ∈ r.1.sleepers (r.1.process p).chan
    rw [hchan]
    cases e <;> simp only [unfold, exec, choose, Option.bind_fun_none, reduceCtorEq] at hr
    cases hr
    simp [State.enroll, hsleep', State.sleepers, Lib.Table.lookup_update,
      Lib.Table.lookup_touch_self]

include hs hcode hr in
/-- A process in the queue stays there, or `run` takes it. -/
theorem queued_code (hready : (s.process p).state = .Ready) (hp : p ∈ s.readyQueue) :
    p ∈ r.1.readyQueue ∨ Engaged (r.1.setCode (s.cpu h).current (r.2 ++ k)) p := by
  have hw : WF (s.cpu h).current (i :: k) := hcode ▸ hs.wf _
  by_cases hpop : i = pop ∧ s.readyQueue.head? = some p
  · obtain ⟨rfl, hhead⟩ := hpop
    right
    refine ⟨(s.cpu h).current, ?_⟩
    have := owed_pop (p := p) hw.1 hr
    rw [if_pos hhead] at this
    simp [State.setCode, this]
  · left
    rw [readyQueue_unfold hr]
    split
    case h_1 =>
      split
      · exact List.mem_append_left _ hp
      · exact hp
    case h_2 q _ =>
      -- a process that yields is `Running`
      have hq : p ≠ q := by
        rintro rfl
        have := hs.running_of_head hcode hw.1 (by simp [Parked])
        rw [hready] at this
        cases this
      simpa [hp] using hq
    case h_3 =>
      cases hq : s.readyQueue with
      | nil =>
        rw [hq] at hp
        cases hp
      | cons q qs =>
        rw [hq] at hp hpop
        rcases List.mem_cons.mp hp with rfl | hp
        · exact absurd ⟨rfl, rfl⟩ hpop
        · exact hp
    case h_4 => exact hp

include hs hcode hr in
/-- A process in the list of its channel stays there. -/
theorem listed_code (hsleep : (s.process p).state = .Sleeping)
    (hp : p ∈ s.sleepers (s.process p).chan)
    (herase : ∀ c, i = erase c → ∀ q ∈ s.sleepers c,
      ¬ ((s.process q).state = .Sleeping ∧ (s.process q).chan = c))
    (hroom : ∀ c, touches s i = some c → s.sleepTable.HasRoom c) :
    p ∈ r.1.sleepers (r.1.process p).chan := by
  have hw : WF (s.cpu h).current (i :: k) := hcode ▸ hs.wf _
  have hchan : (r.1.process p).chan = (s.process p).chan := by
    refine (chan_unfold hr p).resolve_right ?_
    rintro ⟨c, rfl⟩
    have := hs.running_of_head hcode hw.1 (by simp [Parked])
    rw [hsleep] at this
    cases this
  rw [hchan]
  rcases sleepers_unfold hr (s.process p).chan with hl | ⟨-, rfl | ⟨c, -, hc, hfull⟩⟩ |
    ⟨site, q, -, -, -, hl⟩
  · rwa [hl]
  · exact absurd ⟨hsleep, rfl⟩ (herase _ rfl p hp)
  · exact absurd (hroom c hc) hfull
  · rw [hl]
    exact List.mem_append_left _ hp

include hs hcode hr in
/-- A step of the code drops no process. -/
theorem attended_code (hp : Engaged s p ∨ Present s p)
    (herase : ∀ c, i = erase c → ∀ q ∈ s.sleepers c,
      ¬ ((s.process q).state = .Sleeping ∧ (s.process q).chan = c))
    (hroom : ∀ c, touches s i = some c → s.sleepTable.HasRoom c) :
    Engaged (r.1.setCode (s.cpu h).current (r.2 ++ k)) p ∨
      Present (r.1.setCode (s.cpu h).current (r.2 ++ k)) p := by
  have hw : WF (s.cpu h).current (i :: k) := hcode ▸ hs.wf _
  by_cases hpay : pay p i = 0
  case neg => exact .inl (engaged_of_mark hw.1 hr hpay)
  by_cases hmark : i = markRunning p
  · subst hmark
    have hst : (r.1.process p).state = .Running := by simp [state_unfold hr p, writes]
    exact .inr ⟨fun h1 ↦ by simp [State.setCode, hst] at h1,
      fun h1 ↦ by simp [State.setCode, hst] at h1⟩
  have hst : (r.1.process p).state = (s.process p).state := state_step hr hpay hmark
  by_cases henroll : ∃ site, i = enroll site p
  · obtain ⟨site, rfl⟩ := henroll
    exact .inr (present_of_enroll hr _ _)
  by_cases hzombie : (s.process p).state = .Zombie
  · exact .inr ⟨fun h1 ↦ by simp [State.setCode, hst, hzombie] at h1,
      fun h1 ↦ by simp [State.setCode, hst, hzombie] at h1⟩
  rcases hp with hp | ⟨hqueue, hlist⟩
  · left
    exact hp.code hs hcode hr (fun site hi ↦ absurd ⟨site, hi⟩ henroll) hmark fun _ ↦ hzombie
  · by_cases heng : Engaged (r.1.setCode (s.cpu h).current (r.2 ++ k)) p
    · exact .inl heng
    right
    constructor
    · intro hready
      have hready' : (s.process p).state = .Ready := hst.symm.trans hready
      exact (queued_code hs hcode hr hready' (hqueue hready')).resolve_right heng
    · intro hsleep
      have hsleep' : (s.process p).state = .Sleeping := hst.symm.trans hsleep
      exact listed_code hs hcode hr hsleep' (hlist hsleep') herase hroom

end

end

/-- Every step that keeps the lists drops no process. -/
theorem attended_step {s u : State} {e : Hart × Event}
    (hs : Inv s ∧ ∀ p, Engaged s p ∨ Present s p) (hk : Keeps s e) (hu : step s e = some u) :
    Inv u ∧ ∀ p, Engaged u p ∨ Present u p := by
  obtain ⟨hs, hp⟩ := hs
  refine ⟨hs.step hk.1 hu, fun p ↦ ?_⟩
  obtain ⟨h, e⟩ := e
  rcases step_cases hu with ⟨k, hh, hsie, rfl⟩ | ⟨i, k, r, hcode, hi, hr, rfl⟩
  · refine (hp p).imp_left fun ⟨t, ht⟩ ↦ ⟨t, ?_⟩
    rcases eq_or_ne t (s.cpu h).current with rfl | hne
    · simpa [State.setCode, owed_handler hs.toFrame hh hsie] using ht
    · simpa [State.setCode, State.setCpu, hne] using ht
  · exact attended_code hs hcode hr (hp p) (fun c hc ↦ hk.2.1 c (by simp [hi, hc, erases]))
      fun c hc ↦ hk.2.2 c (by simp [hi, hc])

/-- A process that no thread is in the middle of enrolling or dispatching is in the ready
queue if it is `Ready` and in the list of its channel if it is `Sleeping`, in any run in
which no `Running` process is marked, no `erase` hits a process that sleeps on the channel,
and the insertions into the sleep table find room. -/
theorem present_of_keeps {n : Nat} {bucket : Chan → Nat} {s : State} {p : Proc}
    (hrun : Run step Keeps (boot n bucket) s) (hidle : ¬ Engaged s p) : Present s p := by
  have hboot : ∀ p, Engaged (boot n bucket) p ∨ Present (boot n bucket) p := by
    intro p
    right
    rcases eq_or_ne p 0 with rfl | hp
    · simp [Present, boot]
    · simp [Present, boot, hp]
  have hs := hrun.invariant (I := fun s ↦ Inv s ∧ ∀ p, Engaged s p ∨ Present s p)
    ⟨Inv.boot n bucket, hboot⟩ fun _ _ _ hs hk hu ↦ attended_step hs hk hu
  exact (hs.2 p).resolve_left hidle

section

/-- The threads that execute the events of a list. -/
def visited (s : State) : List (Hart × Event) → List Thread
  | [] => []
  | e :: es => (s.cpu e.1).current :: match step s e with
    | none => []
    | some u => visited u es

/-- A thread that executes nothing keeps its code. -/
theorem code_of_play {s u : State} {es : List (Hart × Event)} {t : Thread}
    (hu : play step s es = some u) (ht : t ∉ visited s es) : u.code t = s.code t := by
  induction es generalizing s with
  | nil =>
    cases hu
    rfl
  | cons e es ih =>
    obtain ⟨v, hv, hu⟩ := Option.bind_eq_some_iff.mp hu
    simp only [visited, hv, List.mem_cons, not_or] at ht
    rw [ih hu ht.2]
    rcases step_cases (show step s (e.1, e.2) = some v from hv) with
      ⟨k, -, -, rfl⟩ | ⟨i, k, r, -, -, hr, rfl⟩
    · simp [State.setCode, State.setCpu, ht.1]
    · simp [State.setCode, code_unfold hr, ht.1]

/-- A test for `Engaged` after the events of a list. -/
theorem not_engaged_of_visited {n : Nat} {bucket : Chan → Nat} {es : List (Hart × Event)}
    {p : Proc} (hsome : (play step (boot n bucket) es).isSome)
    (hzero : ∀ t ∈ visited (boot n bucket) es,
      owed t p ((final step (boot n bucket) es).code t) = 0) :
    ¬ Engaged (final step (boot n bucket) es) p := by
  rintro ⟨t, ht⟩
  by_cases hmem : t ∈ visited (boot n bucket) es
  · rw [hzero t hmem] at ht
    omega
  · obtain ⟨u, hu⟩ := Option.isSome_iff_exists.mp hsome
    have hf : final step (boot n bucket) es = u := by rw [final, hu, Option.getD_some]
    rw [hf, code_of_play hu hmem, owed_boot] at ht
    omega

/-- Process 0 sleeps on hart 0, and the interrupt handler of hart 1 wakes it. -/
def nap : List (Hart × Event) :=
  goes 1 1 ++ goes 0 10 ++ [(0, .lock 0)] ++ goes 0 1 ++ [(0, .sleep (.object 0))] ++
    goes 0 14 ++ [(1, .device 0 (.object 0))] ++ goes 1 23

/-- The process is in the queue when the handler has returned. -/
theorem present_after_nap : Run step Keeps (boot 2 fun _ ↦ 0) (final step (boot 2 fun _ ↦ 0) nap) ∧
    ((final step (boot 2 fun _ ↦ 0) nap).process 0).state = .Ready ∧
    ¬ Engaged (final step (boot 2 fun _ ↦ 0) nap) 0 ∧
    Present (final step (boot 2 fun _ ↦ 0) nap) 0 := by
  have hrun : Run step Keeps (boot 2 fun _ ↦ 0) (final step (boot 2 fun _ ↦ 0) nap) :=
    run_final (by decide +kernel) (by decide +kernel)
  have hidle : ¬ Engaged (final step (boot 2 fun _ ↦ 0) nap) 0 :=
    not_engaged_of_visited (by decide +kernel) (by decide +kernel)
  exact ⟨hrun, by decide +kernel, hidle, present_of_keeps hrun hidle⟩

/-- Process 1 sleeps on hart 1 and process 0 has released the condition lock in `sleep` on
hart 0. While the handler of hart 2 is in the round of process 1, process 0 registers and is
switched out. Then the handler erases the list. -/
def overslept : List (Hart × Event) :=
  goes 2 1 ++ goes 0 10 ++ [(0, .fork)] ++ goes 0 9 ++ goes 1 10 ++ [(1, .lock 0)] ++ goes 1 1 ++
    [(1, .sleep (.object 0))] ++ goes 1 11 ++ [(0, .lock 0)] ++ goes 0 1 ++
    [(0, .sleep (.object 0))] ++ goes 0 2 ++ [(2, .device 0 (.object 0))] ++ goes 2 6 ++
    goes 0 12 ++ goes 2 7

/-- Process 0 is `Sleeping`, in no list, and nobody will register it. -/
theorem dropped_after_overslept :
    Run step (fun _ _ ↦ True) (boot 3 fun _ ↦ 0) (final step (boot 3 fun _ ↦ 0) overslept) ∧
    ¬ Engaged (final step (boot 3 fun _ ↦ 0) overslept) 0 ∧
    ¬ Present (final step (boot 3 fun _ ↦ 0) overslept) 0 := by
  have hrun : Run step (fun _ _ ↦ True) (boot 3 fun _ ↦ 0)
      (final step (boot 3 fun _ ↦ 0) overslept) :=
    run_final (by decide +kernel) (by decide +kernel)
  have hidle : ¬ Engaged (final step (boot 3 fun _ ↦ 0) overslept) 0 :=
    not_engaged_of_visited (by decide +kernel) (by decide +kernel)
  refine ⟨hrun, hidle, fun hp ↦ ?_⟩
  exact absurd (hp.2 (by decide +kernel)) (by decide +kernel)

end
end Orfos.Sched
