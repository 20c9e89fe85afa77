import Orfos.Sched.Ledger

/-!
# The scheduler lock and the locks of processes

`reschedule` takes the scheduler lock inside the lock of a process, and `wakeup` takes the
locks of processes inside the scheduler lock. A hart that holds the lock of a process and is
not about to give it back holds it for a process that no other `wakeup` can come to, unless
`reparent` has taken the lock of a child that sleeps.
-/

namespace Orfos.Sched

open Orfos.Base Instr

/-- One hart holds the scheduler lock and waits for the lock of a process, whose holder waits
for the scheduler lock. -/
def Deadlocked (s : State) : Prop :=
  ∃ h g p k k', s.holder .sched = some h ∧ s.code (s.cpu h).current = lock (.process p) :: k ∧
    s.holder (.process p) = some g ∧ s.code (s.cpu g).current = lock .sched :: k'

/-- No `wakeup` but one of thread `t` can come to process `p`. -/
def Spared (s : State) (t : Thread) (p : Proc) : Prop :=
  (∀ c, ¬ Busy s c → p ∉ s.sleepers c) ∧ ∀ t', t' ≠ t → woken p (s.code t') = 0

/-- The lock of a process is about to be given back, or the process is spared. -/
def Leaving (s : State) : Prop :=
  ∀ h p, .process p ∈ s.taken h →
    Quick p (s.code (s.cpu h).current) ∨ Spared s (s.cpu h).current p

/-- A proper step in which `reparent` takes the lock of no `Sleeping` child. -/
def Ordered (s : State) (e : Hart × Event) : Prop :=
  Proper s e ∧ ∀ q k, executes s e = some (lock (.process q)) →
    s.code (s.cpu e.1).current = lock (.process q) :: setParent q :: k →
    (s.process q).state ≠ .Sleeping

section

variable {s : State} {h g : Hart} {t : Thread} {p : Proc} {l : Place} {i : Instr}
  {k : List Instr} {e : Event} {r : State × List Instr}

/-- A process is spared while nobody or the thread itself answers for it. -/
theorem Account.spared (ha : Account s p l) (hl : l = .nobody ∨ l = .thread t) :
    Spared s t p := by
  refine ⟨fun c hc hm ↦ ?_, fun t' ht' ↦ (ha.thread_zero ?_).2⟩
  · have := ha.eq_list hc hm
    rcases hl with rfl | rfl <;> cases this
  · rcases hl with rfl | rfl
    · simp
    · simpa using Ne.symm ht'

/-- A process that is not `Sleeping` is spared. -/
theorem Account.spared_of_awake (ha : Account s p l) (hst : (s.process p).state ≠ .Sleeping) :
    Spared s t p :=
  ⟨fun c hc hm ↦ hst (ha.listed c hc hm), fun t' _ ↦
    Nat.eq_zero_of_not_pos fun hw ↦ hst (ha.waking t' hw)⟩

/-- A process stays spared until it is listed. -/
theorem Spared.code (hsp : Spared s t p) (hcode : s.code (s.cpu h).current = i :: k)
    (hr : unfold s h i e = some r) (hiter : ∀ c, i = iterate c → ¬ Busy s c)
    (henroll : ∀ site, i = enroll site p → (s.process p).state ≠ .Sleeping) :
    Spared (r.1.setCode (s.cpu h).current (r.2 ++ k)) t p := by
  constructor
  · intro c hc hm
    rw [← List.count_pos_iff] at hm
    change 0 < (r.1.sleepers c).count p at hm
    rcases Account.list_step hcode hr hc henroll with h0 | ⟨hb, hle⟩
    · omega
    · exact hsp.1 c hb (List.count_pos_iff.mp (Nat.lt_of_lt_of_le hm hle))
  · intro t' ht'
    have := Account.woken_step (p := p) hcode hr (fun c hc ↦ hsp.1 c (hiter c hc)) t'
    rw [hsp.2 t' ht'] at this
    omega

/-- A `Sleeping` process is listed by its own `reschedule`, which is about to switch. -/
theorem quick_of_enroll (hs : Inv s) (hl : Ledger s) {site : Site}
    (hcode : s.code (s.cpu h).current = enroll site p :: k)
    (hrun : site ≠ .run) (hst : (s.process p).state = .Sleeping) :
    .process p ∈ s.taken h ∧ Quick p k := by
  obtain ⟨l, ha⟩ := hl p
  have hpos : 0 < owed (s.cpu h).current p (s.code (s.cpu h).current) := by
    rw [hcode]
    apply owed_pos_of_gain
    cases site <;> simp [gain] at hrun ⊢
  have ht : (s.cpu h).current = .proc p := by
    by_contra ht
    have := ha.readying _ ht hpos
    rw [hst] at this
    cases this
  have hpark : Parked p (s.code (.proc p)) := by
    refine (hs.running h p ht).2.resolve_left ?_
    simp [hst]
  refine ⟨?_, ?_⟩
  · rw [State.taken, ht]
    exact held_of_parked (hs.wf _) hpark
  · have hw : WF (s.cpu h).current (enroll site p :: k) := hcode ▸ hs.wf _
    rw [← ht, hcode] at hpark
    cases site <;> simp only [Parked] at hpark
    obtain ⟨-, k', rfl⟩ := hw.1
    exact .inr trivial

section

variable (hs : Inv s) (hl : Ledger s) (hv : Leaving s)
  (hcode : s.code (s.cpu h).current = i :: k) (hr : unfold s h i e = some r)
  (hrun : ∀ p, i = enroll .run p → (s.process p).state ≠ .Sleeping)
  (hiter : ∀ c, i = iterate c → ¬ Busy s c)

include hs hl hcode hr hrun hiter in
/-- A spared process stays spared, or its own thread lists it and is about to switch. -/
theorem Spared.code_or_quick (hsp : Spared s t p) :
    Spared (r.1.setCode (s.cpu h).current (r.2 ++ k)) t p ∨
      .process p ∈ s.taken h ∧ Quick p (r.2 ++ k) := by
  by_cases hen : ∃ site, i = enroll site p ∧ (s.process p).state = .Sleeping
  · obtain ⟨site, rfl, hst⟩ := hen
    right
    have hr2 : r.2 = [] := by
      cases e <;> simp only [unfold, exec, choose, Option.bind_fun_none, reduceCtorEq] at hr
      cases hr
      rfl
    rw [hr2]
    refine quick_of_enroll hs hl hcode ?_ hst
    rintro rfl
    exact hrun p rfl hst
  · left
    exact hsp.code hcode hr hiter fun site hi hst ↦ hen ⟨site, hi, hst⟩

include hs hl hv hcode hr hrun hiter in
/-- The locks that another hart holds. -/
theorem Leaving.other (hg : g ≠ h)
    (hp : .process p ∈ (r.1.setCode (s.cpu h).current (r.2 ++ k)).taken g) :
    Quick p ((r.1.setCode (s.cpu h).current (r.2 ++ k)).code (r.1.cpu g).current) ∨
      Spared (r.1.setCode (s.cpu h).current (r.2 ++ k)) (r.1.cpu g).current p := by
  have hne := hs.current_ne hg
  have hcur := current_unfold hr hg
  have hsame : (r.1.setCode (s.cpu h).current (r.2 ++ k)).code (s.cpu g).current =
      s.code (s.cpu g).current := by
    simp [State.setCode, hne, code_unfold hr]
  have hp' : .process p ∈ s.taken g := by
    rw [State.taken, ← hsame, ← hcur]
    exact hp
  rw [hcur, hsame]
  refine (hv g p hp').imp_right fun hsp ↦ ?_
  rcases hsp.code_or_quick hs hl hcode hr hrun hiter with hsp' | ⟨hmine, -⟩
  · exact hsp'
  · exact absurd (hs.holder_unique hp' hmine) hg

include hs hl hv hcode hr hrun hiter in
/-- The locks that the hart itself holds after a step that controls nothing. -/
theorem Leaving.plain (hc : controls i = false)
    (hp : .process p ∈ (r.1.setCode (s.cpu h).current (r.2 ++ k)).taken h) :
    Quick p ((r.1.setCode (s.cpu h).current (r.2 ++ k)).code (r.1.cpu h).current) ∨
      Spared (r.1.setCode (s.cpu h).current (r.2 ++ k)) (r.1.cpu h).current p := by
  have hw : WF (s.cpu h).current (i :: k) := hcode ▸ hs.wf _
  have hcur : (r.1.cpu h).current = (s.cpu h).current := ((cpu_unfold hc hr).2 h).1
  have hheld := (wf_unfold hc (fun q hq ↦ hs.runs h q hq) hw hr).2
  have hp' : .process p ∈ held (s.cpu h).current (i :: k) := by
    have hcur' : ((r.1.setCode (s.cpu h).current (r.2 ++ k)).cpu h).current =
      (s.cpu h).current := hcur
    rw [State.taken, hcur'] at hp
    simpa [State.setCode, hheld] using hp
  have hold := hv h p (by rwa [State.taken, hcode])
  rw [hcode] at hold
  rw [hcur]
  simp only [State.setCode, Function.update_self]
  rcases hold with hq | hsp
  · exact .inl (quick_unfold hc (fun q hq ↦ hs.runs h q hq) hw hp' hr hq)
  · rcases hsp.code_or_quick hs hl hcode hr hrun hiter with hsp' | ⟨-, hq⟩
    · exact .inr hsp'
    · exact .inl hq

include hs hl hcode in
/-- A lock of a process is taken to be given back at once, or for a process that is spared. -/
theorem leaving_of_lock (hi : i = lock (.process p))
    (hparent : ∀ k', k = setParent p :: k' → (s.process p).state ≠ .Sleeping) :
    Quick p k ∨ Spared s (s.cpu h).current p := by
  subst hi
  have hw : WF (s.cpu h).current (lock (.process p) :: k) := hcode ▸ hs.wf _
  obtain ⟨l, ha⟩ := hl p
  rcases hw.1.2 with ⟨c, k', hk⟩ | ⟨-, hq | ht | ⟨k', hk⟩⟩
  · right
    refine ha.spared (.inr (ha.eq_thread ?_))
    have : 0 < woken p (s.code (s.cpu h).current) := by
      rw [woken_pos, hcode, hk]
      exact ⟨c, by simp [wakeRound]⟩
    omega
  · exact .inl hq
  · -- a process that takes its own lock is not parked
    right
    have hrunning : (s.process p).state = .Running := by
      refine (hs.running h p ht).2.resolve_right fun hpark ↦ ?_
      rw [← ht, hcode] at hpark
      exact hpark
    exact ha.spared (.inl (ha.running (.inl hrunning)))
  · exact .inr (ha.spared_of_awake (hparent k' hk))

include hs hl hv hcode hr hrun hiter in
/-- The locks that the hart itself holds after it has taken or released one or has switched. -/
theorem Leaving.control (hc : controls i = true)
    (hparent : ∀ p k', i = lock (.process p) → k = setParent p :: k' →
      (s.process p).state ≠ .Sleeping)
    (hp : .process p ∈ (r.1.setCode (s.cpu h).current (r.2 ++ k)).taken h) :
    Quick p ((r.1.setCode (s.cpu h).current (r.2 ++ k)).code (r.1.cpu h).current) ∨
      Spared (r.1.setCode (s.cpu h).current (r.2 ++ k)) (r.1.cpu h).current p := by
  have hw : WF (s.cpu h).current (i :: k) := hcode ▸ hs.wf _
  have hsp : (∀ site, i ≠ enroll site p) → Spared s (s.cpu h).current p →
      Spared (r.1.setCode (s.cpu h).current (r.2 ++ k)) (s.cpu h).current p := fun hi hsp ↦
    hsp.code hcode hr hiter fun site hi' ↦ absurd hi' (hi site)
  have hold := hv h p
  rw [hcode, State.taken, hcode] at hold
  have hx := exec_of_controls hc hr
  cases i with
  | lock l =>
    simp only [exec] at hx
    split at hx <;> cases hx
    have hcur : ((s.acquire h l).cpu h).current = (s.cpu h).current := by
      simp [State.acquire, State.setCpu, Cpu.push]
    have hp' : .process p ∈ held (s.cpu h).current k := by
      simpa [State.taken, State.setCode, State.acquire, State.setCpu, Cpu.push] using hp
    rw [hcur]
    simp only [State.setCode, List.nil_append, Function.update_self]
    rcases eq_or_ne l (.process p) with rfl | hl'
    · exact (leaving_of_lock hs hl hcode rfl fun k' ↦ hparent p k' rfl).imp_right (hsp (by simp))
    · have hmem : .process p ∈ held (s.cpu h).current (lock l :: k) :=
        (List.mem_erase_of_ne (Ne.symm hl')).mpr hp'
      exact .inr (hsp (by simp) ((hold hmem).resolve_left id))
  | unlock l =>
    simp only [exec] at hx
    split at hx <;> cases hx
    have hcur : ((s.release h l).cpu h).current = (s.cpu h).current := by
      simp [State.release, State.setCpu, Cpu.pop]
    have hp' : .process p ∈ held (s.cpu h).current k := by
      simpa [State.taken, State.setCode, State.release, State.setCpu, Cpu.pop] using hp
    have hne : l ≠ .process p := by
      rintro rfl
      have := hs.nodup h
      rw [State.taken, hcode] at this
      exact (List.nodup_cons.mp this).1 hp'
    rw [hcur]
    simp only [State.setCode, List.nil_append, Function.update_self]
    exact (hold (List.mem_cons_of_mem _ hp')).imp (fun hq ↦ hq.resolve_left hne) (hsp (by simp))
  | switchBack q =>
    cases hx
    have ht : (s.cpu h).current = .proc q := hw.1.1
    have hafter := hs.after h q (hs.runs h q ht)
    have hcode' : ∀ x, (((s.setCpu h fun c ↦ { c with current := .sched h }).setCode
        (s.cpu h).current x).code (.sched h)) = afterSwitch q := by
      simpa [State.setCode, State.setCpu, ht] using hafter
    have hp' : .process p ∈ held (.sched h) (afterSwitch q) := by
      rw [← hcode' ([] ++ k)]
      simpa [State.taken, State.setCode, State.setCpu] using hp
    have hcur : ((s.setCpu h fun c ↦ { c with current := .sched h }).cpu h).current =
        .sched h := by
      simp [State.setCpu]
    left
    rw [hcur, hcode']
    rw [wf_afterSwitch.2, List.mem_singleton] at hp'
    cases hp'
    exact .inl rfl
  | switchTo q =>
    cases hx
    obtain ⟨⟨g, ht⟩, -⟩ := hw.1
    have hidle : ∀ g, (s.cpu g).current ≠ .proc q := fun g hg ↦
      hs.process_ne_of_switchTo hcode (hs.runs g q hg)
    obtain ⟨hheld, hquick⟩ := hs.suspended q hidle
    have hcode' : ∀ x, (((s.setCpu h fun c ↦
        { c with process := some q, current := .proc q }).setCode (s.cpu h).current x).code
          (.proc q)) = s.code (.proc q) := by
      simp [State.setCode, State.setCpu, ht]
    have hp' : .process p ∈ held (.proc q) (s.code (.proc q)) := by
      rw [← hcode' ([] ++ k)]
      simpa [State.taken, State.setCode, State.setCpu] using hp
    have hcur : ((s.setCpu h fun c ↦ { c with process := some q, current := .proc q }).cpu
        h).current = .proc q := by
      simp [State.setCpu]
    left
    rw [hcur, hcode']
    rw [hheld, List.mem_singleton] at hp'
    cases hp'
    exact hquick
  | clearProcess =>
    cases hx
    have hcur : ((s.setCpu h fun c ↦ { c with process := none }).cpu h).current =
        (s.cpu h).current := by
      simp [State.setCpu]
    have hp' : .process p ∈ held (s.cpu h).current k := by
      simpa [State.taken, State.setCode, State.setCpu] using hp
    rw [hcur]
    simp only [State.setCode, List.nil_append, Function.update_self]
    exact (hold hp').imp id (hsp (by simp))
  | _ => cases hc

include hs hl hv hcode hr hrun hiter in
/-- A step of the code keeps the locks of processes in order. -/
theorem Leaving.code
    (hparent : ∀ p k', i = lock (.process p) → k = setParent p :: k' →
      (s.process p).state ≠ .Sleeping) :
    Leaving (r.1.setCode (s.cpu h).current (r.2 ++ k)) := by
  intro g p hp
  rcases eq_or_ne g h with rfl | hg
  · cases hc : controls i with
    | false => exact hv.plain hs hl hcode hr hrun hiter hc hp
    | true => exact hv.control hs hl hcode hr hrun hiter hc hparent hp
  · exact hv.other hs hl hcode hr hrun hiter hg hp

end

/-- An interrupt keeps the locks of processes in order. -/
theorem Leaving.interrupt (hs : Inv s) (hv : Leaving s) (hk : handler s h e = some k)
    (hsie : (s.cpu h).sie = true) :
    Leaving ((s.setCpu h fun c ↦ { c with sie := false }).setCode (s.cpu h).current
      (k ++ sret :: s.code (s.cpu h).current)) := by
  have hframe := hs.toFrame.interrupt hk hsie
  intro g p hp
  rw [← hframe.holds g] at hp
  have hp' : .process p ∈ s.taken g := (hs.holds g _).mp hp
  rcases eq_or_ne g h with rfl | hg
  · rw [hs.taken_of_sie hsie] at hp'
    cases hp'
  · have hne := hs.current_ne hg
    have hcur : (((s.setCpu h fun c ↦ { c with sie := false }).setCode (s.cpu h).current
        (k ++ sret :: s.code (s.cpu h).current)).cpu g).current = (s.cpu g).current := by
      simp [State.setCode, State.setCpu, hg]
    rw [hcur]
    refine (hv g p hp').imp (fun hq ↦ ?_) fun hsp ↦ ⟨fun c hc ↦ ?_, fun t ht ↦ ?_⟩
    · simpa [State.setCode, State.setCpu, hne] using hq
    · refine hsp.1 c fun hlag ↦ hc (hlag.imp fun t ht ↦ ?_)
      rcases eq_or_ne t (s.cpu h).current with rfl | hne
      · simpa [State.setCode, lag_handler hk] using ht
      · simpa [State.setCode, State.setCpu, hne] using ht
    · rcases eq_or_ne t (s.cpu h).current with rfl | hne
      · simpa [State.setCode, owed_handler hs.toFrame hk hsie] using hsp.2 _ ht
      · simpa [State.setCode, State.setCpu, hne] using hsp.2 t ht

end

/-- Every ordered step keeps the invariants. -/
theorem Leaving.step {s u : State} {e : Hart × Event} (hs : Inv s ∧ Ledger s ∧ Leaving s)
    (ho : Ordered s e) (hu : step s e = some u) : Inv u ∧ Ledger u ∧ Leaving u := by
  obtain ⟨hs, hl, hv⟩ := hs
  obtain ⟨hs', hl'⟩ := Ledger.step ⟨hs, hl⟩ ho.1 hu
  refine ⟨hs', hl', ?_⟩
  obtain ⟨h, e⟩ := e
  rcases step_cases hu with ⟨k, hk, hsie, rfl⟩ | ⟨i, k, r, hcode, hi, hr, rfl⟩
  · exact hv.interrupt hs hk hsie
  · refine hv.code hs hl hcode hr (fun p hp ↦ (ho.1.1 p (hp ▸ hi)).2)
      (fun c hc ↦ ho.1.2 c (hc ▸ hi)) fun p k' hp hk' ↦ ?_
    subst hp hk'
    exact ho.2 p k' hi hcode

/-- No hart that holds the scheduler lock waits for the lock of a process whose holder waits
for the scheduler lock, in any run in which the second registration in `run` finds no `Ready`
or `Sleeping` process, no two loops over one list overlap, and `reparent` takes the lock of
no `Sleeping` child. -/
theorem no_deadlock_of_ordered {n : Nat} {bucket : Chan → Nat} {s : State}
    (hrun : Run step Ordered (boot n bucket) s) : ¬ Deadlocked s := by
  have hboot : Leaving (boot n bucket) := fun h p hp ↦ by
    rw [← (Inv.boot n bucket).holds] at hp
    cases hp
  obtain ⟨hs, hl, hv⟩ := hrun.invariant (I := fun s ↦ Inv s ∧ Ledger s ∧ Leaving s)
    ⟨Inv.boot n bucket, Ledger.boot n bucket, hboot⟩ fun _ _ _ hs ho hu ↦ Leaving.step hs ho hu
  rintro ⟨h, g, p, k, k', hsched, hcode, hproc, hcode'⟩
  have hw : WF (s.cpu h).current (lock (.process p) :: k) := hcode ▸ hs.wf _
  have hmem := (hs.holds h _).mp hsched
  rw [State.taken, hcode] at hmem
  have hround : 0 < woken p (s.code (s.cpu h).current) := by
    rcases hw.1.2 with ⟨c, k'', hk⟩ | ⟨hnot, -⟩
    · rw [woken_pos, hcode, hk]
      exact ⟨c, by simp [wakeRound]⟩
    · exact absurd (List.mem_of_mem_erase hmem) hnot
  have hne : (s.cpu h).current ≠ (s.cpu g).current := by
    intro heq
    rw [heq, hcode'] at hcode
    cases hcode
  rcases hv g p ((hs.holds g _).mp hproc) with hq | hsp
  · rw [hcode'] at hq
    exact hq
  · rw [hsp.2 _ hne] at hround
    omega

section

/-- A tame step in which `reparent` takes the lock of no `Sleeping` child, as a test. -/
def Tidy (s : State) (e : Hart × Event) : Bool :=
  Tame s e && match s.code (s.cpu e.1).current with
    | .lock (.process q) :: .setParent _ :: _ => (s.process q).state ≠ .Sleeping
    | _ => true

theorem ordered_of_tidy {s : State} {e : Hart × Event} (h : Tidy s e) : Ordered s e := by
  rw [Tidy, Bool.and_eq_true] at h
  refine ⟨proper_of_tame h.1, fun q k _ hcode ↦ ?_⟩
  simpa [hcode] using h.2

/-- Process 0 sleeps and is switched out, and the interrupt handler of hart 1 is about to
read its list. -/
def napping : State :=
  final step (boot 2 fun _ ↦ 0) (goes 1 1 ++ goes 0 10 ++ [(0, .lock 0)] ++ goes 0 1 ++
    [(0, .sleep (.object 0))] ++ goes 0 11 ++ [(1, .device 0 (.object 0))] ++ goes 1 2)

/-- The handler wakes process 0 and hart 1 dispatches it, before `run` on hart 0 comes to
register it again. -/
theorem no_deadlock_after_wakeup : ∃ s, Run step Ordered (boot 2 fun _ ↦ 0) s ∧
    (s.cpu 1).process = some 0 ∧ ¬ Deadlocked s := by
  have hrun : Run step (fun s e ↦ Tidy s e ∧ Listless s e) (boot 2 fun _ ↦ 0) napping :=
    run_final (by decide +kernel) (by decide +kernel)
  have hidle := idle_of_listless (hrun.mono fun _ _ h ↦ h.2)
  have hread : Ordered napping (1, .go) := by
    have hi : executes napping (1, .go) = some (iterate (.object 0)) := by decide +kernel
    refine ⟨⟨fun p hp ↦ ?_, fun c _ ↦ hidle c⟩, fun q k hq ↦ ?_⟩
    · rw [hi] at hp
      cases hp
    · rw [hi] at hq
      cases hq
  have hafter : Run step (fun s e ↦ Tidy s e) (final step napping [(1, .go)])
      (final step (final step napping [(1, .go)]) (goes 1 19 ++ goes 0 3)) :=
    run_final (by decide +kernel) (by decide +kernel)
  have hall := ((hrun.mono fun _ _ h ↦ ordered_of_tidy h.1).tail hread
    (step_final (by decide +kernel))).trans (hafter.mono fun _ _ ↦ ordered_of_tidy)
  exact ⟨_, hall, by decide +kernel, no_deadlock_of_ordered hall⟩

/-- Process 0 is in the list of its channel twice. Hart 0 dispatches it after the first round
of the `wakeup` on hart 1, and a timer interrupt makes it yield: it holds its lock and waits
for the scheduler lock, which hart 1 holds in the second round. -/
theorem deadlock_after_double_registration :
    ∃ s, Run step (fun _ _ ↦ True) (boot 2 fun _ ↦ 0) s ∧ Deadlocked s := by
  have hrun : Run step (fun _ _ ↦ True) (boot 2 fun _ ↦ 0) (final step (boot 2 fun _ ↦ 0)
      (goes 1 1 ++ goes 0 10 ++ [(0, .lock 0)] ++ goes 0 1 ++ [(0, .sleep (.object 0))] ++
        goes 0 14 ++ [(1, .device 0 (.object 0))] ++ goes 1 9 ++ goes 0 4 ++ goes 1 2 ++
        goes 0 6 ++ [(0, .timer)] ++ goes 0 1)) :=
    run_final (by decide +kernel) (by decide +kernel)
  have hhead : ∀ (k : List Instr) (i : Instr), k.head? = some i → k = i :: k.tail :=
    fun k i hk ↦ (List.cons_head?_tail hk).symm
  exact ⟨_, hrun, 1, 0, 0, _, _, by decide +kernel, hhead _ _ (by decide +kernel),
    by decide +kernel, hhead _ _ (by decide +kernel)⟩

end
end Orfos.Sched
