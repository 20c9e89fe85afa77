import Orfos.Sched.Invariant

/-!
# One hart for each process

`Life` ties the state of a process to the thread that executes it: an executed process is
`Running` or on its way out, a dispatch is of a process that no hart runs, and a process
that `fork` has not made `Ready` is known to nobody. With `Frame` it is kept by every step
that marks no `Running` process, so no process runs on two harts.
-/

namespace Orfos.Sched

open Orfos.Base Instr

/-- A process that `run` or `wakeup` may mark. -/
def Known (s : State) (p : Proc) : Prop :=
  (∃ c, p ∈ s.sleepers c) ∨ ∃ t, markRunning p ∈ s.code t ∨ ∃ c, wake c p ∈ s.code t

/-- The state of a process and the threads. -/
structure Life (s : State) : Prop where
  running : ∀ h p, (s.cpu h).current = .proc p → (s.process p).state ≠ .Used ∧
    ((s.process p).state = .Running ∨ Parked p (s.code (.proc p)))
  dispatching : ∀ t p, switchTo p ∈ s.code t → markRunning p ∈ s.code t ∨
    s.code t = switchTo p :: afterSwitch p ∧ (s.process p).state = .Running ∧
      ∀ g, (s.cpu g).process ≠ some p
  forks : ∀ t q, q ∈ forked (s.code t) → (s.process q).state = .Used ∧ q < s.next
  forkOnce : ∀ t t' q, q ∈ forked (s.code t) → q ∈ forked (s.code t') → t = t'
  forkNodup : ∀ t, (forked (s.code t)).Nodup
  fresh : ∀ q, s.next ≤ q → (s.process q).state = .Used
  known : ∀ p, Known s p → (s.process p).state ≠ .Used

/-- The structural invariant. -/
structure Inv (s : State) : Prop extends Frame s, Life s

namespace Inv

variable {s u : State} {h g : Hart} {p q : Proc} {i : Instr} {k : List Instr} {e : Event}
  {r : State × List Instr} {st : ProcessState}

/-- A process that is executed or switched out holds its lock, unless it is `Running`. -/
theorem running_or_taken (hs : Inv s) (hp : (s.cpu g).process = some p) :
    (s.cpu g).current = .proc p ∧ (s.process p).state = .Running ∨ .process p ∈ s.taken g := by
  cases ht : (s.cpu g).current with
  | sched f =>
    obtain rfl := hs.home g f ht
    right
    rw [State.taken, ht, hs.after f p hp, wf_afterSwitch.2]
    exact List.mem_cons_self
  | proc q =>
    rw [hs.runs g q ht] at hp
    cases hp
    rcases (hs.running g p ht).2 with hr | hr
    · exact .inl ⟨rfl, hr⟩
    · right
      rw [State.taken, ht]
      exact held_of_parked (hs.wf _) hr

/-- `run` and `wakeup` hold the lock of the process that they mark. -/
theorem taken_of_marked (hs : Inv s) (hcode : s.code (s.cpu h).current = i :: k)
    (hm : marked i = some p) : .process p ∈ s.taken h := by
  have hw : WF (s.cpu h).current (i :: k) := hcode ▸ hs.wf _
  rw [State.taken, hcode]
  cases i <;> simp only [marked, Option.some.injEq, reduceCtorEq] at hm
  · obtain rfl := hm
    obtain ⟨k', hk⟩ := hw.1
    rw [hk]
    simp [wakeRound, registerProcess, held]
  · obtain rfl := hm
    obtain ⟨⟨f, hf⟩, hk⟩ := hw.1
    rw [hf, hk]
    simp [held, afterSwitch]

/-- No hart runs a process that `run` or `wakeup` may mark. -/
theorem process_ne_of_marked (hs : Inv s) (hcode : s.code (s.cpu h).current = i :: k)
    (hm : marked i = some p) (hsane : (s.process p).state ≠ .Running) :
    (s.cpu g).process ≠ some p := by
  intro hp
  rcases hs.running_or_taken hp with ⟨-, hr⟩ | hl
  · exact hsane hr
  · obtain rfl := hs.holder_unique hl (hs.taken_of_marked hcode hm)
    -- the marking code is neither that of a parked process nor that after a switch
    cases ht : (s.cpu g).current with
    | sched f =>
      obtain rfl := hs.home g f ht
      have := hs.after f p hp
      rw [← ht, hcode] at this
      cases i <;> simp [marked, afterSwitch] at this hm
    | proc q =>
      rw [hs.runs g q ht] at hp
      cases hp
      rcases (hs.running g p ht).2 with hr | hr
      · exact hsane hr
      · rw [← ht, hcode] at hr
        cases i <;> simp [marked, Parked] at hr hm

/-- The steps of a process that mark it. -/
theorem own_of_writes (hs : Inv s) (hcode : s.code (s.cpu h).current = i :: k)
    (hw : writes i = some (p, st)) (hm : marked i = none) (hu : (s.process p).state ≠ .Used) :
    (s.cpu h).current = .proc p ∧ Parked p k := by
  have hwf : WF (s.cpu h).current (i :: k) := hcode ▸ hs.wf _
  cases i <;> simp only [writes, marked, Option.some.injEq, reduceCtorEq, Prod.mk.injEq] at hw hm
  case forkReady q =>
    obtain ⟨rfl, -⟩ := hw
    exact absurd (hs.forks _ q (by rw [hcode]; simp [forked])).1 hu
  all_goals
    obtain ⟨rfl, -⟩ := hw
    obtain ⟨ht, k', hk⟩ := hwf.1
    exact ⟨ht, by simp [hk, Parked]⟩

/-- Only `fork` marks a process that is not in use yet. -/
theorem forkReady_of_writes (hs : Inv s) (hcode : s.code (s.cpu h).current = i :: k)
    (hw : writes i = some (p, st)) (hu : (s.process p).state = .Used) : i = forkReady p := by
  have hwf : WF (s.cpu h).current (i :: k) := hcode ▸ hs.wf _
  cases i <;> simp only [writes, Option.some.injEq, reduceCtorEq, Prod.mk.injEq] at hw
  case forkReady => rw [hw.1]
  case wake c q =>
    obtain ⟨rfl, -⟩ := hw
    exact absurd hu (hs.known q (.inr ⟨_, .inr ⟨c, by rw [hcode]; simp⟩⟩))
  case markRunning q =>
    obtain ⟨rfl, -⟩ := hw
    exact absurd hu (hs.known q (.inr ⟨_, .inl (by rw [hcode]; simp)⟩))
  all_goals
    obtain ⟨rfl, -⟩ := hw
    exact absurd hu (hs.running h _ hwf.1.1).1

/-- A dispatch that has marked its process holds the lock of it. -/
theorem taken_of_switchTo (hs : Inv s) {t : Thread}
    (hcode : s.code t = switchTo p :: afterSwitch p) :
    ∃ h, t = .sched h ∧ (s.cpu h).current = t ∧ .process p ∈ s.taken h := by
  have hw : WF t (switchTo p :: afterSwitch p) := hcode ▸ hs.wf t
  obtain ⟨h, rfl⟩ := hw.1.1
  have hcur : (s.cpu h).current = .sched h := by
    cases ht : (s.cpu h).current with
    | sched f => rw [hs.home h f ht]
    | proc q =>
      have := hs.after h q (hs.runs h q ht)
      rw [hcode] at this
      simp [afterSwitch] at this
  refine ⟨h, rfl, hcur, ?_⟩
  rw [State.taken, hcur, hcode]
  simp [held, afterSwitch]

/-- No hart runs a process that a hart is about to switch to. -/
theorem process_ne_of_switchTo (hs : Inv s) (hcode : s.code (s.cpu h).current = switchTo p :: k) :
    (s.cpu g).process ≠ some p := by
  have hw : WF (s.cpu h).current (switchTo p :: k) := hcode ▸ hs.wf _
  rcases hs.dispatching _ p (by rw [hcode]; simp) with hm | ⟨-, -, hproc⟩
  · rw [hcode, hw.1.2] at hm
    simp [afterSwitch, registerProcess, scan] at hm
  · exact hproc g

/-- A step marks the process whose state it writes, if it marks any. -/
theorem marked_of_writes (hw : writes i = some (p, st)) :
    marked i = none ∨ marked i = some p := by
  cases i <;> simp_all [marked, writes]

section

variable (hs : Inv s) (hcode : s.code (s.cpu h).current = i :: k)
  (hr : unfold s h i e = some r) (hsane : ∀ p, marked i = some p → (s.process p).state ≠ .Running)

include hcode hr in
/-- What the code of a thread holds after a step. -/
theorem mem_code {j : Instr} {t : Thread}
    (hj : j ∈ (r.1.setCode (s.cpu h).current (r.2 ++ k)).code t) :
    t = (s.cpu h).current ∧ j ∈ r.2 ∨
      j ∈ s.code t ∧ (t = (s.cpu h).current → j ∈ k) := by
  rcases eq_or_ne t (s.cpu h).current with rfl | ht
  · simp only [State.setCode, Function.update_self, List.mem_append] at hj
    rcases hj with hj | hj
    · exact .inl ⟨rfl, hj⟩
    · exact .inr ⟨hcode ▸ List.mem_cons_of_mem _ hj, fun _ ↦ hj⟩
  · simp only [State.setCode, Function.update_of_ne ht, code_unfold hr] at hj
    exact .inr ⟨hj, fun h ↦ absurd h ht⟩

include hs hcode hr in
/-- An executed process that does not mark itself stays `Running` or parked. -/
private theorem parked_code (hcur : (s.cpu g).current = .proc p)
    (hback : g = h → ∀ q, i ≠ switchBack q) :
    (s.process p).state = .Running ∨
      Parked p ((r.1.setCode (s.cpu h).current (r.2 ++ k)).code (.proc p)) := by
  rcases (hs.running g p hcur).2 with hrun | hpark
  · exact .inl hrun
  · right
    rcases eq_or_ne g h with rfl | hg
    · rw [hcur] at hcode ⊢
      rw [hcode] at hpark
      rcases parked_unfold (hs.runs g p hcur) hr hpark with hi | hk
      · exact absurd hi (hback rfl p)
      · simpa [State.setCode] using hk
    · have ht : Thread.proc p ≠ (s.cpu h).current := hcur ▸ hs.current_ne hg
      simpa [State.setCode, ht, code_unfold hr] using hpark

include hr in
private theorem in_use_code (hq : (s.process q).state ≠ .Used) :
    (r.1.process q).state ≠ .Used := by
  rw [state_unfold hr q]
  split
  case h_1 p st hw =>
    split
    · cases i <;> simp [writes] at hw <;> simp [← hw.2]
    · exact hq
  case h_2 => exact hq

include hs hcode hr hsane in
private theorem running_code (hp : (r.1.cpu g).current = .proc p) :
    (r.1.process p).state ≠ .Used ∧ ((r.1.process p).state = .Running ∨
      Parked p ((r.1.setCode (s.cpu h).current (r.2 ++ k)).code (.proc p))) := by
  rcases (process_unfold hr g p).2 hp with ⟨hcur, hback⟩ | ⟨rfl, rfl⟩
  · refine ⟨in_use_code hr (hs.running g p hcur).1, ?_⟩
    rw [state_unfold hr p]
    split
    case h_1 q st hw =>
      split
      · -- the process marks itself and is parked from here on
        subst q
        have hm : marked i = none := (marked_of_writes hw).resolve_right fun hm ↦
          hs.process_ne_of_marked hcode hm (hsane p hm) (hs.runs g p hcur)
        obtain ⟨hown, hpark⟩ := hs.own_of_writes hcode hw hm (hs.running g p hcur).1
        right
        rw [hown, unfold_of_writes hw hr]
        simpa [State.setCode] using hpark
      · exact hs.parked_code hcode hr hcur hback
    case h_2 => exact hs.parked_code hcode hr hcur hback
  · have hw : WF (s.cpu g).current (switchTo p :: k) := hcode ▸ hs.wf _
    obtain ⟨-, rfl⟩ := hw.1
    have hrun : (s.process p).state = .Running := by
      rcases hs.dispatching _ p (by rw [hcode]; simp) with hm | ⟨-, hrun, -⟩
      · rw [hcode] at hm
        simp [afterSwitch, registerProcess, scan] at hm
      · exact hrun
    have hst := state_unfold hr p
    simp only [writes, hrun] at hst
    simp [hst]

include hs hcode hr hsane in
private theorem dispatching_code {t : Thread}
    (hp : switchTo p ∈ (r.1.setCode (s.cpu h).current (r.2 ++ k)).code t) :
    markRunning p ∈ (r.1.setCode (s.cpu h).current (r.2 ++ k)).code t ∨
      (r.1.setCode (s.cpu h).current (r.2 ++ k)).code t = switchTo p :: afterSwitch p ∧
        (r.1.process p).state = .Running ∧ ∀ g, (r.1.cpu g).process ≠ some p := by
  rcases mem_code hcode hr hp with ⟨rfl, hj⟩ | ⟨hj, hk⟩
  · left
    obtain ⟨-, -, hdisp⟩ := dispatch_of_unfold hr (.inr hj)
    simp [State.setCode, hdisp, dispatch]
  · rcases hs.dispatching t p hj with hm | ⟨hto, hrun, hproc⟩
    · rcases eq_or_ne t (s.cpu h).current with rfl | ht
      · rw [hcode] at hm
        rcases List.mem_cons.mp hm with rfl | hm
        · -- the process has just been marked
          have hw : WF (s.cpu h).current (markRunning p :: k) := hcode ▸ hs.wf _
          have hst := state_unfold hr p
          simp only [writes, if_true] at hst
          refine .inr ⟨?_, hst, fun g hg ↦ ?_⟩
          · rw [unfold_of_writes rfl hr, hw.1.2]
            simp [State.setCode]
          · rcases (process_unfold hr g p).1 hg with hg | ⟨-, hi⟩
            · exact hs.process_ne_of_marked hcode rfl (hsane p rfl) hg
            · cases hi
        · left
          simp [State.setCode, hm]
      · left
        simpa [State.setCode, ht, code_unfold hr] using hm
    · right
      have ht : t ≠ (s.cpu h).current := by
        rintro rfl
        rw [hcode] at hto
        cases hto
        simpa [afterSwitch, registerProcess, scan] using hk rfl
      refine ⟨by simpa [State.setCode, ht, code_unfold hr] using hto, ?_, fun g hg ↦ ?_⟩
      · rw [state_unfold hr p]
        split
        case h_1 q st hw =>
          split
          · subst q
            have hm : marked i = none :=
              (marked_of_writes hw).resolve_right fun hm ↦ hsane p hm hrun
            have hown := (hs.own_of_writes hcode hw hm (by simp [hrun])).1
            exact absurd (hs.runs h p hown) (hproc h)
          · exact hrun
        case h_2 => exact hrun
      · rcases (process_unfold hr g p).1 hg with hg | ⟨rfl, rfl⟩
        · exact hproc g hg
        · -- two dispatches of one process cannot both hold its lock
          have hw : WF (s.cpu g).current (switchTo p :: k) := hcode ▸ hs.wf _
          obtain ⟨f, -, hcur, hf⟩ := hs.taken_of_switchTo hto
          obtain ⟨f', ht', hcur', hf'⟩ := hs.taken_of_switchTo (hw.1.2 ▸ hcode)
          obtain rfl := hs.holder_unique hf hf'
          exact ht (hcur.symm.trans hcur')

include hs hcode hr in
private theorem forks_code {t : Thread}
    (hq : q ∈ forked ((r.1.setCode (s.cpu h).current (r.2 ++ k)).code t)) :
    q ∈ forked (s.code t) ∧ i ≠ forkReady q ∨
      t = (s.cpu h).current ∧ q = s.next ∧ e = .fork := by
  rcases eq_or_ne t (s.cpu h).current with rfl | ht
  · simp only [State.setCode, Function.update_self, forked_append, (forked_unfold hr).1,
      List.mem_append] at hq
    rcases hq with hq | hq
    · split at hq
      · exact .inr ⟨rfl, by simpa using hq, ‹_›⟩
      · cases hq
    · left
      have hnodup := hs.forkNodup (s.cpu h).current
      rw [hcode] at hnodup ⊢
      constructor
      · rw [mem_forked] at hq ⊢
        exact List.mem_cons_of_mem _ hq
      · rintro rfl
        exact (List.nodup_cons.mp hnodup).1 hq
  · left
    simp only [State.setCode, Function.update_of_ne ht, code_unfold hr] at hq
    refine ⟨hq, ?_⟩
    rintro rfl
    exact ht (hs.forkOnce _ _ q hq (by rw [hcode]; simp [forked]))

include hs hcode hr in
/-- A process that is not in use stays so until `fork` has made it `Ready`. -/
private theorem used_code (hq : (s.process q).state = .Used) (hi : i ≠ forkReady q) :
    (r.1.process q).state = .Used := by
  rw [state_unfold hr q]
  split
  case h_1 p st hw =>
    split
    · subst q
      exact absurd (hs.forkReady_of_writes hcode hw hq) hi
    · exact hq
  case h_2 => exact hq

include hs hcode hr in
private theorem known_code (hp : Known (r.1.setCode (s.cpu h).current (r.2 ++ k)) p) :
    (s.process p).state ≠ .Used := by
  rcases hp with ⟨c, hc⟩ | ⟨t, hm | ⟨c, hw⟩⟩
  · change p ∈ r.1.sleepers c at hc
    rcases sleepers_unfold hr c with hl | ⟨hl, -⟩ | ⟨site, q, -, hst, -, hl⟩
    · exact hs.known p (.inl ⟨c, hl ▸ hc⟩)
    · rw [hl] at hc
      cases hc
    · rw [hl, List.mem_append, List.mem_singleton] at hc
      rcases hc with hc | rfl
      · exact hs.known p (.inl ⟨c, hc⟩)
      · simp [hst]
  · rcases mem_code hcode hr hm with ⟨rfl, hj⟩ | ⟨hj, -⟩
    · simp [(dispatch_of_unfold hr (.inl hj)).2.1]
    · exact hs.known p (.inr ⟨t, .inl hj⟩)
  · rcases mem_code hcode hr hw with ⟨rfl, hj⟩ | ⟨hj, -⟩
    · exact hs.known p (.inl ⟨c, (wake_of_unfold hr hj).2⟩)
    · exact hs.known p (.inr ⟨t, .inr ⟨c, hj⟩⟩)

include hs hcode hr hsane in
/-- A step of the code keeps the invariant. -/
theorem code : Inv (r.1.setCode (s.cpu h).current (r.2 ++ k)) := by
  have hframe : Frame (r.1.setCode (s.cpu h).current (r.2 ++ k)) := by
    refine hs.toFrame.code hcode hr fun p hi g ↦ ?_
    subst hi
    exact hs.process_ne_of_switchTo hcode
  have hnext : s.next ≤ r.1.next := by
    rw [(forked_unfold hr).2]
    exact Nat.le_add_right _ _
  have hlt : ∀ t q, q ∈ forked (s.code t) → q < s.next := fun t q hq ↦ (hs.forks t q hq).2
  have hready : ∀ q, s.next ≤ q → i ≠ forkReady q := by
    rintro q hq rfl
    exact absurd (hlt _ q (by rw [hcode]; simp [forked])) (Nat.not_lt.mpr hq)
  refine ⟨hframe, fun g p ↦ hs.running_code hcode hr hsane,
    fun t p ↦ hs.dispatching_code hcode hr hsane, fun t q hq ↦ ?_, fun t t' q hq hq' ↦ ?_,
    fun t ↦ ?_, fun q hq ↦ ?_, fun p hp ↦ ?_⟩
  · rcases hs.forks_code hcode hr hq with ⟨hq, hi⟩ | ⟨rfl, rfl, rfl⟩
    · obtain ⟨h1, h2⟩ := hs.forks t q hq
      exact ⟨hs.used_code hcode hr h1 hi, Nat.lt_of_lt_of_le h2 hnext⟩
    · refine ⟨hs.used_code hcode hr (hs.fresh _ (Nat.le_refl _)) (hready _ (Nat.le_refl _)), ?_⟩
      change s.next < r.1.next
      rw [(forked_unfold hr).2]
      exact Nat.lt_succ_self _
  · rcases hs.forks_code hcode hr hq with ⟨h1, -⟩ | ⟨rfl, rfl, -⟩ <;>
      rcases hs.forks_code hcode hr hq' with ⟨h1', -⟩ | ⟨rfl, h2, -⟩
    · exact hs.forkOnce t t' q h1 h1'
    · subst q
      exact absurd (hlt t _ h1) (Nat.lt_irrefl _)
    · exact absurd (hlt t' _ h1') (Nat.lt_irrefl _)
    · rfl
  · rcases eq_or_ne t (s.cpu h).current with rfl | ht
    · have hsub : (forked k).Sublist (forked (s.code (s.cpu h).current)) := by
        rw [hcode, ← List.singleton_append, forked_append]
        exact List.sublist_append_right _ _
      have hk := hsub.nodup (hs.forkNodup _)
      have hnew : s.next ∉ forked k := fun hmem ↦
        absurd (hlt _ _ (hsub.subset hmem)) (Nat.lt_irrefl _)
      simp only [State.setCode, Function.update_self, forked_append, (forked_unfold hr).1]
      split
      · exact List.nodup_cons.mpr ⟨hnew, hk⟩
      · exact hk
    · simpa [State.setCode, ht, code_unfold hr] using hs.forkNodup t
  · have hle : s.next ≤ q := Nat.le_trans hnext hq
    exact hs.used_code hcode hr (hs.fresh q hle) (hready q hle)
  · exact in_use_code hr (hs.known_code hcode hr hp)

end

/-- An interrupt keeps the invariant. -/
theorem interrupt (hs : Inv s) (hk : handler s h e = some k) (hsie : (s.cpu h).sie = true) :
    Inv ((s.setCpu h fun c ↦ { c with sie := false }).setCode (s.cpu h).current
      (k ++ sret :: s.code (s.cpu h).current)) := by
  have hframe := hs.toFrame.interrupt hk hsie
  generalize hu : (s.setCpu h fun c ↦ { c with sie := false }).setCode (s.cpu h).current
    (k ++ sret :: s.code (s.cpu h).current) = u at hframe ⊢
  have htaken := hs.taken_of_sie hsie
  have hcpu : ∀ g, (u.cpu g).current = (s.cpu g).current ∧
      (u.cpu g).process = (s.cpu g).process := by
    intro g
    subst hu
    rcases eq_or_ne g h with rfl | hg <;> simp [State.setCpu, State.setCode, *]
  have hprocess : u.process = s.process := by
    subst hu
    rfl
  have hsleepers : u.sleepers = s.sleepers := by
    subst hu
    rfl
  have hnext : u.next = s.next := by
    subst hu
    rfl
  have hnew : forked k = [] ∧ ∀ p, markRunning p ∉ k ∧ switchTo p ∉ k ∧ ∀ c, wake c p ∉ k := by
    rcases handler_cases hk with rfl | ⟨p, -, rfl⟩ | ⟨m, c, rfl⟩ <;>
      simp [forked, yield, unregisterProcess, wakeup]
  have hcode : ∀ t, u.code t = s.code t ∨
      t = (s.cpu h).current ∧ u.code t = k ++ sret :: s.code t := by
    intro t
    subst hu
    rcases eq_or_ne t (s.cpu h).current with rfl | ht <;> simp [State.setCode, State.setCpu, *]
  have hforked : ∀ t, forked (u.code t) = forked (s.code t) := by
    intro t
    rcases hcode t with hc | ⟨-, hc⟩ <;> simp [hc, forked_append, hnew.1, forked]
  refine ⟨hframe, fun g p hp ↦ ?_, fun t p hp ↦ ?_, fun t q hq ↦ ?_, fun t t' q hq hq' ↦ ?_,
    fun t ↦ ?_, fun q hq ↦ ?_, fun p hp ↦ ?_⟩
  · rw [(hcpu g).1] at hp
    rw [hprocess]
    refine ⟨(hs.running g p hp).1, (hs.running g p hp).2.imp_right fun hpark ↦ ?_⟩
    rcases hcode (.proc p) with hc | ⟨ht, -⟩
    · rwa [hc]
    · -- a parked process holds its lock and takes no interrupt
      have := held_of_parked (hs.wf _) hpark
      rw [ht, ← State.taken, htaken] at this
      cases this
  · rcases hcode t with hc | ⟨ht, hc⟩
    · rw [hc] at hp ⊢
      simp only [hprocess, fun g ↦ (hcpu g).2]
      exact hs.dispatching t p hp
    · rw [hc] at hp
      have hp' : switchTo p ∈ s.code t := by
        simpa [(hnew.2 p).2.1] using hp
      rcases hs.dispatching t p hp' with hm | ⟨hto, -⟩
      · left
        simp [hc, hm]
      · obtain ⟨g, -, hcur, hg⟩ := hs.taken_of_switchTo hto
        obtain rfl : g = h := by
          by_contra hne
          exact hs.current_ne hne (hcur.trans ht)
        rw [htaken] at hg
        cases hg
  · rw [hforked] at hq
    rw [hprocess, hnext]
    exact hs.forks t q hq
  · rw [hforked] at hq hq'
    exact hs.forkOnce t t' q hq hq'
  · rw [hforked]
    exact hs.forkNodup t
  · rw [hnext] at hq
    rw [hprocess]
    exact hs.fresh q hq
  · rw [hprocess]
    refine hs.known p (hp.imp (.imp fun c hc ↦ hsleepers ▸ hc) (.imp fun t ht ↦ ?_))
    rcases hcode t with hc | ⟨-, hc⟩
    · rwa [hc] at ht
    · rw [hc] at ht
      simpa [(hnew.2 p).1, (hnew.2 p).2.2] using ht

/-- Every step that marks no `Running` process keeps the invariant. -/
theorem step (hs : Inv s) {e : Hart × Event} (hsane : Sane s e) (hu : step s e = some u) :
    Inv u := by
  obtain ⟨h, e⟩ := e
  rcases step_cases hu with ⟨k, hk, hsie, rfl⟩ | ⟨i, k, r, hcode, hi, hr, rfl⟩
  · exact hs.interrupt hk hsie
  · exact hs.code hcode hr fun p hm ↦ hsane p (by simp [hi, hm])

/-- The invariant holds when the harts enter `Scheduler::run`. -/
theorem boot (n : Nat) (bucket : Chan → Nat) : Inv (boot n bucket) := by
  have hcode : ∀ h, (Sched.boot n bucket).code (.sched h) = run ∨
      (Sched.boot n bucket).code (.sched h) = [] := by
    intro h
    by_cases hh : h < n
    · left
      simp [Sched.boot, hh]
    · right
      simp [Sched.boot, hh]
  have htaken : ∀ h, (Sched.boot n bucket).taken h = [] := by
    intro h
    change held (.sched h) ((Sched.boot n bucket).code (.sched h)) = []
    rcases hcode h with hc | hc <;> rw [hc]
    · exact wf_run.2
    · rfl
  have hmem : ∀ t, forked ((Sched.boot n bucket).code t) = [] ∧ ∀ p,
      switchTo p ∉ (Sched.boot n bucket).code t ∧ markRunning p ∉ (Sched.boot n bucket).code t ∧
        ∀ c, wake c p ∉ (Sched.boot n bucket).code t := by
    intro t
    cases t with
    | sched h => rcases hcode h with hc | hc <;> rw [hc] <;> simp [run, scan, forked]
    | proc p => simp [Sched.boot, forked]
  refine ⟨⟨fun t ↦ ?_, fun h g hg ↦ ?_, fun h p hp ↦ ?_, fun h p hp ↦ ?_, fun h g p hp ↦ ?_,
    fun h l ↦ ?_, fun h ↦ ?_, fun h ↦ ?_, fun h hsie ↦ ?_, fun p _ ↦ ?_⟩, fun h p hp ↦ ?_,
    fun t p hp ↦ ?_, fun t q hq ↦ ?_, fun t t' q hq ↦ ?_, fun t ↦ ?_, fun q hq ↦ ?_,
    fun p hp ↦ ?_⟩
  · cases t with
    | sched h =>
      rcases hcode h with hc | hc <;> rw [hc]
      · exact wf_run.1
      · trivial
    | proc p => exact wf_returnFork.1
  · exact (Thread.sched.inj hg).symm
  · cases hp
  · cases hp
  · cases hp
  · rw [htaken]
    simp [Sched.boot]
  · rw [htaken]
    exact List.nodup_nil
  · rw [htaken]
    rfl
  · cases hsie
  · exact ⟨wf_returnFork.2, trivial⟩
  · cases hp
  · exact absurd hp ((hmem t).2 p).1
  · rw [(hmem t).1] at hq
    cases hq
  · rw [(hmem t).1] at hq
    cases hq
  · rw [(hmem t).1]
    exact List.nodup_nil
  · have hne : q ≠ 0 := Nat.pos_iff_ne_zero.mp hq
    simp [Sched.boot, hne]
  · rcases hp with ⟨c, hc⟩ | ⟨t, hm | ⟨c, hw⟩⟩
    · simp [State.sleepers, Sched.boot, Lib.Table.empty, Lib.Table.lookup] at hc
    · exact absurd hm ((hmem t).2 p).2.1
    · exact absurd hw (((hmem t).2 p).2.2 c)

/-- The invariant holds along every run whose steps mark no `Running` process. -/
theorem of_run {n : Nat} {bucket : Chan → Nat}
    (hrun : Run Sched.step Sane (Sched.boot n bucket) s) : Inv s :=
  hrun.invariant (Inv.boot n bucket) fun _ _ _ hs hsane hu ↦ hs.step hsane hu

end Inv

/-- No two harts are in the context of one process, and none is about to switch into a
context that another one executes. -/
def Exclusive (s : State) : Prop :=
  (∀ h g p, (s.cpu h).process = some p → (s.cpu g).process = some p → h = g) ∧
    ∀ h g p k, s.code (s.cpu h).current = switchTo p :: k → (s.cpu g).current ≠ .proc p

/-- A process never runs on two harts, in any run in which `run` marks a process `Running`,
and `wakeup` marks one `Ready`, only if it is not `Running` at that step. -/
theorem exclusive_of_sane {n : Nat} {bucket : Chan → Nat} {s : State}
    (hrun : Run step Sane (boot n bucket) s) : Exclusive s := by
  have hs := Inv.of_run hrun
  refine ⟨hs.alone, fun h g p k hcode hcur ↦ ?_⟩
  exact hs.process_ne_of_switchTo hcode (hs.runs g p hcur)

/-- Hart `h` goes on for `n` steps. -/
def goes (h : Hart) (n : Nat) : List (Hart × Event) := List.replicate n (h, .go)

-- Ten steps take hart 0 from the boot into process 0.
example : ((final step (boot 2 fun _ ↦ 0) (goes 0 10)).cpu 0).process = some 0 := by
  decide +kernel

/-- Hart 0 runs process 0, which forks, and hart 1 dispatches the child. -/
theorem exclusive_after_fork :
    ∃ s, Run step Sane (boot 2 fun _ ↦ 0) s ∧ (s.cpu 0).process = some 0 ∧
      (s.cpu 1).process = some 1 ∧ Exclusive s := by
  have hrun : Run step Sane (boot 2 fun _ ↦ 0) (final step (boot 2 fun _ ↦ 0)
      (goes 0 10 ++ [(0, .fork)] ++ goes 0 9 ++ goes 1 8)) :=
    run_final (by decide +kernel) (by decide +kernel)
  exact ⟨_, hrun, by decide +kernel, by decide +kernel, exclusive_of_sane hrun⟩

/-- The process that hart 0 yields is in the queue twice, since `reschedule` and `run` both
register it. Hart 1 checks it while it is `Ready`, hart 0 dispatches it again, and once it
has released its lock hart 1 dispatches it too. -/
theorem not_exclusive_after_yield :
    ∃ s, Run step (fun _ _ ↦ True) (boot 2 fun _ ↦ 0) s ∧ ¬ Exclusive s := by
  have hrun : Run step (fun _ _ ↦ True) (boot 2 fun _ ↦ 0) (final step (boot 2 fun _ ↦ 0)
      (goes 0 10 ++ [(0, .yield)] ++ goes 0 19 ++ goes 1 5 ++ goes 0 5 ++ goes 1 3)) :=
    run_final (by decide +kernel) (by decide +kernel)
  refine ⟨_, hrun, fun hex ↦ ?_⟩
  exact absurd (hex.1 0 1 0 (by decide +kernel) (by decide +kernel)) (by decide)

end Orfos.Sched
