import Orfos.Sched.Accounts

/-!
# Single enrolment

At any time one place answers for a process: the ready queue, the list of a channel, a
thread that has a duty towards it, or nobody while it runs. `Account` says this of one
process, together with what the place says about its state. Every step keeps it if the
second registration in `run` finds a process that is neither `Ready` nor `Sleeping`, and no
`wakeup` reads a list that another one is about to erase.
-/

namespace Orfos.Sched

open Orfos.Base Instr

/-- Who answers for a process. -/
inductive Place where
  | nobody
  | queue
  | list (c : Chan)
  | thread (t : Thread)
  deriving DecidableEq

/-- The place `l` alone answers for process `p`. Lists that are about to be erased do not
count. -/
structure Account (s : State) (p : Proc) (l : Place) : Prop where
  queue : s.readyQueue.count p ≤ if l = .queue then 1 else 0
  list : ∀ c, ¬ Busy s c → (s.sleepers c).count p ≤ if l = .list c then 1 else 0
  thread : ∀ t, owed t p (s.code t) + woken p (s.code t) ≤ if l = .thread t then 1 else 0
  running : (s.process p).state = .Running ∨ (s.process p).state = .Used → l = .nobody
  queued : p ∈ s.readyQueue → (s.process p).state = .Ready
  listed : ∀ c, ¬ Busy s c → p ∈ s.sleepers c → (s.process p).state = .Sleeping
  waking : ∀ t, 0 < woken p (s.code t) → (s.process p).state = .Sleeping
  readying : ∀ t, t ≠ .proc p → 0 < owed t p (s.code t) → (s.process p).state = .Ready

/-- Every process has its place. -/
def Ledger (s : State) : Prop := ∀ p, ∃ l, Account s p l

/-- The second registration in `run` has nothing to do, and a `wakeup` reads no list that
another `wakeup` is about to erase. -/
def Proper (s : State) (e : Hart × Event) : Prop :=
  (∀ p, executes s e = some (enroll .run p) →
    (s.process p).state ≠ .Ready ∧ (s.process p).state ≠ .Sleeping) ∧
  ∀ c, executes s e = some (iterate c) → ¬ Busy s c

namespace Account

variable {s u : State} {h : Hart} {t : Thread} {p q : Proc} {l : Place} {i : Instr}
  {k : List Instr} {e : Event} {r : State × List Instr}

/-- An account outlives a step that does nothing for the process. -/
theorem mono (ha : Account s p l)
    (hqueue : u.readyQueue.count p ≤ s.readyQueue.count p)
    (hlist : ∀ c, ¬ Busy u c → (u.sleepers c).count p = 0 ∨
      ¬ Busy s c ∧ (u.sleepers c).count p ≤ (s.sleepers c).count p)
    (howed : ∀ t, owed t p (u.code t) ≤ owed t p (s.code t))
    (hwoken : ∀ t, woken p (u.code t) ≤ woken p (s.code t))
    (hstate : (u.process p).state = (s.process p).state) : Account u p l := by
  refine ⟨Nat.le_trans hqueue ha.queue, fun c hc ↦ ?_, fun t ↦ ?_, fun hr ↦ ?_, fun hq ↦ ?_,
    fun c hc hm ↦ ?_, fun t hw ↦ ?_, fun t ht ho ↦ ?_⟩
  · rcases hlist c hc with h0 | ⟨hb, hle⟩
    · rw [h0]
      exact Nat.zero_le _
    · exact Nat.le_trans hle (ha.list c hb)
  · exact Nat.le_trans (Nat.add_le_add (howed t) (hwoken t)) (ha.thread t)
  · rw [hstate] at hr
    exact ha.running hr
  · rw [hstate]
    rw [← List.count_pos_iff] at hq
    exact ha.queued (List.count_pos_iff.mp (Nat.lt_of_lt_of_le hq hqueue))
  · rw [hstate]
    rw [← List.count_pos_iff] at hm
    rcases hlist c hc with h0 | ⟨hb, hle⟩
    · omega
    · exact ha.listed c hb (List.count_pos_iff.mp (Nat.lt_of_lt_of_le hm hle))
  · rw [hstate]
    exact ha.waking t (Nat.lt_of_lt_of_le hw (hwoken t))
  · rw [hstate]
    exact ha.readying t ht (Nat.lt_of_lt_of_le ho (howed t))

/-- The thread with a duty is the place that answers. -/
theorem eq_thread (ha : Account s p l) (ho : 0 < owed t p (s.code t) + woken p (s.code t)) :
    l = .thread t := by
  by_contra hl
  have := ha.thread t
  rw [if_neg hl] at this
  omega

theorem eq_queue (ha : Account s p l) (hq : p ∈ s.readyQueue) : l = .queue := by
  by_contra hl
  have := ha.queue
  rw [if_neg hl, Nat.le_zero, List.count_eq_zero] at this
  exact this hq

theorem eq_list (ha : Account s p l) {c : Chan} (hc : ¬ Busy s c) (hq : p ∈ s.sleepers c) :
    l = .list c := by
  by_contra hl
  have := ha.list c hc
  rw [if_neg hl, Nat.le_zero, List.count_eq_zero] at this
  exact this hq

theorem queue_zero (ha : Account s p l) (hl : l ≠ .queue) : s.readyQueue.count p = 0 := by
  have := ha.queue
  rw [if_neg hl] at this
  omega

theorem list_zero (ha : Account s p l) {c : Chan} (hc : ¬ Busy s c) (hl : l ≠ .list c) :
    (s.sleepers c).count p = 0 := by
  have := ha.list c hc
  rw [if_neg hl] at this
  omega

theorem thread_zero (ha : Account s p l) (hl : l ≠ .thread t) :
    owed t p (s.code t) = 0 ∧ woken p (s.code t) = 0 := by
  have := ha.thread t
  rw [if_neg hl] at this
  omega

theorem thread_le_one (ha : Account s p l) : owed t p (s.code t) + woken p (s.code t) ≤ 1 := by
  have := ha.thread t
  split at this <;> omega

section

variable (hs : Inv s) (hcode : s.code (s.cpu h).current = i :: k) (hr : unfold s h i e = some r)

include hcode hr in
/-- A list that is not about to be erased was not before either, unless it just was. -/
theorem not_busy {c : Chan} (hc : ¬ Busy (r.1.setCode (s.cpu h).current (r.2 ++ k)) c) :
    ¬ Busy s c ∨ i = erase c := by
  by_contra hb
  rw [not_or, not_not] at hb
  obtain ⟨⟨t, ht⟩, hi⟩ := hb
  refine hc ⟨t, ?_⟩
  rcases eq_or_ne t (s.cpu h).current with rfl | hne
  · rw [hcode] at ht
    have := lag_le (k := k) hr hi
    simp only [State.setCode, Function.update_self]
    omega
  · simpa [State.setCode, hne, code_unfold hr] using ht

include hcode hr in
/-- The lists of a step, for a process that it does not list. -/
theorem list_step {c : Chan} (hc : ¬ Busy (r.1.setCode (s.cpu h).current (r.2 ++ k)) c)
    (henroll : ∀ site, i = enroll site p → (s.process p).state ≠ .Sleeping) :
    (r.1.sleepers c).count p = 0 ∨
      ¬ Busy s c ∧ (r.1.sleepers c).count p ≤ (s.sleepers c).count p := by
  rcases not_busy hcode hr hc with hb | rfl
  · rcases sleepers_unfold hr c with hl | ⟨hl, -⟩ | ⟨site, q, rfl, hst, -, hl⟩
    · exact .inr ⟨hb, Nat.le_of_eq (by rw [hl])⟩
    · left
      rw [hl]
      rfl
    · have hq : q ≠ p := by
        rintro rfl
        exact henroll site rfl hst
      right
      refine ⟨hb, ?_⟩
      rw [hl, List.count_append, List.count_singleton]
      simp [hq]
  · left
    rw [sleepers_erase hr]
    rfl

include hr in
/-- The queue of a step, for a process that it does not queue. -/
theorem queue_step (henroll : ∀ site, i = enroll site p → (s.process p).state ≠ .Ready) :
    r.1.readyQueue.count p ≤ s.readyQueue.count p := by
  rw [readyQueue_unfold hr]
  split
  case h_1 q _ =>
    split
    case isTrue hst =>
      have hq : q ≠ p := by
        rintro rfl
        exact henroll _ rfl hst
      rw [List.count_append, List.count_singleton]
      simp [hq]
    case isFalse => exact Nat.le_refl _
  case h_2 => exact List.filter_sublist.count_le _
  case h_3 => exact (List.tail_sublist _).count_le _
  case h_4 => exact Nat.le_refl _

include hs hcode hr in
/-- The duties of all threads after a step. -/
theorem owed_step (hpay : pay p i = 0) (hpop : i = pop → s.readyQueue.head? ≠ some p)
    (t : Thread) : owed t p ((r.1.setCode (s.cpu h).current (r.2 ++ k)).code t) ≤
      owed t p (s.code t) := by
  have hw : WF (s.cpu h).current (i :: k) := hcode ▸ hs.wf _
  rcases eq_or_ne t (s.cpu h).current with rfl | hne
  · simp only [State.setCode, Function.update_self, hcode]
    exact owed_le (fun q hq ↦ hs.runs h q hq) hw.1 hr hpay hpop
  · simp [State.setCode, hne, code_unfold hr]

include hcode hr in
theorem woken_step (hiter : ∀ c, i = iterate c → p ∉ s.sleepers c) (t : Thread) :
    woken p ((r.1.setCode (s.cpu h).current (r.2 ++ k)).code t) ≤ woken p (s.code t) := by
  rcases eq_or_ne t (s.cpu h).current with rfl | hne
  · simp only [State.setCode, Function.update_self, hcode]
    exact woken_le hr hiter
  · simp [State.setCode, hne, code_unfold hr]

include hs hcode hr in
/-- The account of a process that a step does nothing for. -/
theorem still (ha : Account s p l) (hpay : pay p i = 0) (hrun : i ≠ markRunning p)
    (hpop : i = pop → s.readyQueue.head? ≠ some p)
    (hiter : ∀ c, i = iterate c → p ∉ s.sleepers c)
    (henroll : ∀ site, i = enroll site p →
      (s.process p).state ≠ .Ready ∧ (s.process p).state ≠ .Sleeping) :
    Account (r.1.setCode (s.cpu h).current (r.2 ++ k)) p l :=
  ha.mono (queue_step hr fun site hi ↦ (henroll site hi).1)
    (fun _ hc ↦ list_step hcode hr hc fun site hi ↦ (henroll site hi).2)
    (owed_step hs hcode hr hpay hpop) (woken_step hcode hr hiter) (state_step hr hpay hrun)

include hr in
/-- The executed thread comes to answer for a process that is in no list. -/
theorem to_thread (ha : Account s p l) (hqueue : r.1.readyQueue.count p = 0)
    (hlist : ∀ c, ¬ Busy (r.1.setCode (s.cpu h).current (r.2 ++ k)) c →
      (r.1.sleepers c).count p = 0)
    (hother : ∀ t, t ≠ (s.cpu h).current → l ≠ .thread t)
    (hsum : owed (s.cpu h).current p (r.2 ++ k) + woken p (r.2 ++ k) ≤ 1)
    (hstate : (r.1.process p).state ≠ .Running ∧ (r.1.process p).state ≠ .Used)
    (hwoken : 0 < woken p (r.2 ++ k) → (r.1.process p).state = .Sleeping)
    (howed : (s.cpu h).current ≠ .proc p → 0 < owed (s.cpu h).current p (r.2 ++ k) →
      (r.1.process p).state = .Ready) :
    Account (r.1.setCode (s.cpu h).current (r.2 ++ k)) p (.thread (s.cpu h).current) := by
  have hzero : ∀ t, t ≠ (s.cpu h).current → owed t p (s.code t) = 0 ∧ woken p (s.code t) = 0 :=
    fun t ht ↦ ha.thread_zero (hother t ht)
  refine ⟨?_, fun c hc ↦ ?_, fun t ↦ ?_, fun hst ↦ ?_, fun hq ↦ ?_, fun c hc hm ↦ ?_,
    fun t hw ↦ ?_, fun t ht ho ↦ ?_⟩
  · exact Nat.le_of_eq hqueue
  · exact Nat.le_of_eq (hlist c hc)
  · rcases eq_or_ne t (s.cpu h).current with rfl | hne
    · simpa [State.setCode] using hsum
    · simp [State.setCode, hne, code_unfold hr, hzero t hne, Ne.symm hne]
  · exact absurd hst (not_or.mpr hstate)
  · exact absurd hq (List.count_eq_zero.mp hqueue)
  · exact absurd hm (List.count_eq_zero.mp (hlist c hc))
  · rcases eq_or_ne t (s.cpu h).current with rfl | hne
    · exact hwoken (by simpa [State.setCode] using hw)
    · simp [State.setCode, hne, code_unfold hr, hzero t hne] at hw
  · rcases eq_or_ne t (s.cpu h).current with rfl | hne
    · exact howed ht (by simpa [State.setCode] using ho)
    · simp [State.setCode, hne, code_unfold hr, hzero t hne] at ho

end

section

variable (hs : Inv s)

include hs in
/-- `run` takes a process from the queue. -/
theorem pop (hcode : s.code (s.cpu h).current = pop :: k) (hr : unfold s h .pop e = some r)
    (ha : Account s p l) (hhead : s.readyQueue.head? = some p) :
    Account (r.1.setCode (s.cpu h).current (r.2 ++ k)) p (.thread (s.cpu h).current) := by
  have hw : WF (s.cpu h).current (.pop :: k) := hcode ▸ hs.wf _
  have hmem : p ∈ s.readyQueue := List.mem_of_head? hhead
  obtain rfl := ha.eq_queue hmem
  have hstate : (r.1.process p).state = .Ready := by
    rw [state_step hr rfl (by simp)]
    exact ha.queued hmem
  have hwoken : woken p (r.2 ++ k) = 0 := by
    have h1 := woken_le (p := p) (k := k) hr (by simp)
    have h2 := (ha.thread_zero (t := (s.cpu h).current) (by simp)).2
    rw [hcode] at h2
    omega
  refine to_thread hr ha ?_ (fun c hc ↦ ?_) (by simp) ?_ (by simp [hstate]) (by simp [hwoken])
    (fun _ _ ↦ hstate)
  · have hcount := ha.queue
    rw [readyQueue_unfold hr]
    obtain ⟨q, hq⟩ := List.head?_eq_some_iff.mp hhead
    simp only [hq, List.tail_cons, List.count_cons_self, if_true] at hcount ⊢
    omega
  · rcases list_step hcode hr hc (by simp) with h0 | ⟨hb, hle⟩
    · exact h0
    · have := ha.list_zero hb (by simp)
      omega
  · exact Nat.le_of_eq (by rw [owed_pop hw.1 hr, if_pos hhead, hwoken])

include hs in
/-- A `wakeup` reads the list that the process is in. -/
theorem iterate {c : Chan} (hcode : s.code (s.cpu h).current = iterate c :: k)
    (hr : unfold s h (.iterate c) e = some r) (ha : Account s p l) (hc : ¬ Busy s c)
    (hmem : p ∈ s.sleepers c) :
    Account (r.1.setCode (s.cpu h).current (r.2 ++ k)) p (.thread (s.cpu h).current) := by
  have hw : WF (s.cpu h).current (.iterate c :: k) := hcode ▸ hs.wf _
  obtain rfl := ha.eq_list hc hmem
  have hstate : (r.1.process p).state = .Sleeping := by
    rw [state_step hr rfl (by simp)]
    exact ha.listed c hc hmem
  -- the loop is open from here on
  have hbusy : Busy (r.1.setCode (s.cpu h).current (r.2 ++ k)) c := by
    refine ⟨(s.cpu h).current, ?_⟩
    have h1 := lag_nonneg (c := c) hw
    simp only [State.setCode, Function.update_self, lag_append, lag_unfold hr]
    simp only [lag, List.count_cons, beq_iff_eq, reduceCtorEq, if_false, if_true] at h1 ⊢
    omega
  obtain ⟨howed, hwoken⟩ := ha.thread_zero (t := (s.cpu h).current) (by simp)
  rw [hcode] at howed hwoken
  have howed' : owed (s.cpu h).current p (r.2 ++ k) = 0 := by
    rw [owed_unfold rfl (fun q hq ↦ hs.runs h q hq) hw.1 hr, howed]
  have hk : woken p k = 0 := by simpa [woken, List.countP_cons, wakes] using hwoken
  have hcount := ha.list c hc
  rw [if_pos rfl] at hcount
  refine to_thread hr ha ?_ (fun d hd ↦ ?_) (by simp) ?_ (by simp [hstate])
    (fun _ ↦ hstate) (by simp [howed'])
  · have h1 := queue_step (p := p) hr (by simp)
    have h2 := ha.queue_zero (by simp)
    omega
  · rcases list_step hcode hr hd (by simp) with h0 | ⟨hb, hle⟩
    · exact h0
    · have hne : d ≠ c := by
        rintro rfl
        exact hd hbusy
      have := ha.list_zero hb (by simpa using Ne.symm hne)
      omega
  · rw [howed', woken_append, woken_unfold hr, hk]
    simpa using hcount

include hs in
/-- A process that marks itself is `Running`, and one that `fork` marks is not in use. -/
theorem state_of_pay (hcode : s.code (s.cpu h).current = i :: k) (hpay : pay p i ≠ 0)
    (hi : ∀ c, i ≠ wake c p) :
    (s.process p).state = .Running ∨ (s.process p).state = .Used := by
  have hw : WF (s.cpu h).current (i :: k) := hcode ▸ hs.wf _
  rcases pay_cases hpay with ⟨c, rfl⟩ | rfl | rfl | rfl | ⟨status, rfl⟩
  · exact absurd rfl (hi c)
  · exact .inr (hs.forks _ p (by rw [hcode]; simp [forked])).1
  all_goals
    obtain ⟨ht, -⟩ := hw.1
    refine (hs.running h p ht).2.imp_right fun hpark ↦ ?_
    rw [← ht, hcode] at hpark
    cases hpark

/-- The state that a mark writes. -/
theorem writes_of_pay {t : Thread} (hf : Fits t i k) (hpay : pay p i ≠ 0) :
    ∃ st, writes i = some (p, st) ∧ st ≠ .Running ∧ st ≠ .Used ∧ (t ≠ .proc p → st = .Ready) := by
  rcases pay_cases hpay with ⟨c, rfl⟩ | rfl | rfl | rfl | ⟨status, rfl⟩
  · exact ⟨.Ready, rfl, by simp⟩
  · exact ⟨.Ready, rfl, by simp⟩
  · exact ⟨.Ready, rfl, by simp⟩
  · exact ⟨.Sleeping, rfl, by simp, by simp, fun ht ↦ absurd hf.1 ht⟩
  · exact ⟨.Zombie, rfl, by simp, by simp, fun ht ↦ absurd hf.1 ht⟩

include hs in
/-- A step marks a process that nobody answers for, or a `wakeup` marks the process of its
round. -/
theorem mark (hcode : s.code (s.cpu h).current = i :: k) (hr : unfold s h i e = some r)
    (ha : Account s p l) (hpay : pay p i ≠ 0) :
    Account (r.1.setCode (s.cpu h).current (r.2 ++ k)) p (.thread (s.cpu h).current) := by
  have hw : WF (s.cpu h).current (i :: k) := hcode ▸ hs.wf _
  have howed := owed_of_pay hw.1 hpay
  obtain ⟨st, hwr, hst⟩ := writes_of_pay hw.1 hpay
  have hone : pay p i = 1 := by
    cases i <;> simp_all [pay]
  have hstate : (r.1.process p).state = st := by
    have := state_unfold hr p
    simpa [hwr] using this
  have hplace : (l = .nobody ∨ l = .thread (s.cpu h).current) ∧
      owed (s.cpu h).current p k + woken p k ≤ 1 := by
    have hle := ha.thread_le_one (t := (s.cpu h).current)
    rw [hcode, owed, hone, woken, List.countP_cons] at hle
    by_cases hi : ∃ c, i = wake c p
    · obtain ⟨c, rfl⟩ := hi
      refine ⟨.inr (ha.eq_thread ?_), ?_⟩
      · rw [hcode, woken, List.countP_cons]
        simp only [wakes, decide_true, if_true]
        omega
      · simp only [wakes, decide_true, if_true] at hle
        rw [woken]
        omega
    · obtain rfl := ha.running (state_of_pay hs hcode hpay fun c hc ↦ hi ⟨c, hc⟩)
      have := ha.thread_zero (t := (s.cpu h).current) (by simp)
      rw [hcode, owed, hone, woken, List.countP_cons] at this
      refine ⟨.inl rfl, ?_⟩
      rw [woken]
      omega
  obtain ⟨hl, hsum⟩ := hplace
  have hr2 := unfold_of_writes hwr hr
  refine to_thread hr ha ?_ (fun c hc ↦ ?_) ?_ ?_ ?_ ?_ ?_
  · have h1 := queue_step (p := p) hr (by rintro site hi; rw [hi] at hwr; cases hwr)
    have h2 := ha.queue_zero (by rcases hl with rfl | rfl <;> simp)
    omega
  · rcases list_step hcode hr hc (by rintro site hi; rw [hi] at hwr; cases hwr) with h0 | ⟨hb, hle⟩
    · exact h0
    · have := ha.list_zero hb (by rcases hl with rfl | rfl <;> simp)
      omega
  · rcases hl with rfl | rfl
    · simp
    · exact fun t ht ↦ by simpa using Ne.symm ht
  · rwa [hr2]
  · rw [hstate]
    exact ⟨hst.1, hst.2.1⟩
  · rw [hr2, List.nil_append]
    intro hpos
    omega
  · rw [hstate]
    exact fun ht _ ↦ hst.2.2 ht

/-- `run` marks the process that it dispatches. -/
theorem markRunning (hcode : s.code (s.cpu h).current = markRunning p :: k)
    (hr : unfold s h (.markRunning p) e = some r) (ha : Account s p l) :
    Account (r.1.setCode (s.cpu h).current (r.2 ++ k)) p .nobody := by
  have hpos : 0 < owed (s.cpu h).current p (s.code (s.cpu h).current) := by
    rw [hcode, owed]
    simp only [gain, if_true]
    omega
  obtain rfl := ha.eq_thread (t := (s.cpu h).current) (by omega)
  have hzero : ∀ t, owed t p ((r.1.setCode (s.cpu h).current (r.2 ++ k)).code t) = 0 ∧
      woken p ((r.1.setCode (s.cpu h).current (r.2 ++ k)).code t) = 0 := by
    intro t
    rcases eq_or_ne t (s.cpu h).current with rfl | hne
    · have := ha.thread_le_one (t := (s.cpu h).current)
      rw [hcode, owed, woken, List.countP_cons] at this
      simp only [gain, pay, if_true] at this
      rw [unfold_of_writes rfl hr]
      simp only [State.setCode, Function.update_self, List.nil_append, woken]
      omega
    · simpa [State.setCode, hne, code_unfold hr] using ha.thread_zero (by simpa using Ne.symm hne)
  have hqueue : r.1.readyQueue.count p = 0 := by
    have h1 := queue_step (p := p) hr (by simp)
    have h2 := ha.queue_zero (by simp)
    omega
  have hlist : ∀ c, ¬ Busy (r.1.setCode (s.cpu h).current (r.2 ++ k)) c →
      (r.1.sleepers c).count p = 0 := by
    intro c hc
    rcases list_step hcode hr hc (by simp) with h0 | ⟨hb, hle⟩
    · exact h0
    · have := ha.list_zero hb (by simp)
      omega
  refine ⟨Nat.le_of_eq hqueue, fun c hc ↦ Nat.le_of_eq (hlist c hc), fun t ↦ ?_, fun _ ↦ rfl,
    fun hq ↦ absurd hq (List.count_eq_zero.mp hqueue),
    fun c hc hm ↦ absurd hm (List.count_eq_zero.mp (hlist c hc)), fun t hw ↦ ?_, fun t _ ho ↦ ?_⟩
  · rw [(hzero t).1, (hzero t).2]
    exact Nat.zero_le _
  · rw [(hzero t).2] at hw
    omega
  · rw [(hzero t).1] at ho
    omega

/-- A duty is fulfilled: the process is registered where its state says. -/
theorem enroll {site : Site} (hcode : s.code (s.cpu h).current = enroll site p :: k)
    (hr : unfold s h (.enroll site p) e = some r) (ha : Account s p l) (hsite : site ≠ .run)
    (hstate : (s.process p).state = .Ready ∨ (s.process p).state = .Sleeping) :
    ∃ l', Account (r.1.setCode (s.cpu h).current (r.2 ++ k)) p l' := by
  have howed : owed (s.cpu h).current p (s.code (s.cpu h).current) =
      1 + owed (s.cpu h).current p k := by
    rw [hcode, owed]
    cases site <;> simp [gain, pay] at hsite ⊢
  obtain rfl := ha.eq_thread (t := (s.cpu h).current) (by omega)
  have hr2 : r.2 = [] := by
    cases e <;> simp only [unfold, exec, choose, Option.bind_fun_none, reduceCtorEq] at hr
    cases hr
    rfl
  have hzero : ∀ t, owed t p ((r.1.setCode (s.cpu h).current (r.2 ++ k)).code t) = 0 ∧
      woken p ((r.1.setCode (s.cpu h).current (r.2 ++ k)).code t) = 0 := by
    intro t
    rcases eq_or_ne t (s.cpu h).current with rfl | hne
    · have := ha.thread_le_one (t := (s.cpu h).current)
      rw [howed, hcode, woken, List.countP_cons] at this
      simp only [hr2, State.setCode, Function.update_self, List.nil_append, woken]
      omega
    · simpa [State.setCode, hne, code_unfold hr] using ha.thread_zero (by simpa using Ne.symm hne)
  have hst : (r.1.process p).state = (s.process p).state := state_step hr rfl (by simp)
  have hq := ha.queue_zero (by simp)
  have hl : ∀ c, ¬ Busy (r.1.setCode (s.cpu h).current (r.2 ++ k)) c →
      (s.sleepers c).count p = 0 := fun c hc ↦
    ha.list_zero ((not_busy hcode hr hc).resolve_right (by simp)) (by simp)
  rcases hstate with hready | hsleep
  · have hlist : ∀ c, ¬ Busy (r.1.setCode (s.cpu h).current (r.2 ++ k)) c →
        (r.1.sleepers c).count p = 0 := by
      intro c hc
      rcases list_step hcode hr hc (p := p) (by simp [hready]) with h0 | ⟨-, hle⟩
      · exact h0
      · have := hl c hc
        omega
    refine ⟨.queue, ?_, fun c hc ↦ Nat.le_of_eq (hlist c hc), fun t ↦ ?_, fun hrun ↦ ?_,
      fun _ ↦ hst.trans hready, fun c hc hm ↦ absurd hm (List.count_eq_zero.mp (hlist c hc)),
      fun t hw ↦ ?_, fun t _ ho ↦ ?_⟩
    · have := readyQueue_unfold hr
      simp only [hready, if_true] at this
      simp [State.setCode, this, hq]
    · rw [(hzero t).1, (hzero t).2]
      exact Nat.zero_le _
    · change (r.1.process p).state = _ ∨ (r.1.process p).state = _ at hrun
      simp [hst, hready] at hrun
    · rw [(hzero t).2] at hw
      omega
    · rw [(hzero t).1] at ho
      omega
  · have hqueue : r.1.readyQueue.count p = 0 := by
      have := queue_step (p := p) hr (by simp [hsleep])
      omega
    refine ⟨.list (s.process p).chan, Nat.le_of_eq hqueue, fun c hc ↦ ?_, fun t ↦ ?_,
      fun hrun ↦ ?_, fun hm ↦ absurd hm (List.count_eq_zero.mp hqueue),
      fun _ _ _ ↦ hst.trans hsleep, fun t hw ↦ ?_, fun t _ ho ↦ ?_⟩
    · have h0 := hl c hc
      change (r.1.sleepers c).count p ≤ _
      rcases sleepers_unfold hr c with h1 | ⟨h1, -⟩ | ⟨site', q, hi, -, hc', h1⟩
      · rw [h1, h0]
        exact Nat.zero_le _
      · rw [h1]
        exact Nat.zero_le _
      · cases hi
        rw [h1, List.count_append, h0, hc', if_pos rfl]
        simp
    · rw [(hzero t).1, (hzero t).2]
      exact Nat.zero_le _
    · change (r.1.process p).state = _ ∨ (r.1.process p).state = _ at hrun
      simp [hst, hsleep] at hrun
    · rw [(hzero t).2] at hw
      omega
    · rw [(hzero t).1] at ho
      omega

end

end Account

namespace Ledger

variable {s u : State} {h : Hart} {i : Instr} {k : List Instr} {e : Event}
  {r : State × List Instr}

/-- A step of the code keeps the ledger. -/
theorem code (hs : Inv s) (hl : Ledger s) (hcode : s.code (s.cpu h).current = i :: k)
    (hr : unfold s h i e = some r)
    (hrun : ∀ p, i = enroll .run p →
      (s.process p).state ≠ .Ready ∧ (s.process p).state ≠ .Sleeping)
    (hiter : ∀ c, i = iterate c → ¬ Busy s c) :
    Ledger (r.1.setCode (s.cpu h).current (r.2 ++ k)) := by
  intro p
  obtain ⟨l, ha⟩ := hl p
  by_cases hpay : pay p i = 0
  · by_cases hmark : i = markRunning p
    · subst hmark
      exact ⟨_, ha.markRunning hcode hr⟩
    by_cases hpop : i = pop ∧ s.readyQueue.head? = some p
    · obtain ⟨rfl, hhead⟩ := hpop
      exact ⟨_, ha.pop hs hcode hr hhead⟩
    by_cases hlist : ∃ c, i = iterate c ∧ p ∈ s.sleepers c
    · obtain ⟨c, rfl, hmem⟩ := hlist
      exact ⟨_, ha.iterate hs hcode hr (hiter c rfl) hmem⟩
    by_cases henroll : ∃ site, i = enroll site p ∧
        ((s.process p).state = .Ready ∨ (s.process p).state = .Sleeping)
    · obtain ⟨site, rfl, hst⟩ := henroll
      refine ha.enroll hcode hr ?_ hst
      rintro rfl
      have := hrun p rfl
      tauto
    · refine ⟨l, ha.still hs hcode hr hpay hmark (fun hi hhead ↦ hpop ⟨hi, hhead⟩)
        (fun c hi hmem ↦ hlist ⟨c, hi, hmem⟩) fun site hi ↦ ?_⟩
      rw [← not_or]
      exact fun hst ↦ henroll ⟨site, hi, hst⟩
  · exact ⟨_, ha.mark hs hcode hr hpay⟩

/-- An interrupt keeps the ledger. -/
theorem interrupt (hs : Inv s) (hl : Ledger s) (hk : handler s h e = some k)
    (hsie : (s.cpu h).sie = true) :
    Ledger ((s.setCpu h fun c ↦ { c with sie := false }).setCode (s.cpu h).current
      (k ++ sret :: s.code (s.cpu h).current)) := by
  intro p
  obtain ⟨l, ha⟩ := hl p
  have hacc := owed_handler (p := p) hs.toFrame hk hsie (s.code (s.cpu h).current)
  refine ⟨l, ha.mono (Nat.le_refl _) (fun c hc ↦ .inr ⟨fun ⟨t, ht⟩ ↦ hc ⟨t, ?_⟩, Nat.le_refl _⟩)
    (fun t ↦ ?_) (fun t ↦ ?_) rfl⟩
  all_goals rcases eq_or_ne t (s.cpu h).current with rfl | hne
  · simpa [State.setCode, lag_handler hk] using ht
  · simpa [State.setCode, State.setCpu, hne] using ht
  · simp [State.setCode, hacc.1]
  · simp [State.setCode, State.setCpu, hne]
  · simp [State.setCode, hacc.2]
  · simp [State.setCode, State.setCpu, hne]

/-- With the ledger in order no step marks a `Running` process. -/
theorem sane (hl : Ledger s) (e : Hart × Event) : Sane s e := by
  intro p hp hrun
  obtain ⟨i, hi, hm⟩ := Option.bind_eq_some_iff.mp hp
  obtain ⟨l, ha⟩ := hl p
  obtain rfl := ha.running (.inl hrun)
  unfold executes at hi
  split at hi
  · cases hi
  · obtain ⟨k, hk⟩ := List.head?_eq_some_iff.mp hi
    have hzero := ha.thread_zero (t := (s.cpu e.1).current) (by simp)
    rw [hk, owed, woken, List.countP_cons] at hzero
    cases i <;> simp only [marked, reduceCtorEq, Option.some.injEq] at hm
    · subst hm
      simp [wakes] at hzero
    · subst hm
      simp [gain] at hzero

/-- Every proper step keeps the invariant and the ledger. -/
theorem step {e : Hart × Event} (hs : Inv s ∧ Ledger s) (hp : Proper s e)
    (hu : step s e = some u) : Inv u ∧ Ledger u := by
  refine ⟨hs.1.step (hs.2.sane e) hu, ?_⟩
  obtain ⟨h, e⟩ := e
  rcases step_cases hu with ⟨k, hk, hsie, rfl⟩ | ⟨i, k, r, hcode, hi, hr, rfl⟩
  · exact hs.2.interrupt hs.1 hk hsie
  · exact hs.2.code hs.1 hcode hr (fun p hp' ↦ hp.1 p (hp' ▸ hi)) fun c hc ↦ hp.2 c (hc ▸ hi)

/-- The ledger is in order when the harts enter `Scheduler::run`. -/
theorem boot (n : Nat) (bucket : Chan → Nat) : Ledger (boot n bucket) := by
  have hwoken : ∀ t p, woken p ((Sched.boot n bucket).code t) = 0 := by
    intro t p
    cases t with
    | sched h => by_cases hh : h < n <;> simp [Sched.boot, hh, run, scan, woken, wakes]
    | proc q => simp [Sched.boot, woken, wakes]
  have hlist : ∀ c, (Sched.boot n bucket).sleepers c = [] := fun c ↦ rfl
  intro p
  refine ⟨if p = 0 then .queue else .nobody, ?_, fun c _ ↦ by simp [hlist],
    fun t ↦ by simp [owed_boot, hwoken], ?_, ?_, fun c _ ↦ by simp [hlist],
    fun t ↦ by simp [hwoken], fun t _ ↦ by simp [owed_boot]⟩
  all_goals rcases eq_or_ne p 0 with rfl | hp
  · simp [Sched.boot]
  · simp [Sched.boot, hp, Ne.symm hp]
  · simp [Sched.boot]
  · simp [Sched.boot, hp]
  · simp [Sched.boot]
  · simp [Sched.boot, hp]

/-- The invariant and the ledger hold along every proper run. -/
theorem of_run {n : Nat} {bucket : Chan → Nat}
    (hrun : Run Sched.step Proper (Sched.boot n bucket) s) : Inv s ∧ Ledger s :=
  hrun.invariant ⟨Inv.boot n bucket, Ledger.boot n bucket⟩ fun _ _ _ hs hp hu ↦ step hs hp hu

end Ledger

/-- A process occurs at most once in the ready queue and all lists of the sleep table. -/
def Single (s : State) : Prop :=
  ∀ p, s.readyQueue.count p ≤ 1 ∧ (∀ c, (s.sleepers c).count p ≤ 1) ∧
    (p ∈ s.readyQueue → ∀ c, p ∉ s.sleepers c) ∧
    ∀ c c', p ∈ s.sleepers c → p ∈ s.sleepers c' → c = c'

/-- Every process is enrolled at most once, in any run in which the second registration in
`run` finds no `Ready` or `Sleeping` process and no two loops over one list overlap, whenever
no `wakeup` is between its loop and its `erase`. -/
theorem single_of_proper {n : Nat} {bucket : Chan → Nat} {s : State}
    (hrun : Run step Proper (boot n bucket) s) (hidle : ∀ c, ¬ Busy s c) : Single s := by
  intro p
  obtain ⟨l, ha⟩ := (Ledger.of_run hrun).2 p
  refine ⟨?_, fun c ↦ ?_, fun hq c hc ↦ ?_, fun c c' hc hc' ↦ ?_⟩
  · have := ha.queue
    split at this <;> omega
  · have := ha.list c (hidle c)
    split at this <;> omega
  · have h1 := ha.eq_queue hq
    have h2 := ha.eq_list (hidle c) hc
    rw [h1] at h2
    cases h2
  · have h1 := ha.eq_list (hidle c) hc
    have h2 := ha.eq_list (hidle c') hc'
    rw [h1] at h2
    simpa using h2

section

/-- A step that reads no list and registers nothing twice, as a test. -/
def Tame (s : State) (e : Hart × Event) : Bool :=
  match executes s e with
  | some (.iterate _) => false
  | some (.enroll .run p) => (s.process p).state ≠ .Ready ∧ (s.process p).state ≠ .Sleeping
  | _ => true

theorem proper_of_tame {s : State} {e : Hart × Event} (h : Tame s e) : Proper s e := by
  refine ⟨fun p hp ↦ ?_, fun c hc ↦ ?_⟩
  · simpa [Tame, hp] using h
  · simp [Tame, hc] at h

/-- A step that reads and erases no list, as a test. -/
def Listless (s : State) (e : Hart × Event) : Bool :=
  match executes s e with
  | some (.iterate _) | some (.erase _) => false
  | _ => true

/-- No list is about to be erased if none has been read. -/
theorem idle_of_listless {n : Nat} {bucket : Chan → Nat} {s : State}
    (hrun : Run step (fun s e ↦ Listless s e) (boot n bucket) s) (c : Chan) : ¬ Busy s c := by
  have hzero : ∀ t, lag c (s.code t) = 0 := by
    refine hrun.invariant (I := fun s ↦ ∀ t, lag c (s.code t) = 0) (fun t ↦ ?_)
      fun s e u hs he hu t ↦ ?_
    · cases t with
      | sched h => by_cases hh : h < n <;> simp [boot, hh, run, scan, lag]
      | proc p => simp [boot, lag]
    · obtain ⟨h, e⟩ := e
      rcases step_cases hu with ⟨k, hk, -, rfl⟩ | ⟨i, k, r, hcode, hi, hr, rfl⟩
      · rcases eq_or_ne t (s.cpu h).current with rfl | hne
        · simpa [State.setCode, lag_handler hk] using hs (s.cpu h).current
        · simpa [State.setCode, State.setCpu, hne] using hs t
      · rcases eq_or_ne t (s.cpu h).current with rfl | hne
        · have hlag := hs (s.cpu h).current
          rw [hcode] at hlag
          have hk : lag c (i :: k) = lag c k := by
            cases i <;> simp [Listless, hi] at he <;> simp [lag]
          simp [State.setCode, lag_append, lag_unfold hr, ← hk, hlag]
        · simpa [State.setCode, hne, code_unfold hr] using hs t
  rintro ⟨t, ht⟩
  rw [hzero t] at ht
  omega

/-- Hart 1 dispatches the process that hart 0 yields before `run` on hart 0 comes to
register it again. -/
theorem single_after_yield : ∃ s, Run step Proper (boot 2 fun _ ↦ 0) s ∧
    s.readyQueue = [] ∧ (s.cpu 1).process = some 0 ∧ Single s := by
  have hrun : Run step (fun s e ↦ Tame s e ∧ Listless s e) (boot 2 fun _ ↦ 0)
      (final step (boot 2 fun _ ↦ 0)
        (goes 0 10 ++ [(0, .yield)] ++ goes 0 12 ++ goes 1 8 ++ goes 0 3)) :=
    run_final (by decide +kernel) (by decide +kernel)
  have hproper := hrun.mono fun _ _ h ↦ proper_of_tame h.1
  exact ⟨_, hproper, by decide +kernel, by decide +kernel,
    single_of_proper hproper (idle_of_listless (hrun.mono fun _ _ h ↦ h.2))⟩

/-- On one hart, a process that yields is registered by `reschedule` and again by `run`. -/
theorem not_single_after_yield :
    ∃ s, Run step (fun _ _ ↦ True) (boot 1 fun _ ↦ 0) s ∧ ¬ Single s := by
  have hrun : Run step (fun _ _ ↦ True) (boot 1 fun _ ↦ 0) (final step (boot 1 fun _ ↦ 0)
      (goes 0 10 ++ [(0, .yield)] ++ goes 0 15)) :=
    run_final (by decide +kernel) (by decide +kernel)
  refine ⟨_, hrun, fun hsingle ↦ ?_⟩
  exact absurd (hsingle 0).1 (by decide +kernel)

end
end Orfos.Sched
