import Mathlib.Data.List.Induction
import Mathlib.Logic.Relation
import Orfos.Lib.Queue

/-!
# The nodes of the ready queue

`readyQueue` of `kernel/process/scheduler.cpp` with the nodes of its container. A process is pushed
by `registerProcess` and popped by `run`; `unregisterProcess`, which `yield` calls, moves the other
processes to a local queue and assigns that one to `readyQueue`. The assignment copies two pointers,
and the destructor of the local queue then deletes the nodes that `readyQueue` goes on using.

The machine makes one statement a step. The scheduler's mutex is held over each of the calls, so
that they follow one another.
-/

namespace Orfos.Sched.ReadyQueue

open Orfos.Base Orfos.Lib

/-- `Process*`; the null pointer is 0. -/
abbrev Process := Nat

/-- The statements of `unregisterProcess`. -/
inductive Pc where
  | outside
  | loop (process : Process)
  | popped (process proc : Process)
  | assign
  | destroy (elem : Option Nat)
  deriving DecidableEq

/-- `readyQueue`, and `que` while `unregisterProcess` runs. -/
structure State where
  nodes : Nodes Process
  readyQueue : QueueContainer
  que : QueueContainer
  pc : Pc

def initial : State := ⟨⟨.empty, []⟩, .new, .new, .outside⟩

/-- The containers that a statement still can use: `que` is none of them once its destructor
runs. -/
def State.live (s : State) : List QueueContainer :=
  match s.pc with
  | .outside | .destroy _ => [s.readyQueue]
  | .loop _ | .popped _ _ | .assign => [s.readyQueue, s.que]

/-- The calls: `registerProcess` of a process that is `Ready`, the pop of `run` and
`unregisterProcess`. -/
inductive Op where
  | push (process : Process)
  | pop
  | unregister (process : Process)

/-- A call, up to the end or to the loop of `unregisterProcess`; `none` where an assertion fails. -/
def call (s : State) : Op → Option State
  | .push process =>
    if process = 0 then none
    else do
      let (readyQueue, nodes) ← s.readyQueue.push_back s.nodes process
      some { s with readyQueue, nodes }
  | .pop => do
    let _ ← s.readyQueue.front s.nodes
    let (readyQueue, nodes) ← s.readyQueue.pop_front s.nodes
    some { s with readyQueue, nodes }
  | .unregister process =>
    if process = 0 then none
    else some { s with que := .new, pc := .loop process }

/-- A statement of `unregisterProcess`. -/
def step (s : State) : Option State :=
  match s.pc with
  | .outside => none
  | .loop process =>
    if s.readyQueue.empty then some { s with pc := .assign }
    else do
      let proc ← s.readyQueue.front s.nodes
      let (readyQueue, nodes) ← s.readyQueue.pop_front s.nodes
      some { s with readyQueue, nodes, pc := .popped process proc }
  | .popped process proc =>
    if proc ≠ process then do
      let (que, nodes) ← s.que.push_back s.nodes proc
      some { s with que, nodes, pc := .loop process }
    else some { s with pc := .loop process }
  -- The memberwise copy of the container.
  | .assign => some { s with readyQueue := s.que, pc := .destroy s.que.head }
  | .destroy none => some { s with que := .new, pc := .outside }
  | .destroy (some elem) => do
    let (next, nodes) ← QueueContainer.destroyOne elem s.nodes
    some { s with nodes, pc := .destroy next }

/-- Statements of one call. -/
abbrev Steps : State → State → Prop := Relation.ReflTransGen fun s s' ↦ step s = some s'

/-- The states that come up while these calls are made, the last one perhaps not yet done. -/
inductive Reach : List Op → State → Prop
  | initial : Reach [] initial
  | call {ops : List Op} {op : Op} {s s' : State} (before : Reach ops s) (outside : s.pc = .outside)
      (here : call s op = some s') : Reach (ops ++ [op]) s'
  | step {ops : List Op} {s s' : State} (before : Reach ops s) (here : step s = some s') :
      Reach ops s'

theorem Reach.steps {ops : List Op} {s s' : State} (hr : Reach ops s) (hs : Steps s s') :
    Reach ops s' := by
  induction hs with
  | refl => exact hr
  | tail _ here ih => exact .step ih here

/-! ### What the queue is for -/

/-- The call on the list of the queued processes. -/
def Op.apply (l : List Process) : Op → Option (List Process)
  | .push process => if process = 0 then none else some (l ++ [process])
  | .pop => if l = [] then none else some l.tail
  | .unregister process => if process = 0 then none else some (l.filter (· ≠ process))

/-- The processes that are queued after these calls, the first one to run first. -/
def content (ops : List Op) : Option (List Process) := ops.foldlM Op.apply []

@[simp] theorem content_append (ops : List Op) (op : Op) :
    content (ops ++ [op]) = (content ops).bind op.apply := by
  simp [content, List.foldlM_append]

/-- A state as it should be while these calls are made. -/
structure Sound (ops : List Op) (s : State) : Prop where
  /-- Every container is a list from its head to its tail. -/
  linked : ∀ q ∈ s.live, (∃ xs, q.Holds s.nodes.heap xs) ∧ (q.head = none ↔ q.tail = none)
  /-- Between the calls the ready queue has the processes in their order. -/
  fifo : s.pc = .outside → ∃ xs, s.readyQueue.Holds s.nodes.heap xs ∧
    content ops = some (xs.map Prod.snd)
  /-- No node of a container has been deleted. -/
  kept : ∀ q ∈ s.live, ∀ a, Reachable s.nodes.heap q.head a → a ∉ s.nodes.deleted
  /-- No node is in two containers. -/
  owned : s.live.Pairwise fun q q' ↦
    ∀ a, Reachable s.nodes.heap q.head a → ¬ Reachable s.nodes.heap q'.head a

/-- The calls before this one are done. -/
def Returns (ops : List Op) : Prop :=
  (content ops).isSome → ∃ s, Reach ops s ∧ s.pc = .outside

/-! ### The invariant -/

/-- Where the machine stands in a call after which the processes `l` are queued, and how many
statements of it are left. With `clean`, no node in use has been deleted. -/
inductive Stands (clean : Prop) (l : List Process) : Nat → State → Prop
  | outside {nodes : Nodes Process} {q que : QueueContainer} {xs : List (Nat × Process)}
      (ready : q.Holds nodes.heap xs) (processes : xs.map Prod.snd = l)
      (made : nodes.Made) (kept : clean → ∀ a ∈ xs.map Prod.fst, a ∉ nodes.deleted) :
      Stands clean l 0 ⟨nodes, q, que, .outside⟩
  | loop {nodes : Nodes Process} {q que : QueueContainer} {process : Process}
      {xs ys : List (Nat × Process)} (ready : q.Holds nodes.heap xs)
      (moved : que.Holds nodes.heap ys) (apart : (xs.map Prod.fst).Disjoint (ys.map Prod.fst))
      (processes : ys.map Prod.snd ++ (xs.map Prod.snd).filter (· ≠ process) = l)
      (made : nodes.Made)
      (kept : clean → l = [] ∧ ∀ a ∈ xs.map Prod.fst, a ∉ nodes.deleted) :
      Stands clean l (2 * xs.length + l.length + 3) ⟨nodes, q, que, .loop process⟩
  | popped {nodes : Nodes Process} {q que : QueueContainer} {process proc : Process}
      {xs ys : List (Nat × Process)} (ready : q.Holds nodes.heap xs)
      (moved : que.Holds nodes.heap ys) (apart : (xs.map Prod.fst).Disjoint (ys.map Prod.fst))
      (processes : ys.map Prod.snd ++ (proc :: xs.map Prod.snd).filter (· ≠ process) = l)
      (made : nodes.Made)
      (kept : clean → l = [] ∧ ∀ a ∈ xs.map Prod.fst, a ∉ nodes.deleted) :
      Stands clean l (2 * xs.length + l.length + 4) ⟨nodes, q, que, .popped process proc⟩
  | assign {nodes : Nodes Process} {q que : QueueContainer} {ys : List (Nat × Process)}
      (ready : q.Holds nodes.heap []) (moved : que.Holds nodes.heap ys)
      (processes : ys.map Prod.snd = l) (made : nodes.Made) (kept : clean → l = []) :
      Stands clean l (l.length + 2) ⟨nodes, q, que, .assign⟩
  | destroy {nodes : Nodes Process} {q que : QueueContainer} {elem : Option Nat}
      {us ys : List (Nat × Process)} (ready : q.Holds nodes.heap (us ++ ys))
      (processes : (us ++ ys).map Prod.snd = l) (rest : Chain nodes.heap elem ys)
      (done : ∀ a ∈ us.map Prod.fst, a ∈ nodes.deleted) (made : nodes.Made)
      (kept : clean → l = []) :
      Stands clean l (ys.length + 1) ⟨nodes, q, que, .destroy elem⟩

variable {clean : Prop} {l : List Process} {n : Nat} {s s' : State} {ops : List Op}

theorem stands_initial : Stands clean [] 0 initial :=
  .outside (.new _) rfl (by simp [Nodes.Made]) (by simp)

/-- A statement succeeds and is one less to make. -/
theorem Stands.step (hs : Stands clean l (n + 1) s) :
    ∃ s', step s = some s' ∧ Stands clean l n s' := by
  generalize hk : n + 1 = k at hs
  cases hs with
  | outside => cases hk
  | @loop nodes q que process xs ys ready moved apart processes made kept =>
    cases xs with
    | nil =>
      refine ⟨⟨nodes, q, que, .assign⟩, ?_, ?_⟩
      · simp [ReadyQueue.step, ready.empty_iff.mpr rfl]
      · obtain rfl : n = l.length + 2 := by simpa using hk
        exact .assign ready moved (by simpa using processes) made fun hc ↦ (kept hc).1
    | cons p xs =>
      obtain ⟨a, x⟩ := p
      obtain ⟨q', hpop, hq'⟩ := ready.pop_front_eq
      obtain ⟨next, hcell⟩ := ready.chain.cell_of_mem (List.mem_cons_self (a := (a, x)))
      have hne : q.empty = false := by simp [← Bool.not_eq_true, ready.empty_iff]
      have hfront : q.front nodes = some x := ready.front_eq
      refine ⟨⟨nodes.delete a, q', que, .popped process x⟩, ?_, ?_⟩
      · simp [ReadyQueue.step, hne, hfront, hpop]
      · obtain rfl : n = 2 * xs.length + l.length + 4 := by simp at hk; omega
        have hd := ready.chain.nodup
        refine .popped hq' moved (fun b hb hb' ↦ apart (List.mem_cons_of_mem _ hb) hb') processes
          (made.delete hcell) ?_
        intro hc
        obtain ⟨hl, hkept⟩ := kept hc
        refine ⟨hl, fun b hb ↦ ?_⟩
        have hba : b ≠ a := by
          rintro rfl
          exact (List.nodup_cons.mp hd).1 hb
        simp [hba, hkept b (List.mem_cons_of_mem _ hb)]
  | @popped nodes q que process proc xs ys ready moved apart processes made kept =>
    obtain rfl : n = 2 * xs.length + l.length + 3 := by omega
    by_cases hp : proc = process
    · refine ⟨⟨nodes, q, que, .loop process⟩, by simp [ReadyQueue.step, hp], ?_⟩
      exact .loop ready moved apart (by simpa [hp] using processes) made kept
    · obtain ⟨que', heap, hpush, hlimit, hmoved, hothers⟩ := moved.push_back_eq proc
      refine ⟨⟨{ nodes with heap }, q, que', .loop process⟩, ?_, ?_⟩
      · simp [ReadyQueue.step, hp, hpush]
      · refine .loop ⟨hothers _ _ ready.chain (List.disjoint_symm apart), ready.tail⟩ hmoved ?_
          (by simpa [hp] using processes) (made.limit_le (by simp [hlimit])) kept
        intro a ha ha'
        rw [List.map_append, List.mem_append] at ha'
        rcases ha' with ha' | ha'
        · exact apart ha ha'
        · exact ready.chain.ne_limit ha (by simpa using ha')
  | @assign nodes q que ys ready moved processes made kept =>
    obtain rfl : n = ys.length + 1 := by
      have := congrArg List.length processes
      simp at this
      omega
    have hmoved : que.Holds nodes.heap ([] ++ ys) := moved
    exact ⟨⟨nodes, que, que, .destroy que.head⟩, rfl,
      .destroy hmoved processes moved.chain (by simp) made kept⟩
  | @destroy nodes q que elem us ys ready processes rest done made kept =>
    obtain rfl : n = ys.length := by omega
    cases rest with
    | nil =>
      refine ⟨⟨nodes, q, .new, .outside⟩, rfl, ?_⟩
      refine .outside ready processes made fun hc ↦ ?_
      have hnil : us ++ [] = [] := List.map_eq_nil_iff.mp (processes.trans (kept hc))
      simp [hnil]
    | @cons a x next ys cell rest =>
      refine ⟨⟨nodes.delete a, q, que, .destroy next⟩, ?_, ?_⟩
      · simp [ReadyQueue.step, QueueContainer.destroyOne, cell]
      · have hready : q.Holds nodes.heap ((us ++ [(a, x)]) ++ ys) := by simpa using ready
        refine .destroy hready (by simpa using processes) rest ?_ (made.delete cell) kept
        intro b hb
        rw [List.map_append, List.mem_append] at hb
        rcases hb with hb | hb
        · simp [done b hb]
        · simp at hb
          simp [hb]

/-- The statements lead down to every smaller count. -/
theorem Stands.steps (hs : Stands clean l n s) {m : Nat} (hm : m ≤ n) :
    ∃ s', Steps s s' ∧ Stands clean l m s' := by
  induction n generalizing s with
  | zero =>
    obtain rfl : m = 0 := by omega
    exact ⟨s, .refl, hs⟩
  | succ n ih =>
    by_cases he : m = n + 1
    · subst he
      exact ⟨s, .refl, hs⟩
    · obtain ⟨s₁, hone, hs₁⟩ := hs.step
      obtain ⟨s', hsteps, hs'⟩ := ih hs₁ (by omega)
      exact ⟨s', .head hone hsteps, hs'⟩

/-- No statement is left exactly outside of the calls. -/
theorem Stands.outside_iff (hs : Stands clean l n s) : s.pc = .outside ↔ n = 0 := by
  cases hs <;> simp

/-- A call that the list allows succeeds, and what is left of it leads to the new list. -/
theorem Stands.call (hs : Stands clean l 0 s) {op : Op} {l' : List Process}
    (hop : op.apply l = some l')
    (hclean : clean → ∀ process, op = .unregister process → ∀ x ∈ l, x = process) :
    ∃ s' n, call s op = some s' ∧ Stands clean l' n s' ∧
      ((∃ process, op = .unregister process) → 1 ≤ n) := by
  generalize hk : 0 = k at hs
  cases hs with
  | loop | popped | assign | destroy => simp at hk
  | @outside nodes q que xs ready processes made kept =>
    cases op with
    | push process =>
      have hp : process ≠ 0 := by
        rintro rfl
        simp [Op.apply] at hop
      obtain ⟨q', heap, hpush, hlimit, hq', -⟩ := ready.push_back_eq process
      refine ⟨⟨{ nodes with heap }, q', que, .outside⟩, 0, ?_, ?_, by simp⟩
      · simp [ReadyQueue.call, hp, hpush]
      · refine .outside hq' ?_ (made.limit_le (by simp [hlimit])) fun hc a ha ↦ ?_
        · simpa [Op.apply, hp, processes] using hop
        · rw [List.map_append, List.mem_append] at ha
          rcases ha with ha | ha
          · exact kept hc a ha
          · intro hdel
            have hlt := made a hdel
            simp at ha
            omega
    | pop =>
      cases xs with
      | nil =>
        subst processes
        simp [Op.apply] at hop
      | cons p xs =>
        obtain ⟨a, x⟩ := p
        obtain ⟨q', hpop, hq'⟩ := ready.pop_front_eq
        obtain ⟨next, hcell⟩ := ready.chain.cell_of_mem (List.mem_cons_self (a := (a, x)))
        have hfront : q.front nodes = some x := ready.front_eq
        refine ⟨⟨nodes.delete a, q', que, .outside⟩, 0, ?_, ?_, by simp⟩
        · simp [ReadyQueue.call, hfront, hpop]
        · subst processes
          refine .outside hq' (by simpa [Op.apply] using hop) (made.delete hcell) fun hc b hb ↦ ?_
          have hba : b ≠ a := by
            rintro rfl
            exact (List.nodup_cons.mp ready.chain.nodup).1 hb
          simp [hba, kept hc b (List.mem_cons_of_mem _ hb)]
    | unregister process =>
      have hp : process ≠ 0 := by
        rintro rfl
        simp [Op.apply] at hop
      have hl' : l.filter (· ≠ process) = l' := by simpa [Op.apply, hp] using hop
      refine ⟨⟨nodes, q, .new, .loop process⟩, 2 * xs.length + l'.length + 3, ?_, ?_, by omega⟩
      · simp [ReadyQueue.call, hp]
      · refine .loop ready (.new _) (by simp) (by simpa [processes] using hl') made fun hc ↦
          ⟨?_, kept hc⟩
        rw [← hl', List.filter_eq_nil_iff]
        intro x hx
        simpa using hclean hc process rfl x hx

/-- A call that the list does not allow fails in an assertion. -/
theorem Stands.call_eq_none (hs : Stands clean l 0 s) {op : Op} (hop : op.apply l = none) :
    ReadyQueue.call s op = none := by
  generalize hk : 0 = k at hs
  cases hs with
  | loop | popped | assign | destroy => simp at hk
  | @outside nodes q que xs ready processes made kept =>
    cases op with
    | push process =>
      have hp : process = 0 := by simpa [Op.apply] using hop
      simp [ReadyQueue.call, hp]
    | pop =>
      have hl : l = [] := by simpa [Op.apply] using hop
      subst hl
      have hx : xs = [] := List.map_eq_nil_iff.mp processes
      simp [ReadyQueue.call, ready.front_eq, hx]
    | unregister process =>
      have hp : process = 0 := by simpa [Op.apply] using hop
      simp [ReadyQueue.call, hp]

/-! ### Runs -/

/-- Every `unregisterProcess` of the calls finds no other process in the queue. -/
def Lone (ops : List Op) : Prop :=
  ∀ pre process, pre ++ [Op.unregister process] <+: ops → process ≠ 0 →
    ∀ l, content pre = some l → ∀ x ∈ l, x = process

theorem Lone.of_prefix {pre : List Op} (hl : Lone ops) (hp : pre <+: ops) : Lone pre :=
  fun pre' process hpre ↦ hl pre' process (hpre.trans hp)

/-- Where the machine stands after any calls. -/
theorem Reach.stands (hr : Reach ops s) (hl : clean → Lone ops) :
    ∃ l n, content ops = some l ∧ Stands clean l n s := by
  induction hr with
  | initial => exact ⟨[], 0, rfl, stands_initial⟩
  | @call ops op s s' _ outside here ih =>
    obtain ⟨l, n, hcontent, hs⟩ := ih fun hc ↦ Lone.of_prefix (hl hc) (List.prefix_append _ _)
    obtain rfl := hs.outside_iff.mp outside
    cases hop : op.apply l with
    | none =>
      rw [hs.call_eq_none hop] at here
      cases here
    | some l' =>
      obtain ⟨s'', n, hcall, hs', -⟩ := hs.call hop fun hc process he x hx ↦ by
        subst he
        have hp : process ≠ 0 := by
          rintro rfl
          simp [Op.apply] at hop
        exact hl hc ops process List.prefix_rfl hp l hcontent x hx
      rw [hcall] at here
      cases here
      exact ⟨l', n, by simp [hcontent, hop], hs'⟩
  | @step ops s s' _ here ih =>
    obtain ⟨l, n, hcontent, hs⟩ := ih hl
    cases n with
    | zero =>
      have hout := hs.outside_iff.mpr rfl
      simp [ReadyQueue.step, hout] at here
    | succ n =>
      obtain ⟨s'', hstep, hs'⟩ := hs.step
      rw [hstep] at here
      cases here
      exact ⟨l, n, hcontent, hs'⟩

/-- Calls that the list allows come to their end. -/
theorem returns (ops : List Op) : Returns ops := by
  induction ops using List.reverseRec with
  | nil => exact fun _ ↦ ⟨initial, .initial, rfl⟩
  | append_singleton ops op ih =>
    intro hsome
    rw [content_append, Option.isSome_iff_exists] at hsome
    obtain ⟨l', hl'⟩ := hsome
    obtain ⟨l, hcontent, hop⟩ := Option.bind_eq_some_iff.mp hl'
    obtain ⟨s, hr, hout⟩ := ih (by simp [hcontent])
    obtain ⟨l₀, n, hcontent', hs⟩ := hr.stands (False.elim : False → _)
    rw [hcontent] at hcontent'
    cases hcontent'
    obtain rfl := hs.outside_iff.mp hout
    obtain ⟨s₁, n, hcall, hs₁, -⟩ := hs.call hop False.elim
    obtain ⟨s', hsteps, hs'⟩ := hs₁.steps (Nat.zero_le n)
    exact ⟨s', (Reach.call hr hout hcall).steps hsteps, hs'.outside_iff.mpr rfl⟩

/-- A state is as it should be where the ready queue has clean nodes and `que`, if it is still
there, has none. -/
theorem sound_of_holds {xs : List (Nat × Process)} (ready : s.readyQueue.Holds s.nodes.heap xs)
    (hlive : s.live = [s.readyQueue] ∨
      s.live = [s.readyQueue, s.que] ∧ s.que.Holds s.nodes.heap [])
    (kept : ∀ a ∈ xs.map Prod.fst, a ∉ s.nodes.deleted)
    (processes : s.pc = .outside → content ops = some (xs.map Prod.snd)) : Sound ops s := by
  have hall : ∀ q ∈ s.live, q = s.readyQueue ∨ q = s.que ∧ s.que.Holds s.nodes.heap [] := by
    intro q hq
    rcases hlive with h | ⟨h, hque⟩
    · rw [h] at hq
      exact .inl (List.mem_singleton.mp hq)
    · rw [h] at hq
      rcases List.mem_cons.mp hq with hq | hq
      · exact .inl hq
      · exact .inr ⟨List.mem_singleton.mp hq, hque⟩
  constructor
  · intro q hq
    rcases hall q hq with rfl | ⟨rfl, hque⟩
    · exact ⟨⟨xs, ready⟩, by rw [ready.head_eq_none_iff, ready.tail_eq_none_iff]⟩
    · exact ⟨⟨[], hque⟩, by rw [hque.head_eq_none_iff, hque.tail_eq_none_iff]⟩
  · exact fun hout ↦ ⟨xs, ready, processes hout⟩
  · intro q hq a ha
    rcases hall q hq with rfl | ⟨rfl, hque⟩
    · exact kept a (ready.chain.reachable_iff.mp ha)
    · cases hque.chain.reachable_iff.mp ha
  · rcases hlive with h | ⟨h, hque⟩
    · rw [h]
      exact List.pairwise_singleton _ _
    · rw [h, List.pairwise_pair]
      intro a _ ha
      cases hque.chain.reachable_iff.mp ha

/-- A place with clean nodes is as it should be. -/
theorem Stands.sound (hs : Stands True l n s) (hl : content ops = some l) : Sound ops s := by
  cases hs with
  | outside ready processes _ kept =>
    exact sound_of_holds ready (.inl rfl) (kept trivial) fun _ ↦ by rw [hl, processes]
  | @loop _ _ _ _ _ ys ready moved _ processes _ kept =>
    -- Nothing is moved, as nothing is left over.
    have hys : ys = [] := by
      rw [(kept trivial).1] at processes
      exact List.map_eq_nil_iff.mp (List.append_eq_nil_iff.mp processes).1
    subst hys
    exact sound_of_holds ready (.inr ⟨rfl, moved⟩) (kept trivial).2 nofun
  | @popped _ _ _ _ _ _ ys ready moved _ processes _ kept =>
    have hys : ys = [] := by
      rw [(kept trivial).1] at processes
      exact List.map_eq_nil_iff.mp (List.append_eq_nil_iff.mp processes).1
    subst hys
    exact sound_of_holds ready (.inr ⟨rfl, moved⟩) (kept trivial).2 nofun
  | assign ready moved processes _ kept =>
    have hys := List.map_eq_nil_iff.mp (processes.trans (kept trivial))
    subst hys
    exact sound_of_holds ready (.inr ⟨rfl, moved⟩) (by simp) nofun
  | destroy ready processes _ _ _ kept =>
    have hxs := List.map_eq_nil_iff.mp (processes.trans (kept trivial))
    rw [hxs] at ready
    exact sound_of_holds ready (.inl rfl) (by simp) nofun

/-- The last statement of a call that leaves processes in the queue finds their nodes deleted. -/
theorem Stands.not_sound (hs : Stands clean l 1 s) (hl : l ≠ []) : ¬ Sound ops s := by
  intro hsound
  generalize hk : 1 = k at hs
  cases hs with
  | outside | loop | popped | assign => simp at hk
  | @destroy nodes q que elem us ys ready processes rest done made kept =>
    have hys : ys = [] := List.eq_nil_of_length_eq_zero (by omega)
    subst hys
    rw [List.append_nil] at ready processes
    cases us with
    | nil => exact hl processes.symm
    | cons p us =>
      refine hsound.kept q (by simp [State.live]) p.1 ?_ (done p.1 (by simp))
      exact ready.chain.reachable_iff.mpr (by simp)

/-- Exactly while every `unregisterProcess` finds no other process in the queue, it is a list in the
order of the calls all of whose nodes are its own. The calls come to their end in any case. -/
theorem sound_iff_lone (ops : List Op) :
    (∀ pre, pre <+: ops → Returns pre ∧ ∀ s, Reach pre s → Sound pre s) ↔ Lone ops := by
  constructor
  · intro h pre process hpre hp l hl
    by_contra hx
    push Not at hx
    obtain ⟨x, hmem, hne⟩ := hx
    obtain ⟨s, hr, hout⟩ := (h pre ((List.prefix_append _ _).trans hpre)).1 (by simp [hl])
    obtain ⟨l₀, n, hl₀, hs⟩ := hr.stands (False.elim : False → _)
    rw [hl] at hl₀
    cases hl₀
    obtain rfl := hs.outside_iff.mp hout
    have hop : (Op.unregister process).apply l = some (l.filter (· ≠ process)) := by
      simp [Op.apply, hp]
    obtain ⟨s₁, n, hcall, hs₁, hn⟩ := hs.call hop False.elim
    obtain ⟨s', hsteps, hs'⟩ := hs₁.steps (hn ⟨process, rfl⟩)
    refine hs'.not_sound ?_ ((h _ hpre).2 s' ((Reach.call hr hout hcall).steps hsteps))
    exact List.ne_nil_of_mem (List.mem_filter.mpr ⟨hmem, by simpa using hne⟩)
  · intro hlone pre hpre
    refine ⟨returns pre, fun s hr ↦ ?_⟩
    obtain ⟨l, n, hl, hs⟩ := hr.stands fun _ : True ↦ Lone.of_prefix hlone hpre
    exact hs.sound hl

/-- One process is queued and another one yields: the node that was moved is in the ready queue, and
the destructor of `que` has deleted it. -/
theorem not_sound_yield :
    ¬ ∀ pre, pre <+: [Op.push 1, .unregister 2] →
      Returns pre ∧ ∀ s, Reach pre s → Sound pre s := by
  intro h
  have hloop : Reach [.push 1, .unregister 2] _ :=
    .call (.call .initial rfl rfl) rfl rfl
  have hpopped := hloop.step rfl
  have hmoved := hpopped.step rfl
  have hassign := hmoved.step rfl
  have hdestroy := hassign.step rfl
  have hdeleted := hdestroy.step rfl
  exact ((h _ List.prefix_rfl).2 _ hdeleted).kept _ (List.mem_singleton_self _) 1 (.here 1)
    (List.mem_cons_self ..)

end Orfos.Sched.ReadyQueue
