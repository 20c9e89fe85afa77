import Mathlib.Data.List.Basic

/-!
# Sequential programs with a call trace

A program takes a state to an outcome: the state it stopped in, the value it returned, if
it returned at all, and the trace of the calls it made, each with the state it was made in.
A failed assertion, an acquisition that blocks forever and undefined behaviour all stop a
program without a value; the trace and the last state survive, so that statements about
every state seen during a run also cover the runs that do not return.

`Ensures` is the judgement that programs are verified with. A regime fixes what the calls
of a run may rely on, what has to hold wherever the run may be cut off, and whether the
program has to return.
-/

namespace Orfos.Base

/-- What a run leaves behind. -/
structure Outcome (σ κ α : Type) where
  trace : List (κ × σ)
  state : σ
  value : Option α

/-- A program over states `σ` that announces calls `κ` and returns an `α`. -/
def Traced (σ κ α : Type) : Type := σ → Outcome σ κ α

namespace Traced

variable {σ κ α β : Type}

/-- Return without a step. -/
protected def pure (a : α) : Traced σ κ α := fun s ↦ ⟨[], s, some a⟩

/-- Sequential composition; a stopped program stays stopped. -/
protected def bind (m : Traced σ κ α) (f : α → Traced σ κ β) : Traced σ κ β := fun s ↦
  match (m s).value with
  | none => ⟨(m s).trace, (m s).state, none⟩
  | some a =>
    ⟨(m s).trace ++ (f a (m s).state).trace, (f a (m s).state).state, (f a (m s).state).value⟩

instance : Monad (Traced σ κ) where
  pure := Traced.pure
  bind := Traced.bind

/-- Sequences of three programs. -/
theorem bind_assoc {γ : Type} (m : Traced σ κ α) (f : α → Traced σ κ β) (g : β → Traced σ κ γ) :
    (m >>= f) >>= g = m >>= fun a ↦ f a >>= g := by
  funext s
  change Traced.bind (Traced.bind m f) g s = Traced.bind m (fun a ↦ Traced.bind (f a) g) s
  unfold Traced.bind
  cases (m s).value with
  | none => rfl
  | some a =>
    dsimp only
    cases (f a (m s).state).value with
    | none => rfl
    | some b => simp only [List.append_assoc]

theorem pure_bind (a : α) (f : α → Traced σ κ β) : (pure a : Traced σ κ α) >>= f = f a := rfl

/-- Announce a call in the current state. -/
def call (c : κ) : Traced σ κ Unit := fun s ↦ ⟨[(c, s)], s, some ()⟩

/-- Read a component of the state. -/
def gets (f : σ → α) : Traced σ κ α := fun s ↦ ⟨[], s, some (f s)⟩

/-- Change the state. -/
def modify (f : σ → σ) : Traced σ κ Unit := fun s ↦ ⟨[], f s, some ()⟩

/-- Stop without a value. -/
def stop : Traced σ κ α := fun s ↦ ⟨[], s, none⟩

/-- Stop unless the state meets a decidable condition. -/
def assert (p : σ → Prop) [DecidablePred p] : Traced σ κ Unit := fun s ↦
  ⟨[], s, if p s then some () else none⟩

/-- The states in which a run may be cut off: at a call, or where it ended. -/
def Cut (m : Traced σ κ α) (s t : σ) : Prop :=
  (∃ c, (c, t) ∈ (m s).trace) ∨ t = (m s).state

/-- Every call of a run met the condition `good` in the state it was made in. -/
def Met (good : κ → σ → Prop) (m : Traced σ κ α) (s : σ) : Prop :=
  ∀ e ∈ (m s).trace, good e.1 e.2

instance {good : κ → σ → Prop} [∀ c s, Decidable (good c s)] (m : Traced σ κ α) (s : σ) :
    Decidable (Met good m s) :=
  inferInstanceAs (Decidable (∀ e ∈ (m s).trace, good e.1 e.2))

/-- `m` returns `a` in `t`, and its calls met `good`. -/
def Runs (good : κ → σ → Prop) (m : Traced σ κ α) (s : σ) (a : α) (t : σ) : Prop :=
  (m s).value = some a ∧ (m s).state = t ∧ Met good m s

/-- What is relied on at a call, what holds wherever a run may be cut off, and whether
programs have to return. -/
structure Regime (σ κ : Type) where
  good : κ → σ → Prop
  crash : σ → Prop
  total : Prop

/-- If the calls of the run from `s` are good, then the crash condition holds wherever the
run may be cut off before its end, and the run returns into `Q`; a run that stops instead
does so where the crash condition holds, and only where programs need not return. -/
def Ensures (R : Regime σ κ) (m : Traced σ κ α) (s : σ) (Q : α → σ → Prop) : Prop :=
  Met R.good m s → (∀ e ∈ (m s).trace, R.crash e.2) ∧
    match (m s).value with
    | some a => Q a (m s).state
    | none => ¬ R.total ∧ R.crash (m s).state

variable {R : Regime σ κ} {s t : σ} {Q Q' : α → σ → Prop}

theorem ensures_pure {a : α} (h : Q a s) : Ensures R (pure a : Traced σ κ α) s Q :=
  fun _ ↦ ⟨fun _ he ↦ (by cases he), h⟩

theorem ensures_gets {f : σ → α} (h : Q (f s) s) :
    Ensures R (gets f : Traced σ κ α) s Q :=
  fun _ ↦ ⟨fun _ he ↦ (by cases he), h⟩

theorem ensures_modify {f : σ → σ} {Q : Unit → σ → Prop} (h : Q () (f s)) :
    Ensures R (modify f) s Q :=
  fun _ ↦ ⟨fun _ he ↦ (by cases he), h⟩

theorem ensures_stop (ht : ¬ R.total) (hc : R.crash s) :
    Ensures R (stop : Traced σ κ α) s Q :=
  fun _ ↦ ⟨fun _ he ↦ (by cases he), ht, hc⟩

theorem ensures_call {c : κ} {Q : Unit → σ → Prop} (hc : R.crash s)
    (h : R.good c s → Q () s) : Ensures R (call c) s Q := by
  intro hg
  refine ⟨fun e he ↦ ?_, h (hg (c, s) (List.mem_singleton.mpr rfl))⟩
  rw [List.mem_singleton.mp he]
  exact hc

/-- An assertion has to hold where programs have to return, and may be used after it. -/
theorem ensures_assert {p : σ → Prop} [DecidablePred p] {Q : Unit → σ → Prop}
    (ht : R.total → p s) (hc : R.crash s) (h : p s → Q () s) :
    Ensures R (assert p) s Q := by
  intro _
  refine ⟨fun e he ↦ (by cases he), ?_⟩
  by_cases hp : p s
  · simpa [assert, hp] using h hp
  · simpa [assert, hp] using ⟨fun h' ↦ hp (ht h'), hc⟩

/-- Judgements compose. -/
theorem ensures_bind {m : Traced σ κ α} {f : α → Traced σ κ β} {P : α → σ → Prop}
    {Q : β → σ → Prop} (hm : Ensures R m s P)
    (hf : ∀ a t, P a t → Ensures R (f a) t Q) : Ensures R (m >>= f) s Q := by
  change Ensures R (Traced.bind m f) s Q
  unfold Ensures Met Traced.bind at *
  cases hv : (m s).value with
  | none =>
    intro hg
    simpa only [hv] using hm hg
  | some a =>
    simp only [hv, List.mem_append] at hm ⊢
    intro hg
    obtain ⟨htr, hp⟩ := hm fun e he ↦ hg e (.inl he)
    obtain ⟨htr', hq⟩ := hf a _ hp fun e he ↦ hg e (.inr he)
    exact ⟨fun e he ↦ he.elim (htr e) (htr' e), hq⟩

theorem ensures_gets_bind {g : σ → α} {f : α → Traced σ κ β} {Q : β → σ → Prop}
    (h : Ensures R (f (g s)) s Q) : Ensures R (gets g >>= f) s Q :=
  ensures_bind (P := fun a t ↦ a = g s ∧ t = s) (ensures_gets ⟨rfl, rfl⟩)
    fun _ _ ⟨ha, ht⟩ ↦ ha ▸ ht ▸ h

theorem ensures_modify_bind {g : σ → σ} {f : Unit → Traced σ κ β} {Q : β → σ → Prop}
    (h : Ensures R (f ()) (g s) Q) : Ensures R (modify g >>= f) s Q :=
  ensures_bind (P := fun _ t ↦ t = g s) (ensures_modify rfl) fun _ _ ht ↦ ht ▸ h

theorem ensures_call_bind {c : κ} {f : Unit → Traced σ κ β} {Q : β → σ → Prop}
    (hc : R.crash s) (h : R.good c s → Ensures R (f ()) s Q) :
    Ensures R (call c >>= f) s Q :=
  ensures_bind (P := fun _ t ↦ R.good c s ∧ t = s) (ensures_call hc fun hg ↦ ⟨hg, rfl⟩)
    fun _ _ ⟨hg, ht⟩ ↦ ht ▸ h hg

theorem ensures_assert_bind {p : σ → Prop} [DecidablePred p] {f : Unit → Traced σ κ β}
    {Q : β → σ → Prop} (ht : R.total → p s) (hc : R.crash s)
    (h : p s → Ensures R (f ()) s Q) : Ensures R (assert p >>= f) s Q :=
  ensures_bind (P := fun _ t ↦ p s ∧ t = s) (ensures_assert ht hc fun hp ↦ ⟨hp, rfl⟩)
    fun _ _ ⟨hp, ht⟩ ↦ ht ▸ h hp

/-- A judgement may promise less. -/
theorem Ensures.imp {m : Traced σ κ α} (h : Ensures R m s Q)
    (hq : ∀ a t, Q a t → Q' a t) : Ensures R m s Q' := by
  intro hg
  obtain ⟨htr, hv⟩ := h hg
  refine ⟨htr, ?_⟩
  split at hv
  · exact hq _ _ hv
  · exact hv

/-- Two judgements about one run. -/
theorem Ensures.and {m : Traced σ κ α} (h : Ensures R m s Q) (h' : Ensures R m s Q') :
    Ensures R m s fun a t ↦ Q a t ∧ Q' a t := by
  intro hg
  obtain ⟨htr, hv⟩ := h hg
  obtain ⟨-, hv'⟩ := h' hg
  refine ⟨htr, ?_⟩
  split at hv
  · next ha =>
    rw [ha] at hv'
    exact ⟨hv, hv'⟩
  · exact hv

/-- A judgement holds in a regime that relies on more and demands less. -/
theorem Ensures.weaken {R' : Regime σ κ} {m : Traced σ κ α} (h : Ensures R m s Q)
    (hg : ∀ c t, R'.good c t → R.good c t) (hc : ∀ t, R.crash t → R'.crash t)
    (ht : R'.total → R.total) : Ensures R' m s Q := by
  intro hg'
  obtain ⟨htr, hv⟩ := h fun e he ↦ hg _ _ (hg' e he)
  refine ⟨fun e he ↦ hc _ (htr e he), ?_⟩
  split at hv
  · exact hv
  · exact ⟨fun h' ↦ hv.1 (ht h'), hc _ hv.2⟩

/-- A loop over a list keeps an invariant on the elements still to come. -/
theorem ensures_forM {f : α → Traced σ κ PUnit} {I : List α → σ → Prop} {xs : List α}
    (hs : I xs s)
    (hf : ∀ x rest t, I (x :: rest) t → Ensures R (f x) t fun _ ↦ I rest) :
    Ensures R (xs.forM f) s fun _ ↦ I [] := by
  induction xs generalizing s with
  | nil => exact ensures_pure hs
  | cons x rest ih =>
    change Ensures R (f x >>= fun _ ↦ rest.forM f) s _
    exact ensures_bind (hf x rest s hs) fun _ t ht ↦ ih ht

/-- A judgement speaks about the runs that return. -/
theorem Ensures.of_runs {m : Traced σ κ α} {a : α} (h : Ensures R m s Q)
    (hr : Runs R.good m s a t) : Q a t := by
  obtain ⟨hv, rfl, hg⟩ := hr
  have hq := (h hg).2
  rwa [hv] at hq

/-- A run that returns is one that a judgement is about, if nothing is asked of its calls. -/
theorem Runs.ensures {m : Traced σ κ α} {a : α} (hr : Runs R.good m s a t)
    (hc : ∀ u, R.crash u) (hq : Q a t) : Ensures R m s Q := by
  obtain ⟨hv, rfl, -⟩ := hr
  refine fun _ ↦ ⟨fun e _ ↦ hc e.2, ?_⟩
  rw [hv]
  exact hq

/-- A run that returns, in front of other code. -/
theorem Runs.ensures_bind {m : Traced σ κ α} {f : α → Traced σ κ β} {a : α} {Q : β → σ → Prop}
    (hr : Runs R.good m s a t) (hc : ∀ u, R.crash u) (h : Ensures R (f a) t Q) :
    Ensures R (m >>= f) s Q :=
  Traced.ensures_bind (hr.ensures hc (Q := fun b u ↦ b = a ∧ u = t) ⟨rfl, rfl⟩)
    fun _ _ ⟨ha, ht⟩ ↦ ha ▸ ht ▸ h

/-- Where programs have to return, they do. -/
theorem Ensures.runs {m : Traced σ κ α} (h : Ensures R m s Q) (ht : R.total)
    (hg : Met R.good m s) : ∃ a t, Runs R.good m s a t ∧ Q a t := by
  have hq := (h hg).2
  cases hv : (m s).value with
  | none =>
    rw [hv] at hq
    exact absurd ht hq.1
  | some a =>
    rw [hv] at hq
    exact ⟨a, _, ⟨hv, rfl, hg⟩, hq⟩

/-- If the postcondition implies the crash condition, it holds wherever the run is cut. -/
theorem Ensures.cut {m : Traced σ κ α} (h : Ensures R m s Q) (hg : Met R.good m s)
    (hq : ∀ a t, Q a t → R.crash t) (hc : Cut m s t) : R.crash t := by
  obtain ⟨htr, hv⟩ := h hg
  rcases hc with ⟨c, hmem⟩ | rfl
  · exact htr _ hmem
  · split at hv
    · exact hq _ _ hv
    · exact hv.2

/-- Whatever state a program starts in, it ends in a related one, and its calls are of a kind. -/
def Confined (rel : σ → σ → Prop) (kind : κ → Prop) (m : Traced σ κ α) : Prop :=
  ∀ s, rel s (m s).state ∧ ∀ e ∈ (m s).trace, kind e.1

section Confined

variable {rel : σ → σ → Prop} {kind : κ → Prop}

theorem confined_pure (hr : ∀ s, rel s s) (a : α) :
    Confined rel kind (pure a : Traced σ κ α) :=
  fun s ↦ ⟨hr s, fun _ he ↦ by cases he⟩

theorem confined_gets (hr : ∀ s, rel s s) (f : σ → α) :
    Confined rel kind (gets f : Traced σ κ α) :=
  fun s ↦ ⟨hr s, fun _ he ↦ by cases he⟩

theorem confined_assert (hr : ∀ s, rel s s) (p : σ → Prop) [DecidablePred p] :
    Confined rel kind (assert p : Traced σ κ Unit) :=
  fun s ↦ ⟨hr s, fun _ he ↦ by cases he⟩

theorem confined_modify {f : σ → σ} (hf : ∀ s, rel s (f s)) :
    Confined rel kind (modify f : Traced σ κ Unit) :=
  fun s ↦ ⟨hf s, fun _ he ↦ by cases he⟩

theorem confined_call (hr : ∀ s, rel s s) {c : κ} (hc : kind c) :
    Confined rel kind (call c : Traced σ κ Unit) := by
  refine fun s ↦ ⟨hr s, fun e he ↦ ?_⟩
  rw [List.mem_singleton.mp he]
  exact hc

theorem confined_bind (ht : ∀ s t u, rel s t → rel t u → rel s u) {m : Traced σ κ α}
    {f : α → Traced σ κ β} (hm : Confined rel kind m) (hf : ∀ a, Confined rel kind (f a)) :
    Confined rel kind (m >>= f) := by
  intro s
  change rel s (Traced.bind m f s).state ∧ ∀ e ∈ (Traced.bind m f s).trace, kind e.1
  unfold Traced.bind
  obtain ⟨h₁, h₂⟩ := hm s
  cases (m s).value with
  | none => exact ⟨h₁, h₂⟩
  | some a =>
    obtain ⟨h₃, h₄⟩ := hf a (m s).state
    refine ⟨ht _ _ _ h₁ h₃, fun e he ↦ ?_⟩
    rcases List.mem_append.mp he with he | he
    · exact h₂ e he
    · exact h₄ e he

theorem confined_forM (hr : ∀ s, rel s s) (ht : ∀ s t u, rel s t → rel t u → rel s u)
    {f : α → Traced σ κ PUnit} (hf : ∀ a, Confined rel kind (f a)) (xs : List α) :
    Confined rel kind (xs.forM f) := by
  induction xs with
  | nil => exact confined_pure hr _
  | cons x rest ih => exact confined_bind ht (hf x) fun _ ↦ ih

/-- What a program is confined to may be said with less. -/
theorem Confined.mono {rel' : σ → σ → Prop} {m : Traced σ κ α} (h : Confined rel kind m)
    (hr : ∀ s t, rel s t → rel' s t) : Confined rel' kind m :=
  fun s ↦ ⟨hr _ _ (h s).1, (h s).2⟩

/-- A confined program is one that returns into a related state, if it may stop. -/
theorem Confined.ensures {m : Traced σ κ α} (h : Confined rel kind m) (hc : ∀ t, R.crash t)
    (ht : ¬ R.total) : Ensures R m s fun _ ↦ rel s := by
  refine fun _ ↦ ⟨fun e _ ↦ hc e.2, ?_⟩
  split
  · exact (h s).1
  · exact ⟨ht, hc _⟩

end Confined

/-- Code behind an assertion that does not hold is not reached. -/
theorem value_assert_bind {p : σ → Prop} [DecidablePred p] {f : Unit → Traced σ κ α}
    (h : p s → (f () s).value = none) : ((assert p >>= f) s).value = none := by
  change (Traced.bind (assert p) f s).value = none
  by_cases hp : p s
  · simpa [Traced.bind, assert, hp] using h hp
  · simp [Traced.bind, assert, hp]

/-- The calls of the first part of a program are calls of the program. -/
theorem Met.left {good : κ → σ → Prop} {m : Traced σ κ α} {f : α → Traced σ κ β}
    (h : Met good (m >>= f) s) : Met good m s := by
  change Met good (Traced.bind m f) s at h
  unfold Met Traced.bind at h
  intro e he
  refine h e ?_
  split
  · exact he
  · exact List.mem_append_left _ he

/-- A run that returns, in two parts. -/
theorem runs_bind_iff {good : κ → σ → Prop} {m : Traced σ κ α} {f : α → Traced σ κ β} {b : β} :
    Runs good (m >>= f) s b t ↔ ∃ a u, Runs good m s a u ∧ Runs good (f a) u b t := by
  change Runs good (Traced.bind m f) s b t ↔ _
  unfold Runs Met Traced.bind
  cases hv : (m s).value with
  | none => simp
  | some a =>
    simp only [List.mem_append]
    constructor
    · rintro ⟨hb, ht, hg⟩
      exact ⟨a, _, ⟨rfl, rfl, fun e he ↦ hg e (.inl he)⟩, hb, ht, fun e he ↦ hg e (.inr he)⟩
    · rintro ⟨a', u, ⟨ha, rfl, hg⟩, hb, ht, hg'⟩
      cases ha
      exact ⟨hb, ht, fun e he ↦ he.elim (hg e) (hg' e)⟩

/-- The calls of the run from `s` meet a promise, and the run returns into `Q` if it returns. -/
def Keeps (promise : κ → σ → Prop) (m : Traced σ κ α) (s : σ) (Q : α → σ → Prop) : Prop :=
  Met promise m s ∧ ∀ a, (m s).value = some a → Q a (m s).state

/-- What a program keeps, it keeps after its first part. -/
theorem Keeps.of_bind {good promise : κ → σ → Prop} {m : Traced σ κ α} {f : α → Traced σ κ β}
    {Q : β → σ → Prop} {a : α} (h : Keeps promise (m >>= f) s Q) (hr : Runs good m s a t) :
    Keeps promise (f a) t Q := by
  change Keeps promise (Traced.bind m f) s Q at h
  obtain ⟨hv, rfl, -⟩ := hr
  unfold Keeps Met Traced.bind at h
  simp only [hv, List.mem_append] at h
  exact ⟨fun e he ↦ h.1 e (.inr he), h.2⟩

/-- A program that keeps a promise when its calls are good. -/
def Sure (good promise : κ → σ → Prop) (m : Traced σ κ α) (s : σ) (Q : α → σ → Prop) : Prop :=
  Met good m s → Keeps promise m s Q

section Sure

variable {good promise : κ → σ → Prop}

theorem sure_pure {a : α} (h : Q a s) : Sure good promise (pure a : Traced σ κ α) s Q := by
  refine fun _ ↦ ⟨fun _ he ↦ (by cases he), fun b hb ↦ ?_⟩
  cases hb
  exact h

theorem sure_call {c : κ} {Q : Unit → σ → Prop} (hc : promise c s) (h : Q () s) :
    Sure good promise (call c) s Q := by
  refine fun _ ↦ ⟨fun e he ↦ ?_, fun _ _ ↦ h⟩
  rw [List.mem_singleton.mp he]
  exact hc

theorem sure_bind {m : Traced σ κ α} {f : α → Traced σ κ β} {P : α → σ → Prop}
    {Q : β → σ → Prop} (hm : Sure good promise m s P)
    (hf : ∀ a t, Runs good m s a t → P a t → Sure good promise (f a) t Q) :
    Sure good promise (m >>= f) s Q := by
  change Sure good promise (Traced.bind m f) s Q
  unfold Sure Keeps Met Traced.bind at *
  cases hv : (m s).value with
  | none =>
    intro hg
    exact ⟨(hm hg).1, fun _ h ↦ by cases h⟩
  | some a =>
    simp only [List.mem_append]
    intro hg
    have hgm : Met good m s := fun e he ↦ hg e (.inl he)
    obtain ⟨hp, hq⟩ := hm hgm
    obtain ⟨hp', hq'⟩ := hf a _ ⟨hv, rfl, hgm⟩ (hq a hv) fun e he ↦ hg e (.inr he)
    exact ⟨fun e he ↦ he.elim (hp e) (hp' e), hq'⟩

/-- A judgement about a program whose calls meet the promise. -/
theorem Ensures.sure {m : Traced σ κ α} (h : Ensures R m s Q)
    (hp : ∀ e ∈ (m s).trace, promise e.1 e.2) : Sure R.good promise m s Q := by
  refine fun hg ↦ ⟨hp, fun a ha ↦ ?_⟩
  have hq := (h hg).2
  rwa [ha] at hq

/-- What a program is sure of, holds of its runs that return. -/
theorem Sure.of_runs {m : Traced σ κ α} {a : α} (h : Sure good promise m s Q)
    (hr : Runs good m s a t) : Q a t := by
  obtain ⟨hv, rfl, hg⟩ := hr
  exact (h hg).2 a hv

theorem Sure.imp {m : Traced σ κ α} (h : Sure good promise m s Q)
    (hq : ∀ a t, Q a t → Q' a t) : Sure good promise m s Q' :=
  fun hg ↦ ⟨(h hg).1, fun a ha ↦ hq _ _ ((h hg).2 a ha)⟩

/-- A state may be read first. -/
theorem sure_gets_bind {g : σ → α} {f : α → Traced σ κ β} {Q : β → σ → Prop}
    (h : Sure good promise (f (g s)) s Q) : Sure good promise (gets g >>= f) s Q := by
  change Sure good promise (Traced.bind (gets g) f) s Q
  exact h

theorem sure_modify_bind {g : σ → σ} {f : Unit → Traced σ κ β} {Q : β → σ → Prop}
    (h : Sure good promise (f ()) (g s) Q) : Sure good promise (modify g >>= f) s Q := by
  change Sure good promise (Traced.bind (modify g) f) s Q
  exact h

end Sure

end Traced
end Orfos.Base
