import Orfos.Base.Traced

/-!
# Programs with a promise

A program delivers if it returns into a postcondition and its calls meet a promise. The rules say
so for whole programs without a proof for each call, and allow for one way out: where `broken`
holds, a program may make a call that breaks the promise, or stop. Under `fatal` it does not return
then. A program that delivers thus meets its promise and returns if and only if it is not broken, as
soon as its postcondition says so.
-/

namespace Orfos.Base.Traced

variable {σ κ α β : Type}

/-- What is relied on at the calls of a run and what is promised there, when the promise may be
broken, and whether that stops the program. -/
structure Pledge (σ κ : Type) where
  good : κ → σ → Prop
  promise : κ → σ → Prop
  broken : Prop
  fatal : Prop

/-- The calls of the run from `s` meet the promise, and the run returns into `Q`. -/
def Fulfils (promise : κ → σ → Prop) (m : Traced σ κ α) (s : σ) (Q : α → σ → Prop) : Prop :=
  Met promise m s ∧ ∃ a, (m s).value = some a ∧ Q a (m s).state

/-- If the calls of the run from `s` are good, it returns into `Q` and keeps the promise, or it
breaks the promise or stops. -/
def Delivers (P : Pledge σ κ) (m : Traced σ κ α) (s : σ) (Q : α → σ → Prop) : Prop :=
  Met P.good m s → Fulfils P.promise m s Q ∨
    (P.broken ∧ ¬ Fulfils P.promise m s (fun _ _ ↦ True) ∧ (P.fatal → (m s).value = none))

variable {P : Pledge σ κ} {s t : σ} {Q Q' : α → σ → Prop}

theorem delivers_pure {a : α} (h : Q a s) : Delivers P (pure a : Traced σ κ α) s Q :=
  fun _ ↦ .inl ⟨fun _ he ↦ (by cases he), a, rfl, h⟩

theorem delivers_gets {f : σ → α} (h : Q (f s) s) : Delivers P (gets f : Traced σ κ α) s Q :=
  fun _ ↦ .inl ⟨fun _ he ↦ (by cases he), f s, rfl, h⟩

theorem delivers_modify {f : σ → σ} {Q : Unit → σ → Prop} (h : Q () (f s)) :
    Delivers P (modify f) s Q :=
  fun _ ↦ .inl ⟨fun _ he ↦ (by cases he), (), rfl, h⟩

theorem delivers_assert {p : σ → Prop} [DecidablePred p] {Q : Unit → σ → Prop} (hp : p s)
    (h : Q () s) : Delivers P (assert p) s Q :=
  fun _ ↦ .inl ⟨fun _ he ↦ (by cases he), (), if_pos hp, h⟩

/-- An assertion may fail where the program is broken. -/
theorem delivers_assert_or {p : σ → Prop} [DecidablePred p] {Q : Unit → σ → Prop}
    (hb : ¬ p s → P.broken) (h : p s → Q () s) : Delivers P (assert p) s Q := by
  by_cases hp : p s
  · exact delivers_assert hp (h hp)
  · have hnone : (assert p s : Outcome σ κ Unit).value = none := if_neg hp
    refine fun _ ↦ .inr ⟨hb hp, fun ⟨_, _, ha, _⟩ ↦ ?_, fun _ ↦ hnone⟩
    rw [hnone] at ha
    cases ha

theorem delivers_call {c : κ} {Q : Unit → σ → Prop} (hc : P.promise c s) (h : Q () s) :
    Delivers P (call c) s Q := by
  refine fun _ ↦ .inl ⟨fun e he ↦ ?_, (), rfl, h⟩
  rw [List.mem_singleton.mp he]
  exact hc

/-- A call that breaks the promise, in front of code that does not return. -/
theorem delivers_break {c : κ} {f : Unit → Traced σ κ α} (hb : P.broken) (hc : ¬ P.promise c s)
    (hf : P.fatal → (f () s).value = none) : Delivers P (call c >>= f) s Q := by
  refine fun _ ↦ .inr ⟨hb, fun h ↦ hc (h.1 (c, s) ?_), hf⟩
  exact List.mem_append_left _ (List.mem_singleton_self _)

theorem delivers_bind {m : Traced σ κ α} {f : α → Traced σ κ β} {R : α → σ → Prop}
    {Q : β → σ → Prop} (hm : Delivers P m s R) (hf : ∀ a t, R a t → Delivers P (f a) t Q) :
    Delivers P (m >>= f) s Q := by
  change Delivers P (Traced.bind m f) s Q
  unfold Delivers Fulfils Met Traced.bind at *
  cases hv : (m s).value with
  | none =>
    intro hg
    rcases hm hg with ⟨-, a, ha, -⟩ | hbroken
    · rw [hv] at ha
      cases ha
    · refine .inr ⟨hbroken.1, fun ⟨_, _, ha, _⟩ ↦ ?_, fun _ ↦ rfl⟩
      cases ha
  | some a =>
    simp only [List.mem_append]
    intro hg
    have hgm : ∀ e ∈ (m s).trace, P.good e.1 e.2 := fun e he ↦ hg e (.inl he)
    rcases hm hgm with ⟨hp, b, hb, hr⟩ | ⟨hbroken, hp, hfatal⟩
    · rw [hv] at hb
      cases hb
      rcases hf a _ hr fun e he ↦ hg e (.inr he) with ⟨hp', hq⟩ | ⟨hbroken, hp', hfatal⟩
      · exact .inl ⟨fun e he ↦ he.elim (hp e) (hp' e), hq⟩
      · exact .inr ⟨hbroken, fun h ↦ hp' ⟨fun e he ↦ h.1 e (.inr he), h.2⟩, hfatal⟩
    · refine .inr ⟨hbroken, fun h ↦ hp ⟨fun e he ↦ h.1 e (.inl he), a, hv, trivial⟩, fun hf ↦ ?_⟩
      have hnone := hfatal hf
      rw [hv] at hnone
      cases hnone

theorem delivers_gets_bind {g : σ → α} {f : α → Traced σ κ β} {Q : β → σ → Prop}
    (h : Delivers P (f (g s)) s Q) : Delivers P (gets g >>= f) s Q :=
  delivers_bind (R := fun a t ↦ a = g s ∧ t = s) (delivers_gets ⟨rfl, rfl⟩)
    fun _ _ ⟨ha, ht⟩ ↦ ha ▸ ht ▸ h

theorem delivers_modify_bind {g : σ → σ} {f : Unit → Traced σ κ β} {Q : β → σ → Prop}
    (h : Delivers P (f ()) (g s) Q) : Delivers P (modify g >>= f) s Q :=
  delivers_bind (R := fun _ t ↦ t = g s) (delivers_modify rfl) fun _ _ ht ↦ ht ▸ h

theorem delivers_assert_bind {p : σ → Prop} [DecidablePred p] {f : Unit → Traced σ κ β}
    {Q : β → σ → Prop} (hp : p s) (h : Delivers P (f ()) s Q) :
    Delivers P (assert p >>= f) s Q :=
  delivers_bind (R := fun _ t ↦ t = s) (delivers_assert hp rfl) fun _ _ ht ↦ ht ▸ h

theorem Delivers.imp {m : Traced σ κ α} (h : Delivers P m s Q) (hq : ∀ a t, Q a t → Q' a t) :
    Delivers P m s Q' := fun hg ↦
  (h hg).imp_left fun ⟨hp, a, ha, hqa⟩ ↦ ⟨hp, a, ha, hq a _ hqa⟩

/-- A program that has to return, and whose calls are of a kind that is promised. -/
theorem Ensures.delivers {R : Regime σ κ} {m : Traced σ κ α} {rel : σ → σ → Prop}
    {kind : κ → Prop} (h : Ensures R m s Q) (ht : R.total) (hg : ∀ c t, P.good c t → R.good c t)
    (hc : Confined rel kind m) (hk : ∀ c t, kind c → P.promise c t) : Delivers P m s Q := by
  intro hmet
  obtain ⟨a, t, ⟨hv, rfl, -⟩, hq⟩ := h.runs ht fun e he ↦ hg _ _ (hmet e he)
  exact .inl ⟨fun e he ↦ hk _ _ ((hc s).2 e he), a, hv, hq⟩

/-- The run keeps the promise and returns if the program is not broken. -/
theorem Delivers.keeps {m : Traced σ κ α} (h : Delivers P m s Q) (hb : ¬ P.broken)
    (hg : Met P.good m s) : Fulfils P.promise m s Q :=
  (h hg).resolve_right fun hbroken ↦ hb hbroken.1

/-- A run that keeps the promise and returns has returned into the postcondition. -/
theorem Delivers.fulfils_iff {m : Traced σ κ α} (h : Delivers P m s Q) (hg : Met P.good m s) :
    Fulfils P.promise m s Q' ↔ Fulfils P.promise m s fun a t ↦ Q a t ∧ Q' a t := by
  constructor
  · intro h'
    obtain ⟨hp, a, ha, hq'⟩ := h'
    rcases h hg with ⟨-, b, hb, hq⟩ | ⟨-, hfail, -⟩
    · rw [ha] at hb
      cases hb
      exact ⟨hp, a, ha, hq, hq'⟩
    · exact absurd ⟨hp, a, ha, trivial⟩ hfail
  · intro ⟨hp, a, ha, _, hq'⟩
    exact ⟨hp, a, ha, hq'⟩

/-- Where a broken promise is fatal, a run that returns has returned into the postcondition. -/
theorem Delivers.of_value {m : Traced σ κ α} {a : α} (h : Delivers P m s Q)
    (hg : Met P.good m s) (hf : P.fatal) (ha : (m s).value = some a) : Q a (m s).state := by
  rcases h hg with ⟨-, b, hb, hq⟩ | ⟨-, -, hnone⟩
  · rw [ha] at hb
    cases hb
    exact hq
  · rw [hnone hf] at ha
    cases ha

end Orfos.Base.Traced
