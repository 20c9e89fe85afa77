import Mathlib.Algebra.Ring.Nat
import Mathlib.Data.List.Basic

/-!
# Guarded runs

A system steps by a partial function of a state and an event. A guarded run takes only
steps that meet a condition on the state before the step and the event. What every guarded
step preserves holds in every state of every guarded run.
-/

namespace Orfos.Base

variable {σ ε : Type}

/-- Two parties. -/
instance (priority := high) two_neZero : NeZero 2 := ⟨by decide⟩

/-- `Run step good s t`: some steps that are all good lead from `s` to `t`. -/
inductive Run (step : σ → ε → Option σ) (good : σ → ε → Prop) (s : σ) : σ → Prop where
  | refl : Run step good s s
  | tail {t u : σ} {e : ε} (before : Run step good s t) (ok : good t e)
      (last : step t e = some u) : Run step good s u

namespace Run

variable {step : σ → ε → Option σ} {good good' : σ → ε → Prop} {s t u : σ}

/-- Runs compose. -/
theorem trans (h : Run step good s t) (h' : Run step good t u) : Run step good s u := by
  induction h' with
  | refl => exact h
  | tail _ ok last ih => exact .tail ih ok last

/-- What good steps preserve holds along a run. -/
theorem invariant {I : σ → Prop} (h : Run step good s t) (hs : I s)
    (hstep : ∀ t e u, I t → good t e → step t e = some u → I u) : I t := by
  induction h with
  | refl => exact hs
  | tail _ ok last ih => exact hstep _ _ _ ih ok last

/-- A condition may be weakened. -/
theorem mono (h : Run step good s t) (hg : ∀ s e, good s e → good' s e) :
    Run step good' s t := by
  induction h with
  | refl => exact .refl
  | tail _ ok last ih => exact .tail ih (hg _ _ ok) last

end Run

/-- Take the events of a list one after the other. -/
def play (step : σ → ε → Option σ) (s : σ) : List ε → Option σ
  | [] => some s
  | e :: es => (step s e).bind fun t ↦ play step t es

/-- A list of events is a run if its steps are good. -/
def Plays (step : σ → ε → Option σ) (good : σ → ε → Prop) (s : σ) : List ε → Prop
  | [] => True
  | e :: es => good s e ∧ ∀ t, step s e = some t → Plays step good t es

instance Plays.decidable (step : σ → ε → Option σ) (good : σ → ε → Prop)
    [∀ s e, Decidable (good s e)] (s : σ) : ∀ es : List ε, Decidable (Plays step good s es)
  | [] => .isTrue trivial
  | e :: es =>
    have : ∀ t, Decidable (Plays step good t es) := fun t ↦ Plays.decidable step good t es
    inferInstanceAs (Decidable (good s e ∧ ∀ t ∈ step s e, Plays step good t es))

theorem run_of_play {step : σ → ε → Option σ} {good : σ → ε → Prop} {s t : σ} {es : List ε}
    (h : play step s es = some t) (hg : Plays step good s es) : Run step good s t := by
  induction es generalizing s with
  | nil =>
    cases h
    exact .refl
  | cons e es ih =>
    simp only [play, Option.bind_eq_some_iff] at h
    obtain ⟨u, hu, hp⟩ := h
    exact (Run.tail .refl hg.1 hu).trans (ih hp (hg.2 u hu))

/-- The state after the events of a list, for evaluation. -/
def final (step : σ → ε → Option σ) (s : σ) (es : List ε) : σ := (play step s es).getD s

variable {step : σ → ε → Option σ} {good : σ → ε → Prop} {s : σ}

theorem run_final {es : List ε} (h : (play step s es).isSome) (hg : Plays step good s es) :
    Run step good s (final step s es) := by
  obtain ⟨t, ht⟩ := Option.isSome_iff_exists.mp h
  have hf : final step s es = t := by rw [final, ht, Option.getD_some]
  exact hf ▸ run_of_play ht hg

theorem step_final {e : ε} (h : (step s e).isSome) : step s e = some (final step s [e]) := by
  obtain ⟨t, ht⟩ := Option.isSome_iff_exists.mp h
  simp [final, play, ht]

end Orfos.Base
