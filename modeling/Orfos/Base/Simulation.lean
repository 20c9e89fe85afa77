import Mathlib.Data.List.Basic

/-!
# Simulation

A system steps under labels, which carry what goes in and what comes out. A run of a system is
one of a second system with the same labels if each of its steps is, in states that are related.
-/

namespace Orfos.Base

variable {σ τ ε : Type}

/-- Some steps, one for each label. -/
inductive Trace (step : σ → ε → σ → Prop) : σ → List ε → σ → Prop where
  | nil (s : σ) : Trace step s [] s
  | cons {s t u : σ} {e : ε} {es : List ε} (first : step s e t) (rest : Trace step t es u) :
    Trace step s (e :: es) u

namespace Trace

variable {step : σ → ε → σ → Prop} {step' : τ → ε → τ → Prop} {s t u : σ} {a : τ}
  {es es' : List ε}

/-- Runs compose. -/
theorem append (h : Trace step s es t) (h' : Trace step t es' u) : Trace step s (es ++ es') u := by
  induction h with
  | nil s => exact h'
  | cons first rest ih => exact .cons first (ih h')

/-- Steps that are steps of the second system make up a run of it. -/
theorem simulates {R : σ → τ → Prop} (h : Trace step s es t) (ha : R s a)
    (hstep : ∀ s e t a, R s a → step s e t → ∃ b, step' a e b ∧ R t b) :
    ∃ b, Trace step' a es b ∧ R t b := by
  induction h generalizing a with
  | nil s => exact ⟨a, .nil a, ha⟩
  | cons first rest ih =>
    obtain ⟨b, hab, hb⟩ := hstep _ _ _ a ha first
    obtain ⟨c, hbc, hc⟩ := ih hb
    exact ⟨c, .cons hab hbc, hc⟩

/-- Simulation along a function, in the states of an invariant. -/
theorem simulates_map {f : σ → τ} {I : σ → Prop} (h : Trace step s es t) (hs : I s)
    (hstep : ∀ s e t, I s → step s e t → I t ∧ step' (f s) e (f t)) :
    I t ∧ Trace step' (f s) es (f t) := by
  obtain ⟨_, hrun, ht, rfl⟩ := h.simulates (R := fun s a ↦ I s ∧ a = f s) ⟨hs, rfl⟩ (by
    rintro s e t _ ⟨hs, rfl⟩ hst
    obtain ⟨ht, hst'⟩ := hstep s e t hs hst
    exact ⟨f t, hst', ht, rfl⟩)
  exact ⟨ht, hrun⟩

end Trace
end Orfos.Base
