import Mathlib.Data.List.Basic

/-!
# Sole owners

A range of things each of which has exactly one owner: a list that it is on, a client that has
it, a thread that is handling it. An owner hands a thing over to another one; nothing is
duplicated and nothing is lost.
-/

namespace Orfos.Base

universe u v

variable {O : Type u} {P : Type v} {range : P → Prop} {owns owns' : O → P → Prop}

/-- The things of the range have one owner each, and nothing else has an owner. -/
structure SolelyOwned (range : P → Prop) (owns : O → P → Prop) : Prop where
  inside : ∀ {o p}, owns o p → range p
  owned : ∀ {p}, range p → ∃ o, owns o p
  sole : ∀ {o r p}, owns o p → owns r p → o = r

namespace SolelyOwned

/-- One owner has everything. -/
theorem of_one {o : O} (hself : ∀ p, owns o p ↔ range p)
    (hother : ∀ o' p, o' ≠ o → ¬ owns o' p) : SolelyOwned range owns where
  inside {o' p} h := by
    by_cases ho : o' = o
    · exact (hself p).mp (ho ▸ h)
    · exact absurd h (hother o' p ho)
  owned {p} h := ⟨o, (hself p).mpr h⟩
  sole {o₁ o₂ p} h₁ h₂ := by
    have hone : ∀ o', owns o' p → o' = o := fun o' h ↦ by_contra fun hne ↦ hother o' p hne h
    rw [hone o₁ h₁, hone o₂ h₂]

theorem congr (h : SolelyOwned range owns) (he : ∀ o p, owns' o p ↔ owns o p) :
    SolelyOwned range owns' where
  inside ho := h.inside ((he _ _).mp ho)
  owned hp := by
    obtain ⟨o, ho⟩ := h.owned hp
    exact ⟨o, (he o _).mpr ho⟩
  sole h₁ h₂ := h.sole ((he _ _).mp h₁) ((he _ _).mp h₂)

/-- An owner hands a thing over: only these two owners and this thing are concerned. -/
theorem hand {o r : O} {p : P} (h : SolelyOwned range owns) (hold : owns o p)
    (hself : owns' r p) (hgone : ¬ owns' o p)
    (hother : ∀ x q, q ≠ p ∨ x ≠ o ∧ x ≠ r → (owns' x q ↔ owns x q)) :
    SolelyOwned range owns' := by
  have hone (x : O) (hx : owns' x p) : x = r := by
    by_contra hne
    have hxo : x ≠ o := fun he ↦ hgone (he ▸ hx)
    exact hxo (h.sole ((hother x p (.inr ⟨hxo, hne⟩)).mp hx) hold)
  constructor
  · intro x q hx
    by_cases hq : q = p
    · exact hq ▸ h.inside hold
    · exact h.inside ((hother x q (.inl hq)).mp hx)
  · intro q hr
    by_cases hq : q = p
    · exact ⟨r, hq ▸ hself⟩
    · obtain ⟨x, hx⟩ := h.owned hr
      exact ⟨x, (hother x q (.inl hq)).mpr hx⟩
  · intro x y q hx hy
    by_cases hq : q = p
    · subst hq
      rw [hone x hx, hone y hy]
    · exact h.sole ((hother x q (.inl hq)).mp hx) ((hother y q (.inl hq)).mp hy)

end SolelyOwned

end Orfos.Base
