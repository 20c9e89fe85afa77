import Mathlib.Logic.Basic

/-!
# Programs that return or halt

A program that may halt is a value of `Except`. `Ends` says what holds of the value it
returns and which reasons it may halt for; the rules follow the structure of a program.
-/

namespace Orfos.Base

universe u

variable {ε : Type u} {α β : Type}

/-- `m` returns a value in `Q`, or halts for a reason in `E`. -/
def Ends (E : ε → Prop) (Q : α → Prop) : Except ε α → Prop
  | .ok a => Q a
  | .error e => E e

variable {E E' : ε → Prop} {Q Q' : α → Prop} {m : Except ε α} {a : α} {e : ε}

@[simp] theorem ends_ok : Ends E Q (.ok a) ↔ Q a := Iff.rfl

@[simp] theorem ends_error : Ends E Q (.error e) ↔ E e := Iff.rfl

/-- Sequences of two programs. -/
theorem ends_bind {f : α → Except ε β} {P : β → Prop} (hm : Ends E Q m)
    (hf : ∀ a, Q a → Ends E P (f a)) : Ends E P (m.bind f) := by
  cases m with
  | ok a => exact hf a hm
  | error e => exact hm

/-- A program whose value is used by a function. -/
theorem ends_map {f : α → β} {P : β → Prop} (h : Ends E (fun a ↦ P (f a)) m) :
    Ends E P (m.map f) := by
  cases m with
  | ok a => exact h
  | error e => exact h

theorem map_eq_ok {f : α → β} {b : β} (h : m.map f = .ok b) : ∃ a, m = .ok a ∧ f a = b := by
  cases m with
  | ok a => exact ⟨a, rfl, Except.ok.inj h⟩
  | error e => cases h

theorem of_toOption (h : m.toOption = some a) : m = .ok a := by
  cases m with
  | ok b => rw [Option.some.inj h]
  | error e => cases h

namespace Ends

/-- A judgement may promise less. -/
theorem imp (h : Ends E Q m) (hq : ∀ a, Q a → Q' a) : Ends E Q' m := by
  cases m with
  | ok a => exact hq a h
  | error e => exact h

/-- A judgement may allow more reasons to halt. -/
theorem mono (h : Ends E Q m) (he : ∀ e, E e → E' e) : Ends E' Q m := by
  cases m with
  | ok a => exact h
  | error e => exact he e h

/-- What holds of a returned value. -/
theorem of_ok (h : Ends E Q m) (hm : m = .ok a) : Q a := by
  subst hm
  exact h

/-- What holds of the reason of a halt. -/
theorem of_error (h : Ends E Q m) (hm : m = .error e) : E e := by
  subst hm
  exact h

/-- A program without a reason to halt returns. -/
theorem returns (h : Ends (fun _ ↦ False) Q m) : ∃ a, m = .ok a ∧ Q a := by
  cases m with
  | ok a => exact ⟨a, rfl, h⟩
  | error e => exact h.elim

end Ends

end Orfos.Base
