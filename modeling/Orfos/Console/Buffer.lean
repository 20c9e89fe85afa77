import Mathlib.Data.List.GetD
import Orfos.Base.Guarded
import Orfos.Console.Machine

/-!
# The line buffer

The positions of the buffer are those of the terminal modulo `2 ^ 64`, and the buffer holds what was
typed and neither erased nor read. They stay in order and at most `BUF_SIZE` apart, also after they
have wrapped around.
-/

namespace Orfos.Console

open Orfos.Base

/-! ### Positions modulo `2 ^ 64` -/

theorem index_ofNat (k : Nat) : index (UInt64.ofNat k) = Ring.place BUF_SIZE k := by
  apply Fin.ext
  change (UInt64.ofNat k).toNat % 1024 = k % 1024
  rw [UInt64.toNat_ofNat']
  omega

/-- The distance of two positions. -/
theorem toNat_sub_ofNat {a b : Nat} (hab : a ≤ b) (hlt : b < a + 2 ^ 64) :
    (UInt64.ofNat b - UInt64.ofNat a).toNat = b - a := by
  rw [UInt64.toNat_sub, UInt64.toNat_ofNat', UInt64.toNat_ofNat']
  omega

/-- Positions that are close are equal only if they count the same. -/
theorem ofNat_inj_of_close {a b : Nat} (hab : a ≤ b) (hlt : b < a + 2 ^ 64) :
    UInt64.ofNat b = UInt64.ofNat a ↔ b = a := by
  constructor
  · intro h
    have hsub := toNat_sub_ofNat hab hlt
    rw [h, UInt64.sub_self] at hsub
    change 0 = b - a at hsub
    omega
  · rintro rfl
    rfl

theorem ofNat_add_one (k : Nat) : UInt64.ofNat k + 1 = UInt64.ofNat (k + 1) := by
  rw [UInt64.ofNat_add]
  rfl

theorem ofNat_sub_one {k : Nat} (h : 0 < k) : UInt64.ofNat k - 1 = UInt64.ofNat (k - 1) := by
  obtain ⟨j, rfl⟩ : ∃ j, k = j + 1 := ⟨k - 1, by omega⟩
  rw [← ofNat_add_one, UInt64.add_sub_cancel]
  rfl

/-! ### The buffer and the terminal -/

/-- The buffer is in the state of the terminal. -/
structure Rep (s : Cons) (y : Terminal) : Prop where
  readPos : s.readPos = UInt64.ofNat y.read
  writePos : s.writePos = UInt64.ofNat y.committed
  editPos : s.editPos = UInt64.ofNat y.line.length
  read : y.read ≤ y.committed
  committed : y.committed ≤ y.line.length
  room : y.line.length ≤ y.read + BUF_SIZE
  full : y.line.length = y.read + BUF_SIZE → y.committed = y.line.length
  holds : Ring.Holds s.buf y.read y.line.length fun k ↦ y.line.getD k 0

variable {s : Cons} {y : Terminal}

/-- The positions are less than `2 ^ 64` apart. -/
theorem Rep.close (h : Rep s y) : y.read ≤ y.line.length ∧ y.line.length < y.read + 2 ^ 64 := by
  have hroom : y.line.length ≤ y.read + 1024 := h.room
  have hread := h.read
  have hcommitted := h.committed
  omega

/-- The room that is left in the buffer. -/
theorem Rep.distance (h : Rep s y) : (s.editPos - s.readPos).toNat = y.line.length - y.read := by
  rw [h.editPos, h.readPos]
  exact toNat_sub_ofNat h.close.1 h.close.2

/-- A byte is erased. -/
theorem Rep.erase (h : Rep s y) (hlt : y.committed < y.line.length) :
    Rep { s with editPos := s.editPos - 1 } { y with line := y.line.dropLast } := by
  have hroom : y.line.length ≤ y.read + 1024 := h.room
  have hlen : y.line.dropLast.length = y.line.length - 1 := List.length_dropLast
  refine ⟨h.readPos, h.writePos, ?_, h.read, ?_, ?_, ?_, ?_⟩
  · change s.editPos - 1 = UInt64.ofNat y.line.dropLast.length
    rw [h.editPos, ofNat_sub_one (by omega), hlen]
  · change y.committed ≤ y.line.dropLast.length
    omega
  · change y.line.dropLast.length ≤ y.read + 1024
    omega
  · change y.line.dropLast.length = y.read + 1024 → _
    omega
  · change Ring.Holds s.buf y.read y.line.dropLast.length fun k ↦ y.line.dropLast.getD k 0
    intro k hk hlast
    rw [h.holds k hk (by omega)]
    dsimp only
    rw [List.getD_eq_getElem _ _ (by omega), List.getD_eq_getElem _ _ hlast,
      List.getElem_dropLast]

/-- A byte is added, and committed if the buffer is full with it. -/
theorem Rep.add (h : Rep s y) (hlt : y.line.length < y.read + BUF_SIZE) (c : UInt8)
    (commit : Prop) [Decidable commit] (hc : y.line.length + 1 = y.read + BUF_SIZE → commit) :
    Rep ⟨Function.update s.buf (index s.editPos) c, s.readPos,
        if commit then s.editPos + 1 else s.writePos, s.editPos + 1⟩
      ⟨y.line ++ [c], if commit then (y.line ++ [c]).length else y.committed, y.read⟩ := by
  have hread := h.read
  have hcommitted := h.committed
  have hlt' : y.line.length < y.read + 1024 := hlt
  have hlen : (y.line ++ [c]).length = y.line.length + 1 := List.length_append
  have hplace : index s.editPos = Ring.place BUF_SIZE y.line.length := by
    rw [h.editPos, index_ofNat]
  refine ⟨h.readPos, ?_, ?_, ?_, ?_, ?_, ?_, ?_⟩
  · dsimp only
    split
    · rw [h.editPos, ofNat_add_one, hlen]
    · exact h.writePos
  · change s.editPos + 1 = _
    rw [h.editPos, ofNat_add_one, hlen]
  · change y.read ≤ if commit then _ else _
    split
    · omega
    · omega
  · change (if commit then _ else _) ≤ (y.line ++ [c]).length
    split
    · omega
    · omega
  · change (y.line ++ [c]).length ≤ y.read + 1024
    omega
  · change (y.line ++ [c]).length = y.read + BUF_SIZE → (if commit then _ else _) = _
    intro hfull
    rw [if_pos (hc (by omega))]
  · change Ring.Holds _ y.read (y.line ++ [c]).length fun k ↦ (y.line ++ [c]).getD k 0
    rw [hplace, hlen]
    have hold : Ring.Holds s.buf y.read y.line.length fun k ↦ (y.line ++ [c]).getD k 0 :=
      h.holds.congr fun k _ hk ↦ by
        rw [List.getD_append _ _ _ _ hk]
    refine (hold.store hlt c).extend ?_
    rw [Function.update_self, List.getD_append_right _ _ _ _ (le_refl _), Nat.sub_self]
    rfl

/-- A byte is typed. -/
theorem Rep.type (h : Rep s y) (c : UInt8) : Rep (consoleInterrupt s c) (y.type c) := by
  have hread := h.read
  have hcommitted := h.committed
  have hroom : y.line.length ≤ y.read + 1024 := h.room
  unfold consoleInterrupt Terminal.type
  by_cases herase : Erases c
  · rw [if_pos herase, if_pos herase]
    have hiff : s.editPos ≠ s.writePos ↔ y.committed < y.line.length := by
      rw [h.editPos, h.writePos, Ne, ofNat_inj_of_close hcommitted (by omega)]
      omega
    simp only [hiff]
    split
    · next hlt => exact h.erase hlt
    · exact h
  · rw [if_neg herase, if_neg herase]
    split
    · exact h
    · have hiff : s.editPos - s.readPos < UInt64.ofNat BUF_SIZE ↔
          y.line.length < y.read + BUF_SIZE := by
        rw [UInt64.lt_iff_toNat_lt, h.distance]
        change _ < 1024 ↔ _ < y.read + 1024
        omega
      simp only [hiff]
      split
      · next hlt =>
        have hlt' : y.line.length < y.read + 1024 := hlt
        have hfull : s.editPos + 1 - s.readPos = UInt64.ofNat BUF_SIZE ↔
            (y.line ++ [stored c]).length = y.read + BUF_SIZE := by
          rw [← UInt64.toNat_inj, h.editPos, h.readPos, ofNat_add_one,
            toNat_sub_ofNat (by omega) (by omega), List.length_append]
          change _ = 1024 ↔ _ + 1 = y.read + 1024
          omega
        have hadd := h.add hlt (stored c)
          (stored c = 0x0a ∨ stored c = 0x04 ∨
            (y.line ++ [stored c]).length = y.read + BUF_SIZE)
          (fun he ↦ .inr (.inr (by rw [List.length_append]; exact he)))
        simp only [hfull]
        split
        · next hcommit =>
          rw [if_pos hcommit, if_pos hcommit] at hadd
          exact hadd
        · next hcommit =>
          rw [if_neg hcommit, if_neg hcommit] at hadd
          exact hadd
      · exact h

/-- A reader takes a byte. -/
theorem Rep.take (h : Rep s y) (hlt : y.read < y.committed) :
    Rep { s with readPos := s.readPos + 1 } { y with read := y.read + 1 } := by
  have hroom := h.room
  refine ⟨?_, h.writePos, h.editPos, hlt, h.committed, ?_, ?_, h.holds.drop⟩
  · change s.readPos + 1 = _
    rw [h.readPos, ofNat_add_one]
  · change y.line.length ≤ y.read + 1 + BUF_SIZE
    omega
  · change y.line.length = y.read + 1 + BUF_SIZE → _
    omega

/-- There is a byte to read if and only if one is committed. -/
theorem Rep.waits (h : Rep s y) : s.readPos = s.writePos ↔ y.read = y.committed := by
  have hread := h.read
  have hcommitted := h.committed
  have hclose := h.close
  rw [h.readPos, h.writePos, eq_comm, ofNat_inj_of_close hread (by omega)]
  omega

/-- The next byte to read. -/
theorem Rep.next (h : Rep s y) (hlt : y.read < y.committed) :
    y.line[y.read]? = some (s.buf (index s.readPos)) := by
  have hcommitted := h.committed
  have hhold := h.holds y.read (le_refl _) (by omega)
  dsimp only at hhold
  rw [h.readPos, index_ofNat, hhold, List.getD_eq_getElem _ _ (by omega),
    List.getElem?_eq_getElem (by omega)]

namespace Machine

variable {s s' : Machine}

theorem rep_advance (h : Rep s.cons s.terminal) (hlt : s.terminal.read < s.terminal.committed)
    (back : Bool) : Rep (s.advance back).cons (s.advance back).terminal := by
  cases back with
  | false => exact h.take hlt
  | true =>
    have hback : (s.advance true).cons = s.cons := by
      simp only [advance, if_true, UInt64.add_sub_cancel]
    rw [hback]
    exact h

/-- What a round of `readline` does to the buffer. -/
theorem turn_cases {t : Nat} {copied : Bool} (hs : s.turn t copied = some s') :
    (s'.cons = s.cons ∧ s'.terminal = s.terminal) ∨
      (s.cons.readPos ≠ s.cons.writePos ∧ ∃ back,
        s'.cons = (s.advance back).cons ∧ s'.terminal = (s.advance back).terminal) := by
  unfold turn at hs
  split at hs
  · cases hs
  · next len max taken got _ =>
    split at hs
    · cases hs
      exact .inl ⟨rfl, rfl⟩
    · split at hs
      · cases hs
        exact .inl ⟨rfl, rfl⟩
      · next hne =>
        refine .inr ⟨hne, decide (s.cons.buf (index s.cons.readPos) = 0x04 ∧ len < max), ?_⟩
        dsimp only at hs
        split at hs
        · split at hs
          · cases hs
            exact ⟨rfl, rfl⟩
          · cases hs
            exact ⟨rfl, rfl⟩
        · cases hs
          exact ⟨rfl, rfl⟩

/-- Every step keeps the buffer in the state of the terminal. -/
theorem rep_step (h : Rep s.cons s.terminal) {e : Event} (hs : s.step e = some s') :
    Rep s'.cons s'.terminal := by
  cases e with
  | type c =>
    cases hs
    exact h.type c
  | read t n =>
    unfold step at hs
    dsimp only at hs
    split at hs
    · cases hs
    · cases hs
      exact h
  | turn t copied =>
    rcases turn_cases hs with ⟨hcons, hterm⟩ | ⟨hne, back, hcons, hterm⟩
    · rw [hcons, hterm]
      exact h
    · rw [hcons, hterm]
      refine rep_advance h ?_ back
      have hread := h.read
      have := mt h.waits.mpr hne
      omega

theorem Initial.rep (h : s.Initial) : Rep s.cons s.terminal := by
  obtain ⟨hread, hwrite, hedit⟩ := h.positions
  rw [h.terminal]
  refine ⟨hread, hwrite, hedit, le_refl _, le_refl _, Nat.zero_le _, nofun, fun k _ hk ↦ ?_⟩
  exact absurd hk (Nat.not_lt_zero k)

/-- The buffer is in the state of the terminal in every run. -/
theorem Initial.runs {s₀ : Machine} (h₀ : s₀.Initial) {good : Machine → Event → Prop}
    (hr : Run step good s₀ s) : Rep s.cons s.terminal :=
  hr.invariant (I := fun s ↦ Rep s.cons s.terminal) h₀.rep fun _ _ _ h _ hs ↦ rep_step h hs

/-- What was typed changes at its end only, and what is committed stays. -/
theorem line_step (h : Rep s.cons s.terminal) {e : Event} (hs : s.step e = some s') :
    (s'.terminal.line = s.terminal.line ∨ (∃ c, s'.terminal.line = s.terminal.line ++ [c]) ∨
        (s.terminal.committed < s.terminal.line.length ∧
          s'.terminal.line = s.terminal.line.dropLast)) ∧
      s.terminal.committed ≤ s'.terminal.committed ∧ s.terminal.read ≤ s'.terminal.read := by
  cases e with
  | type c =>
    cases hs
    have hcommitted := h.committed
    change (((s.terminal.type c).line = _ ∨ (∃ c', (s.terminal.type c).line = _) ∨
      (_ ∧ (s.terminal.type c).line = _)) ∧ _ ≤ (s.terminal.type c).committed ∧
        _ ≤ (s.terminal.type c).read)
    unfold Terminal.type
    split
    · split
      · next hlt => exact ⟨.inr (.inr ⟨hlt, rfl⟩), le_refl _, le_refl _⟩
      · exact ⟨.inl rfl, le_refl _, le_refl _⟩
    · split
      · exact ⟨.inl rfl, le_refl _, le_refl _⟩
      · split
        · dsimp only
          split
          · refine ⟨.inr (.inl ⟨_, rfl⟩), ?_, le_refl _⟩
            change s.terminal.committed ≤ (s.terminal.line ++ [stored c]).length
            rw [List.length_append]
            omega
          · exact ⟨.inr (.inl ⟨_, rfl⟩), le_refl _, le_refl _⟩
        · exact ⟨.inl rfl, le_refl _, le_refl _⟩
  | read t n =>
    unfold step at hs
    dsimp only at hs
    split at hs
    · cases hs
    · cases hs
      exact ⟨.inl rfl, le_refl _, le_refl _⟩
  | turn t copied =>
    rcases turn_cases hs with ⟨-, hterm⟩ | ⟨-, back, -, hterm⟩
    · rw [hterm]
      exact ⟨.inl rfl, le_refl _, le_refl _⟩
    · rw [hterm]
      refine ⟨.inl rfl, le_refl _, ?_⟩
      cases back with
      | false => exact Nat.le_succ _
      | true => exact le_refl _

/-- What a step leaves of the bytes that are not read yet. -/
structure Keeps (s s' : Machine) : Prop where
  committed : s.terminal.committed ≤ s'.terminal.committed
  read : s.terminal.read ≤ s'.terminal.read
  erased : s.terminal.committed ≤ s'.terminal.line.length
  line : ∀ k, k < s.terminal.line.length → k < s'.terminal.line.length →
    s'.terminal.line[k]? = s.terminal.line[k]?
  buf : ∀ k, s.terminal.read ≤ k → k < s.terminal.line.length →
    k < s'.terminal.read ∨ s'.terminal.line.length ≤ k ∨
      s'.cons.buf (Ring.place BUF_SIZE k) = s.cons.buf (Ring.place BUF_SIZE k)

/-- No step writes over a byte that is neither read nor erased, or erases a committed one. -/
theorem keeps_step (h : Rep s.cons s.terminal) {e : Event} (hs : s.step e = some s') :
    Keeps s s' := by
  have h' := rep_step h hs
  obtain ⟨hline, hcommitted, hread⟩ := line_step h hs
  have hle := h'.committed
  have hsame : ∀ k, k < s.terminal.line.length → k < s'.terminal.line.length →
      s'.terminal.line[k]? = s.terminal.line[k]? := by
    intro k hk hk'
    rcases hline with hline | ⟨c, hline⟩ | ⟨-, hline⟩
    · rw [hline]
    · rw [hline, List.getElem?_append_left hk]
    · rw [hline, List.length_dropLast] at hk'
      rw [hline, List.getElem?_dropLast, if_pos hk']
  refine ⟨hcommitted, hread, by omega, hsame, fun k hk hlt ↦ ?_⟩
  by_cases hk' : s'.terminal.read ≤ k ∧ k < s'.terminal.line.length
  · refine .inr (.inr ?_)
    rw [h.holds k hk hlt, h'.holds k hk'.1 hk'.2]
    dsimp only
    rw [List.getD_eq_getElem?_getD, hsame k hlt hk'.2, List.getD_eq_getElem?_getD]
  · omega

end Machine

/-- The positions in order, and as words as long as they have not wrapped around. -/
theorem Rep.ordered (h : Rep s y) :
    (s.writePos - s.readPos).toNat ≤ (s.editPos - s.readPos).toNat ∧
      (s.editPos - s.readPos).toNat ≤ BUF_SIZE ∧
      (s.editPos = s.readPos + UInt64.ofNat BUF_SIZE →
        s.writePos = s.editPos ∧ s.readPos ≠ s.writePos) ∧
      (y.line.length < 2 ^ 64 →
        s.readPos ≤ s.writePos ∧ s.writePos ≤ s.editPos ∧
          s.editPos.toNat ≤ s.readPos.toNat + BUF_SIZE) := by
  have hread := h.read
  have hcommitted := h.committed
  have hroom : y.line.length ≤ y.read + 1024 := h.room
  have hwrite : (s.writePos - s.readPos).toNat = y.committed - y.read := by
    rw [h.writePos, h.readPos]
    exact toNat_sub_ofNat hread (by omega)
  refine ⟨?_, ?_, ?_, ?_⟩
  · rw [hwrite, h.distance]
    omega
  · rw [h.distance]
    change _ ≤ 1024
    omega
  · intro hfull
    have hdist := h.distance
    rw [hfull, UInt64.add_comm, UInt64.add_sub_cancel] at hdist
    change 1024 = _ at hdist
    have hall := h.full (by change _ = y.read + 1024; omega)
    refine ⟨by rw [h.writePos, h.editPos, hall], ?_⟩
    rw [Ne, h.waits]
    omega
  · intro hlt
    rw [UInt64.le_iff_toNat_le, UInt64.le_iff_toNat_le, h.readPos, h.writePos, h.editPos,
      UInt64.toNat_ofNat', UInt64.toNat_ofNat', UInt64.toNat_ofNat']
    change _ ∧ _ ∧ _ ≤ _ + 1024
    omega

namespace Machine

/-- In every state of every run the positions are those of the terminal and in order, a full buffer
can be read, and no step writes over a byte that is neither read nor erased or erases a committed
one. -/
theorem positions_ordered {s₀ s : Machine} (h₀ : s₀.Initial)
    (hr : Run step (fun _ _ ↦ True) s₀ s) :
    Rep s.cons s.terminal ∧
      (s.cons.writePos - s.cons.readPos).toNat ≤ (s.cons.editPos - s.cons.readPos).toNat ∧
      (s.cons.editPos - s.cons.readPos).toNat ≤ BUF_SIZE ∧
      (s.cons.editPos = s.cons.readPos + UInt64.ofNat BUF_SIZE →
        s.cons.writePos = s.cons.editPos ∧ s.cons.readPos ≠ s.cons.writePos) ∧
      (s.terminal.line.length < 2 ^ 64 →
        s.cons.readPos ≤ s.cons.writePos ∧ s.cons.writePos ≤ s.cons.editPos ∧
          s.cons.editPos.toNat ≤ s.cons.readPos.toNat + BUF_SIZE) ∧
      ∀ e s', s.step e = some s' → Keeps s s' := by
  have h := h₀.runs hr
  obtain ⟨hwrite, hedit, hfull, hwords⟩ := h.ordered
  exact ⟨h, hwrite, hedit, hfull, hwords, fun e s' hs ↦ keeps_step h hs⟩

/-- Two bytes are typed, one is erased, a line is ended, and its first byte is read. -/
def erasing : List Event :=
  [.type 0x61, .type 0x62, .type 0x7f, .type 0x0d, .type 0x63, .read 0 1, .turn 0 true]

theorem positions_ordered_erasing :
    (final step boot erasing).cons.readPos = 1 ∧
      (final step boot erasing).cons.writePos = 2 ∧
      (final step boot erasing).cons.editPos = 3 ∧
      Rep (final step boot erasing).cons (final step boot erasing).terminal :=
  ⟨by decide +kernel, by decide +kernel, by decide +kernel,
    (positions_ordered boot_initial
      (run_final (by decide +kernel) (by simp only [erasing, Plays, implies_true, and_self]))).1⟩

end Machine

end Orfos.Console
