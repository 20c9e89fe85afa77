import Orfos.Console.Buffer

/-!
# The stream of the console

What the calls of `readline` deliver, taken together, is what was committed without the bytes
`0x04`, and each call stops at the end of a line, at its length or at `0x04`. `readline` keeps this
up to the first call that comes to a `0x04`, which it delivers like any other byte, or that returns
more than a `char` can hold.
-/

namespace Orfos.Console

open Orfos.Base

/-- What a call of `readline` should have done. A `0x04` at its end is taken by a call that delivers
nothing, and left to the next one otherwise. -/
structure Call.Meets (c : Call) : Prop where
  count : c.ret = c.got.length
  length : c.got.length ≤ c.max
  eof : 0x04 ∉ c.got
  line : 0x0a ∉ c.got.dropLast
  stops : (c.last = some 0x0a ∧ c.got.getLast? = some 0x0a ∧ c.taken = c.got.length) ∨
    (c.last = none ∧ c.got.length = c.max ∧ c.taken = c.got.length) ∨
    (c.last = some 0x04 ∧ c.taken = if c.got = [] then 1 else c.got.length)

/-- The bytes that a reader has got in its call. -/
def Reader.got : Reader → List UInt8
  | .idle => []
  | .reading _ _ _ got => got

/-- A reader in the middle of a call. -/
structure Reader.Runs (delivered : List UInt8) (len max taken : Nat) (got : List UInt8) :
    Prop where
  le : len ≤ max
  length : got.length = max - len
  line : 0x0a ∉ got
  delivers : ∀ c ∈ got, c ∈ delivered
  takes : 0x04 ∉ got → taken = got.length

/-- The call of a reader goes as its code says. -/
def Reader.Fits (delivered : List UInt8) : Reader → Prop
  | .idle => True
  | .reading len max taken got => Reader.Runs delivered len max taken got

theorem Reader.Fits.mono {delivered : List UInt8} {r : Reader} (h : r.Fits delivered)
    (c : UInt8) : r.Fits (delivered ++ [c]) := by
  cases r with
  | idle => trivial
  | reading len max taken got =>
    exact { h with delivers := fun x hx ↦ List.mem_append_left _ (h.delivers x hx) }

/-- Calls have a length that is not negative, and their buffers are valid. -/
def Event.Valid : Event → Prop
  | .type _ => True
  | .read _ n => 0 ≤ n
  | .turn _ copied => copied = true

instance (e : Event) : Decidable e.Valid :=
  match e with
  | .type _ => .isTrue trivial
  | .read _ n => inferInstanceAs (Decidable (0 ≤ n))
  | .turn _ copied => inferInstanceAs (Decidable (copied = true))

/-- Only reader `t` reads. -/
def Event.Only (t : Nat) : Event → Prop
  | .type _ => True
  | .read u _ => u = t
  | .turn u _ => u = t

namespace Machine

variable {s s' : Machine}

/-- What is delivered is what is committed, without the bytes `0x04`, and all calls did what they
should have done. -/
structure Law (s : Machine) : Prop where
  delivered : s.delivered = (s.terminal.line.take s.terminal.read).filter (· ≠ 0x04)
  calls : ∀ c ∈ s.calls, c.Meets

/-- A reader does not come to a `0x04`, and does not return with more than 255 bytes. -/
def Clean (s : Machine) : Event → Prop
  | .type _ => True
  | .read _ _ => True
  | .turn t _ =>
    match s.readers t with
    | .idle => True
    | .reading len max _ _ =>
      (len = 0 → max < 256) ∧
        (len ≠ 0 → s.cons.readPos ≠ s.cons.writePos →
          s.cons.buf (index s.cons.readPos) ≠ 0x04 ∧
            (s.cons.buf (index s.cons.readPos) = 0x0a → max - (len - 1) < 256))

instance (s : Machine) (e : Event) : Decidable (s.Clean e) :=
  match e with
  | .type _ => .isTrue trivial
  | .read _ _ => .isTrue trivial
  | .turn t _ =>
    match h : s.readers t with
    | .idle => .isTrue (by rw [Clean, h]; trivial)
    | .reading len max _ _ => decidable_of_iff
        ((len = 0 → max < 256) ∧
          (len ≠ 0 → s.cons.readPos ≠ s.cons.writePos →
            s.cons.buf (index s.cons.readPos) ≠ 0x04 ∧
              (s.cons.buf (index s.cons.readPos) = 0x0a → max - (len - 1) < 256)))
        (by rw [Clean, h])

/-! ### One round -/

/-- The state after a byte is taken and delivered. -/
def passed (s : Machine) (t len max taken : Nat) (got : List UInt8) (c : UInt8) : Machine :=
  (s.advance (c = 0x04 ∧ len < max)).deliver t (len - 1) max
    (if c = 0x04 ∧ len < max then taken else taken + 1) got c

/-- What a round with a valid buffer does. -/
theorem turn_true {t : Nat} (hs : s.turn t true = some s') :
    ∃ len max taken got, s.readers t = .reading len max taken got ∧
      ((len = 0 ∧ s' = s.return_ t len max taken got none) ∨
        (len ≠ 0 ∧ s.cons.readPos = s.cons.writePos ∧ s' = s) ∨
        (len ≠ 0 ∧ s.cons.readPos ≠ s.cons.writePos ∧
          ∃ c, c = s.cons.buf (index s.cons.readPos) ∧
            s' = if c = 0x0a then
                (s.passed t len max taken got c).return_ t (len - 1) max (taken + 1) (got ++ [c])
                  (some c)
              else s.passed t len max taken got c)) := by
  unfold turn at hs
  split at hs
  · cases hs
  · next len max taken got hr =>
    refine ⟨len, max, taken, got, hr, ?_⟩
    split at hs
    · next hlen => exact .inl ⟨hlen, (Option.some.inj hs).symm⟩
    · next hlen =>
      split at hs
      · next heq => exact .inr (.inl ⟨hlen, heq, (Option.some.inj hs).symm⟩)
      · next hne =>
        refine .inr (.inr ⟨hlen, hne, _, rfl, ?_⟩)
        simp only [if_true, decide_eq_true_eq] at hs
        split at hs
        · next hc =>
          rw [if_pos hc, ← Option.some.inj hs, hc, passed]
          simp
        · next hc =>
          rw [if_neg hc, ← Option.some.inj hs, passed]

/-- The next byte is in the buffer if the reader does not wait. -/
theorem next_byte (h : Rep s.cons s.terminal) (hne : s.cons.readPos ≠ s.cons.writePos) :
    s.terminal.line[s.terminal.read]? = some (s.cons.buf (index s.cons.readPos)) := by
  have hread := h.read
  have hwaits := mt h.waits.mpr hne
  exact h.next (by omega)

/-! ### Calls in progress -/

/-- Every reader is in no call, or in one that goes as its code says. -/
def Fits (s : Machine) : Prop := ∀ t, (s.readers t).Fits s.delivered

theorem fits_passed (h : s.Fits) {t len max taken : Nat} {got : List UInt8}
    (hr : s.readers t = .reading len max taken got) (hlen : len ≠ 0) {c : UInt8} (hc : c ≠ 0x0a) :
    (s.passed t len max taken got c).Fits := by
  have hruns : Reader.Runs s.delivered len max taken got := by
    have := h t
    rw [hr] at this
    exact this
  intro u
  change (Function.update s.readers t _ u).Fits (s.delivered ++ [c])
  by_cases hu : u = t
  · rw [hu, Function.update_self]
    have hle := hruns.le
    have hlength := hruns.length
    refine ⟨?_, ?_, ?_, ?_, ?_⟩
    · omega
    · rw [List.length_append, List.length_singleton]
      omega
    · rw [List.mem_append, List.mem_singleton]
      rintro (hmem | hmem)
      · exact hruns.line hmem
      · exact hc hmem.symm
    · intro x hx
      rw [List.mem_append] at hx ⊢
      exact hx.imp_left (hruns.delivers x)
    · intro hnot
      rw [List.mem_append, List.mem_singleton, not_or] at hnot
      rw [if_neg (fun hback ↦ hnot.2 hback.1.symm), hruns.takes hnot.1, List.length_append,
        List.length_singleton]
  · rw [Function.update_of_ne hu]
    exact (h u).mono c

theorem fits_return {t len max taken : Nat} {got : List UInt8} {last : Option UInt8}
    (h : ∀ u, u ≠ t → (s.readers u).Fits s.delivered) :
    (s.return_ t len max taken got last).Fits := by
  intro u
  change (Function.update s.readers t _ u).Fits s.delivered
  by_cases hu : u = t
  · rw [hu, Function.update_self]
    trivial
  · rw [Function.update_of_ne hu]
    exact h u hu

theorem fits_step (h : s.Fits) {e : Event} (hv : e.Valid) (hs : s.step e = some s') :
    s'.Fits := by
  cases e with
  | type c =>
    cases hs
    exact h
  | read t n =>
    unfold step at hs
    dsimp only at hs
    split at hs
    · cases hs
    · cases hs
      intro u
      change (Function.update s.readers t _ u).Fits s.delivered
      by_cases hu : u = t
      · rw [hu, Function.update_self]
        exact ⟨le_refl _, (Nat.sub_self _).symm, nofun, nofun, fun _ ↦ rfl⟩
      · rw [Function.update_of_ne hu]
        exact h u
  | turn t copied =>
    cases hv
    obtain ⟨len, max, taken, got, hr, ⟨-, rfl⟩ | ⟨-, -, rfl⟩ | ⟨hlen, -, c, -, rfl⟩⟩ := turn_true hs
    · exact fits_return fun u _ ↦ h u
    · exact h
    · split
      · refine fits_return fun u hu ↦ ?_
        change (Function.update s.readers t _ u).Fits (s.delivered ++ [c])
        rw [Function.update_of_ne hu]
        exact (h u).mono c
      · next hc => exact fits_passed h hr hlen hc

/-! ### The law -/

theorem law_return {t len max taken : Nat} {got : List UInt8} {last : Option UInt8} :
    (s.return_ t len max taken got last).Law ↔
      s.Law ∧ Call.Meets ⟨max, taken, got, last, (max - len) % 256⟩ := by
  constructor
  · intro h
    refine ⟨⟨h.delivered, fun c hc ↦ h.calls c (List.mem_append_left _ hc)⟩, ?_⟩
    exact h.calls _ (List.mem_append_right _ (List.mem_singleton_self _))
  · rintro ⟨h, hcall⟩
    refine ⟨h.delivered, fun c hc ↦ ?_⟩
    rcases List.mem_append.mp hc with hc | hc
    · exact h.calls c hc
    · rw [List.mem_singleton.mp hc]
      exact hcall

/-- No `0x04` was delivered. -/
theorem Law.no_eof (h : s.Law) : 0x04 ∉ s.delivered := by
  rw [h.delivered]
  simp

/-- A byte that is not `0x04` is delivered as it should be. -/
theorem law_passed (h : s.Law) {t len max taken : Nat} {got : List UInt8} {c : UInt8}
    (hnext : s.terminal.line[s.terminal.read]? = some c) :
    (s.passed t len max taken got c).Law ↔ c ≠ 0x04 := by
  constructor
  · rintro h' rfl
    exact h'.no_eof (List.mem_append_right _ (List.mem_singleton_self _))
  · intro hc
    have hread : (s.passed t len max taken got c).terminal =
        { s.terminal with read := s.terminal.read + 1 } := by
      simp [passed, advance, deliver, hc]
    refine ⟨?_, h.calls⟩
    change s.delivered ++ [c] = _
    rw [hread, List.take_add_one, hnext, List.filter_append, ← h.delivered]
    simp [hc]

/-- What is typed does not change what is committed. -/
theorem law_type (h : Rep s.cons s.terminal) (hl : s.Law) {c : UInt8}
    (hs : s.step (.type c) = some s') : s'.Law := by
  have hkeeps := keeps_step h hs
  have hread := h.read
  have hcommitted := h.committed
  have herased := hkeeps.erased
  cases hs
  refine ⟨?_, hl.calls⟩
  have hsame : (s.terminal.type c).read = s.terminal.read := by
    unfold Terminal.type
    split
    · split <;> rfl
    · split
      · rfl
      · split
        · dsimp only
          split <;> rfl
        · rfl
  change s.delivered = ((s.terminal.type c).line.take (s.terminal.type c).read).filter _
  rw [hl.delivered, hsame]
  congr 1
  apply List.ext_getElem?
  intro k
  rw [List.getElem?_take, List.getElem?_take]
  split
  · next hk => exact (hkeeps.line k (by omega) (by change _ ≤ _ at herased; omega)).symm
  · rfl

/-- The last call of a reader that is not in the middle of a `0x04`. -/
theorem meets_full {delivered : List UInt8} {max taken : Nat} {got : List UInt8}
    (h : Reader.Runs delivered 0 max taken got) (hno : 0x04 ∉ delivered) :
    Call.Meets ⟨max, taken, got, none, (max - 0) % 256⟩ ↔ max < 256 := by
  have hlength := h.length
  have hgot : 0x04 ∉ got := fun hc ↦ hno (h.delivers _ hc)
  constructor
  · intro hm
    have hcount := hm.count
    dsimp only at hcount
    omega
  · intro hlt
    refine ⟨?_, ?_, hgot, ?_, .inr (.inl ⟨rfl, ?_, h.takes hgot⟩)⟩
    · dsimp only
      omega
    · dsimp only
      omega
    · exact fun hc ↦ h.line (List.dropLast_subset _ hc)
    · dsimp only
      omega

theorem meets_line {delivered : List UInt8} {len max taken : Nat} {got : List UInt8}
    (h : Reader.Runs delivered len max taken got) (hlen : len ≠ 0) (hno : 0x04 ∉ delivered) :
    Call.Meets ⟨max, taken + 1, got ++ [0x0a], some 0x0a, (max - (len - 1)) % 256⟩ ↔
      max - (len - 1) < 256 := by
  have hle := h.le
  have hlength := h.length
  have hgot : 0x04 ∉ got := fun hc ↦ hno (h.delivers _ hc)
  have hadd : (got ++ [(0x0a : UInt8)]).length = got.length + 1 := List.length_append
  constructor
  · intro hm
    have hcount := hm.count
    dsimp only at hcount
    omega
  · intro hlt
    refine ⟨?_, ?_, ?_, ?_, .inl ⟨rfl, ?_, ?_⟩⟩
    · dsimp only
      omega
    · dsimp only
      omega
    · rw [List.mem_append, List.mem_singleton]
      rintro (hc | hc)
      · exact hgot hc
      · cases hc
    · dsimp only
      rw [List.dropLast_concat]
      exact h.line
    · exact List.getLast?_concat
    · dsimp only
      rw [hadd, h.takes hgot]

/-- A step keeps the law if and only if it is clean. -/
theorem law_step (h : Rep s.cons s.terminal) (hf : s.Fits) (hl : s.Law) {e : Event}
    (hv : e.Valid) (hs : s.step e = some s') : s'.Law ↔ s.Clean e := by
  cases e with
  | type c => exact iff_of_true (law_type h hl hs) trivial
  | read t n =>
    refine iff_of_true ?_ trivial
    unfold step at hs
    dsimp only at hs
    split at hs
    · cases hs
    · cases hs
      exact ⟨hl.delivered, hl.calls⟩
  | turn t copied =>
    cases hv
    have hno := hl.no_eof
    obtain ⟨len, max, taken, got, hr, hcases⟩ := turn_true hs
    have hruns : Reader.Runs s.delivered len max taken got := by
      have := hf t
      rw [hr] at this
      exact this
    simp only [Clean, hr]
    rcases hcases with ⟨rfl, rfl⟩ | ⟨hlen, hwait, rfl⟩ | ⟨hlen, hne, c, hc, rfl⟩
    · rw [law_return, meets_full hruns hno]
      simp [hl]
    · simp [hl, hlen, hwait]
    · have hnext := next_byte h hne
      rw [← hc] at hnext ⊢
      split
      · next hline =>
        subst hline
        rw [law_return, law_passed hl hnext, meets_line hruns hlen hno]
        simp [hlen, hne]
      · next hline =>
        rw [law_passed hl hnext]
        simp [hlen, hne, hline]

/-- The bytes of the calls of one reader, one call after the other. -/
theorem joined_step {t : Nat} (h : s.delivered = s.calls.flatMap Call.got ++ (s.readers t).got)
    {e : Event} (hv : e.Valid) (ht : e.Only t) (hs : s.step e = some s') :
    s'.delivered = s'.calls.flatMap Call.got ++ (s'.readers t).got := by
  cases e with
  | type c =>
    cases hs
    exact h
  | read u n =>
    cases ht
    unfold step at hs
    dsimp only at hs
    split at hs
    · cases hs
    · next hidle =>
      cases hs
      rw [hidle] at h
      change s.delivered = s.calls.flatMap Call.got ++ (Function.update s.readers t _ t).got
      rw [h, Function.update_self]
      rfl
  | turn u copied =>
    cases hv
    cases ht
    obtain ⟨len, max, taken, got, hr, ⟨-, rfl⟩ | ⟨-, -, rfl⟩ | ⟨-, -, c, -, rfl⟩⟩ := turn_true hs
    · rw [hr] at h
      simp [return_, h, Reader.got]
    · exact h
    · rw [hr] at h
      split
      · simp [return_, passed, deliver, advance, h, Reader.got]
      · simp [passed, deliver, advance, h, Reader.got]

/-! ### Runs -/

theorem Initial.fits (h : s.Initial) : s.Fits := by
  intro t
  rw [h.readers]
  trivial

theorem Initial.law (h : s.Initial) : s.Law := by
  refine ⟨?_, ?_⟩
  · rw [h.delivered, h.terminal]
    rfl
  · rw [h.calls]
    nofun

theorem Initial.all_fits {s₀ : Machine} (h₀ : s₀.Initial) {good : Machine → Event → Prop}
    (hgood : ∀ s e, good s e → e.Valid) (hr : Run step good s₀ s) : s.Fits :=
  hr.invariant (I := Fits) h₀.fits fun _ _ _ h hg hs ↦ fits_step h (hgood _ _ hg) hs

/-- The bytes delivered are what is committed, and every call does what it should, in every run in
which no reader comes to a `0x04` or returns with more than 255 bytes. The first step that is not
clean breaks this. -/
theorem stream_law {s₀ : Machine} (h₀ : s₀.Initial) :
    (∀ s, Run step (fun s e ↦ e.Valid ∧ s.Clean e) s₀ s → s.Law) ∧
      (∀ t s, Run step (fun s e ↦ (e.Valid ∧ s.Clean e) ∧ e.Only t) s₀ s →
        s.delivered = s.calls.flatMap Call.got ++ (s.readers t).got) ∧
      ∀ s e s', Run step (fun _ e ↦ e.Valid) s₀ s → s.Law → e.Valid → s.step e = some s' →
        (s'.Law ↔ s.Clean e) := by
  refine ⟨fun s hr ↦ ?_, fun t s hr ↦ ?_, fun s e s' hr hl hv hs ↦ ?_⟩
  · have hall : (Rep s.cons s.terminal ∧ s.Fits) ∧ s.Law := by
      refine hr.invariant (I := fun s ↦ (Rep s.cons s.terminal ∧ s.Fits) ∧ s.Law)
        ⟨⟨h₀.rep, h₀.fits⟩, h₀.law⟩ ?_
      intro s e s' ⟨⟨h, hf⟩, hl⟩ hg hs
      exact ⟨⟨rep_step h hs, fits_step hf hg.1 hs⟩, (law_step h hf hl hg.1 hs).mpr hg.2⟩
    exact hall.2
  · refine hr.invariant (I := fun s ↦ s.delivered = s.calls.flatMap Call.got ++ (s.readers t).got)
      ?_ fun _ _ _ h hg hs ↦ joined_step h hg.1.1 hg.2 hs
    rw [h₀.delivered, h₀.calls, h₀.readers]
    rfl
  · exact law_step (h₀.runs hr) (h₀.all_fits (fun _ _ hv ↦ hv) hr) hl hv hs

/-- Two lines are read in three calls, with a length that is reached in between. -/
def reading : List Event :=
  [.type 0x61, .type 0x62, .type 0x0d, .read 0 1, .turn 0 true, .turn 0 true, .read 0 8,
    .turn 0 true, .turn 0 true]

theorem stream_law_reading :
    (final step boot reading).delivered = [0x61, 0x62, 0x0a] ∧
      (final step boot reading).calls.map Call.ret = [1, 2] ∧ (final step boot reading).Law :=
  ⟨by decide +kernel, by decide +kernel,
    (stream_law boot_initial).1 _ (run_final (by decide +kernel) (by decide +kernel))⟩

/-- A byte and an end of file are typed, and read by a call with room for five bytes. -/
def eof : List Event :=
  [.type 0x61, .type 0x04, .read 0 5, .turn 0 true, .turn 0 true, .turn 0 true, .turn 0 true,
    .turn 0 true, .turn 0 true]

/-- The `0x04` is delivered four times. -/
theorem eof_delivered :
    ¬ ∀ s, Run step (fun _ e ↦ e.Valid) boot s → s.Law := by
  intro h
  have hr : Run step (fun _ e ↦ e.Valid) boot (final step boot eof) :=
    run_final (by decide +kernel) (by decide +kernel)
  have hdelivered : (final step boot eof).delivered = [0x61, 0x04, 0x04, 0x04, 0x04] := by
    decide +kernel
  have hno := (h _ hr).no_eof
  rw [hdelivered] at hno
  simp at hno

end Machine

end Orfos.Console
