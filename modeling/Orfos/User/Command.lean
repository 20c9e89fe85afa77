import Orfos.User.Parsing

/-!
# Command lines one after the other

What `parseCommand` leaves in the command, for any lines parsed one after the other into the same
`Command` of `main`. A token is the string of its field only if a zero has been left behind it: the
fields keep the bytes of longer tokens of earlier lines.
-/

namespace Orfos.User

/-- There is a zero-terminated string in a field. -/
structure HasString (bytes : Nat → UInt8) (a : Nat) (u : List UInt8) : Prop where
  fits : u.length < MAX_ARG_LENGTH
  nonzero : ∀ c ∈ u, c ≠ 0
  chars : ∀ (i : Nat) (h : i < u.length), bytes (a + i) = u[i]
  nul : bytes (a + u.length) = 0

/-- A line parsed as it should be: each field has a string, which is its token if the token fits, and
which is empty if there is no token for it. -/
structure Right (L : Layout) (line : Line) (m : Memory) : Prop where
  clean : Clean L (L.line + line.chars.length) m
  used : ∀ k ≤ MAX_ARGS, ∀ t, (tokens line.chars)[k]? = some t →
    ∃ u, HasString m.bytes (L.field k) u ∧ (t.length < MAX_ARG_LENGTH → u = t)
  unused : ∀ k ≤ MAX_ARGS, (tokens line.chars)[k]? = none → HasString m.bytes (L.field k) []

/-- The memory before a call: the command is as the last call has left it, the line is in its place,
and anything is elsewhere. -/
def enter (L : Layout) (bytes : Nat → UInt8) (line : Line) (rest : Nat → UInt8) : Memory where
  bytes a :=
    if L.cmd ≤ a ∧ a < L.cmd + 384 then bytes a
    else if L.line ≤ a ∧ a ≤ L.line + line.chars.length then line.chars.getD (a - L.line) 0
    else rest a
  scanned := []
  writes := []

/-- The lines are parsed one after the other, and each of them as it should be. -/
def Sound (L : Layout) (bytes : Nat → UInt8) : List (Line × (Nat → UInt8)) → Prop
  | [] => True
  | (line, rest) :: calls =>
    ∃ fuel m, parseCommand L fuel (enter L bytes line rest) = some m ∧ Right L line m ∧
      Sound L m.bytes calls

/-- Every line is empty or ends in a space; every token for a field is shorter than the field and not
shorter than the tokens that earlier lines have put there, and there was a zero behind it in the
beginning. -/
def Fits (cmd : Nat → Nat → UInt8) (lines : List Line) : Prop :=
  ∀ (i : Nat) (line : Line), lines[i]? = some line → EndsInSpace line.chars ∧
    ∀ k ≤ MAX_ARGS, ∀ t, (tokens line.chars)[k]? = some t →
      t.length < MAX_ARG_LENGTH ∧ cmd k t.length = 0 ∧
        ∀ j < i, ∀ line' : Line, lines[j]? = some line' → ∀ t', (tokens line'.chars)[k]? = some t' →
          t'.length ≤ t.length

section

variable {L : Layout} {m : Memory} {nul : Nat} {cmd : Nat → Nat → UInt8} {l u : List UInt8}

/-! ### A call -/

theorem tokens_mem (hu : u ∈ tokens l) : u ≠ [] ∧ ∀ c ∈ u, c ∈ l := by
  induction hlen : l.length using Nat.strongRecOn generalizing l with
  | _ k ih =>
    subst hlen
    have hself {v : List UInt8} (h : u ∈ withToken [] v) : u ≠ [] ∧ u = v := by
      unfold withToken at h
      split at h
      · cases h
      · next hne =>
        rw [List.mem_singleton.mp h]
        exact ⟨hne, rfl⟩
    by_cases hspace : SPACE ∈ l
    · obtain ⟨v, r, rfl, hv⟩ := List.eq_append_cons_of_mem hspace
      rw [tokens_append hv, List.mem_append] at hu
      rcases hu with hu | hu
      · obtain ⟨hne, rfl⟩ := hself hu
        exact ⟨hne, fun c hc ↦ by simp [hc]⟩
      · obtain ⟨hne, hc⟩ := ih r.length (by rw [List.length_append, List.length_cons]; omega) hu rfl
        exact ⟨hne, fun c h ↦ by simp [hc c h]⟩
    · rw [tokens_word hspace] at hu
      obtain ⟨hne, rfl⟩ := hself hu
      exact ⟨hne, fun c hc ↦ hc⟩

/-- The first bytes of the fields are zero after `arg[0] = '\0'`, and nothing else changes. -/
theorem clearFields_eq (n : Nat) (m : Memory) :
    let m' := (List.range n).foldl (fun m k ↦ m.write (.field k) (L.field k) 0) m
    m'.scanned = m.scanned ∧ (∀ a, m'.bytes a = if ∃ k < n, a = L.field k then 0 else m.bytes a) ∧
      ∀ k a, (Object.field k, a) ∈ m'.writes ↔ (Object.field k, a) ∈ m.writes ∨
        k < n ∧ a = L.field k := by
  intro m'
  induction n with
  | zero => simp [m']
  | succ n ih =>
    obtain ⟨hscanned, hbytes, hwrites⟩ := ih
    have hm' : m' = ((List.range n).foldl (fun m k ↦ m.write (.field k) (L.field k) 0) m).write
        (.field n) (L.field n) 0 := by
      simp only [m', List.range_succ, List.foldl_append, List.foldl_cons, List.foldl_nil]
    rw [hm']
    refine ⟨hscanned, fun a ↦ ?_, fun k a ↦ ?_⟩
    · rw [Memory.bytes_write, hbytes]
      by_cases ha : a = L.field n
      · rw [if_pos ha, if_pos ⟨n, Nat.lt_succ_self n, ha⟩]
      · rw [if_neg ha]
        congr 1
        apply propext
        constructor
        · rintro ⟨k, hk, he⟩
          exact ⟨k, by omega, he⟩
        · rintro ⟨k, hk, rfl⟩
          have hne : k ≠ n := fun h ↦ ha (h ▸ rfl)
          exact ⟨k, by omega, rfl⟩
    · rw [Memory.write]
      dsimp only
      rw [List.mem_cons, hwrites]
      constructor
      · rintro (he | h | ⟨hk, ha⟩)
        · cases he
          exact .inr ⟨Nat.lt_succ_self _, rfl⟩
        · exact .inl h
        · exact .inr ⟨by omega, ha⟩
      · rintro (h | ⟨hk, rfl⟩)
        · exact .inr (.inl h)
        · by_cases hkn : k = n
          · exact .inl (by rw [hkn])
          · exact .inr (.inr ⟨by omega, rfl⟩)

variable {bytes rest : Nat → UInt8} {line : Line}

/-- The loop starts at the line, with empty fields. -/
theorem parsing_enter (L : Layout) (bytes : Nat → UInt8) (line : Line) (rest : Nat → UInt8) :
    Parsing L (fun k j ↦ bytes (L.field k + j)) line.chars [] L.line
        (clearFields L (enter L bytes line rest)) ∧
      Clean L (L.line + line.chars.length) (clearFields L (enter L bytes line rest)) := by
  obtain ⟨hscanned, hbytes, hwrites⟩ := clearFields_eq (L := L) (MAX_ARGS + 1)
    (enter L bytes line rest)
  change (clearFields L _).scanned = _ at hscanned
  change ∀ a, (clearFields L _).bytes a = _ at hbytes
  change ∀ k a, _ ∈ (clearFields L _).writes ↔ _ at hwrites
  have hshort := line.short
  have hapart := L.line_cmd
  have hline (i : Nat) (hi : i ≤ line.chars.length) :
      (clearFields L (enter L bytes line rest)).bytes (L.line + i) = line.chars.getD i 0 := by
    rw [hbytes, if_neg]
    · rw [enter]
      dsimp only
      rw [if_neg (by omega), if_pos (by omega), Nat.add_sub_cancel_left]
    · rintro ⟨k, hk, he⟩
      obtain ⟨hlo, hhi⟩ := L.field_add_lt (k := k) (j := 0) (by omega) (by decide)
      omega
  refine ⟨⟨fun i h ↦ ?_, ?_, Nat.le_refl _, by omega, line.nonzero, by simp, fun k hk j hj ↦ ?_⟩,
    fun a ha ↦ ?_, fun k a ha ↦ ?_⟩
  · rw [hline i (by omega)]
    simp [List.getD, List.getElem?_eq_getElem h]
  · rw [hline _ (Nat.le_refl _)]
    simp [List.getD]
  · obtain ⟨hlo, hhi⟩ := L.field_add_lt hk hj
    have hfirst : (∃ k' < MAX_ARGS + 1, L.field k + j = L.field k') ↔ j = 0 := by
      change j < 12 at hj
      constructor
      · rintro ⟨k', -, he⟩
        change L.cmd + 12 * k + j = L.cmd + 12 * k' at he
        omega
      · rintro rfl
        exact ⟨k, by omega, rfl⟩
    rw [hbytes, if_congr hfirst rfl rfl, stored, enter]
    simp only [List.getElem?_nil, if_pos (And.intro hlo hhi)]
  · rw [hscanned] at ha
    cases ha
  · rcases (hwrites k a).mp ha with ha | ⟨-, rfl⟩
    · cases ha
    · exact ⟨Nat.le_refl _, Nat.lt_add_of_pos_right (by decide)⟩

/-- A line as the fields of the command should find it. -/
def FitsNext (cmd : Nat → Nat → UInt8) (line : Line) : Prop :=
  EndsInSpace line.chars ∧ ∀ k ≤ MAX_ARGS, ∀ t, (tokens line.chars)[k]? = some t →
    t.length < MAX_ARG_LENGTH ∧ cmd k t.length = 0

theorem FitsNext.good (h : FitsNext cmd line) : Good 0 line.chars := by
  refine ⟨h.1, fun i t ht hi ↦ ?_⟩
  rw [Nat.zero_add] at hi
  exact Nat.le_of_lt (h.2 i hi t ht).1

/-- The fields have their tokens as strings exactly if these are shorter than the fields and there
was a zero behind them. -/
theorem right_iff (hc : Clean L (L.line + line.chars.length) m) (hgood : Good 0 line.chars)
    (hp : Parsing L cmd [] (tokens line.chars) nul m) :
    Right L line m ↔ FitsNext cmd line := by
  constructor
  · intro h
    refine ⟨hgood.1, fun k hk t ht ↦ ?_⟩
    obtain ⟨u, hu, hsame⟩ := h.used k hk t ht
    have hle : t.length ≤ MAX_ARG_LENGTH := hgood.2 k t ht (by omega)
    have hlt : t.length < MAX_ARG_LENGTH := by
      by_contra hfull
      have hlt : u.length < t.length := by
        have := hu.fits
        omega
      have hbyte := hp.fields k hk u.length hu.fits
      rw [hu.nul, stored, ht] at hbyte
      simp only [List.getD, List.getElem?_eq_getElem hlt, Option.getD_some] at hbyte
      exact (hp.words t (List.mem_of_getElem? ht)).2 _ (List.getElem_mem hlt) hbyte.symm
    refine ⟨hlt, ?_⟩
    have hnul := (hsame hlt ▸ hu).nul
    have hbyte := hp.fields k hk t.length hlt
    rw [hnul, stored, ht] at hbyte
    simpa [List.getD] using hbyte.symm
  · intro h
    refine ⟨hc, fun k hk t ht ↦ ⟨t, ?_, fun _ ↦ rfl⟩, fun k hk hnone ↦ ?_⟩
    · obtain ⟨hlt, hzero⟩ := h.2 k hk t ht
      refine ⟨hlt, (hp.words t (List.mem_of_getElem? ht)).2, fun i hi ↦ ?_, ?_⟩
      · rw [hp.fields k hk i (by omega), stored, ht]
        simp [List.getD, List.getElem?_eq_getElem hi]
      · rw [hp.fields k hk _ hlt, stored, ht]
        simpa [List.getD] using hzero
    · refine ⟨by decide, by simp, fun i hi ↦ absurd hi (Nat.not_lt_zero i), ?_⟩
      have hbyte := hp.fields k hk 0 (by decide)
      rw [stored, hnone] at hbyte
      exact hbyte

/-- A line is parsed as it should be exactly if it fits, and what it leaves in the fields. -/
theorem parseCommand_right_iff (L : Layout) (bytes : Nat → UInt8) (line : Line)
    (rest : Nat → UInt8) :
    (FitsNext (fun k j ↦ bytes (L.field k + j)) line →
      ∃ fuel m, parseCommand L fuel (enter L bytes line rest) = some m ∧ Right L line m) ∧
    ∀ fuel m, parseCommand L fuel (enter L bytes line rest) = some m → Right L line m →
      FitsNext (fun k j ↦ bytes (L.field k + j)) line ∧
        ∀ k ≤ MAX_ARGS, ∀ j < MAX_ARG_LENGTH, m.bytes (L.field k + j) =
          stored (fun k j ↦ bytes (L.field k + j)) (tokens line.chars) k j := by
  obtain ⟨hp, hc⟩ := parsing_enter L bytes line rest
  obtain ⟨hrun, hexists⟩ := parseFrom_clean_iff hp hc rfl
  constructor
  · intro hfits
    obtain ⟨m, hm, hc'⟩ := hexists hfits.good _ (Nat.lt_succ_self _)
    obtain ⟨hgood, hend⟩ := hrun _ m hm hc'
    exact ⟨_, m, hm, (right_iff hc' hgood hend).mpr hfits⟩
  · intro fuel m hm hright
    obtain ⟨hgood, hend⟩ := hrun fuel m hm hright.clean
    exact ⟨(right_iff hright.clean hgood hend).mp hright, hend.fields⟩

/-! ### Sequences of calls -/

variable {cmd' : Nat → Nat → UInt8} {lines : List Line}

/-- The bytes behind a token are those before the call, unless a longer token has been there. -/
theorem stored_eq_zero_iff {ts : List (List UInt8)} (hts : ∀ t ∈ ts, ∀ c ∈ t, c ≠ 0) {k j : Nat}
    (hj : j ≠ 0) :
    stored cmd ts k j = 0 ↔ cmd k j = 0 ∧ ∀ t, ts[k]? = some t → t.length ≤ j := by
  rw [stored]
  cases ht : ts[k]? with
  | none => simp [hj]
  | some t =>
    by_cases hlt : j < t.length
    · simp only [List.getD, List.getElem?_eq_getElem hlt, Option.getD_some]
      constructor
      · intro h0
        exact absurd h0 (hts t (List.mem_of_getElem? ht) _ (List.getElem_mem hlt))
      · rintro ⟨-, h⟩
        exact absurd (h t rfl) (Nat.not_le.mpr hlt)
    · simp [List.getD, Nat.not_lt.mp hlt]

/-- The lines fit if the first one does, and the others do over the fields that it leaves. -/
theorem fits_cons_iff (hcmd : ∀ k ≤ MAX_ARGS, ∀ j < MAX_ARG_LENGTH,
      cmd' k j = stored cmd (tokens line.chars) k j) :
    Fits cmd (line :: lines) ↔ FitsNext cmd line ∧ Fits cmd' lines := by
  have hts : ∀ t ∈ tokens line.chars, ∀ c ∈ t, c ≠ 0 := fun t ht c hc ↦
    line.nonzero c ((tokens_mem ht).2 c hc)
  have hzero {line' : Line} {k : Nat} (hk : k ≤ MAX_ARGS) {t : List UInt8}
      (ht : (tokens line'.chars)[k]? = some t) (hlt : t.length < MAX_ARG_LENGTH) :
      cmd' k t.length = 0 ↔
        cmd k t.length = 0 ∧ ∀ u, (tokens line.chars)[k]? = some u → u.length ≤ t.length := by
    rw [hcmd k hk _ hlt]
    apply stored_eq_zero_iff hts
    rw [ne_eq, List.length_eq_zero_iff]
    exact (tokens_mem (List.mem_of_getElem? ht)).1
  constructor
  · intro h
    constructor
    · obtain ⟨hends, hfields⟩ := h 0 line rfl
      refine ⟨hends, fun k hk t ht ↦ ?_⟩
      obtain ⟨hlt, h0, -⟩ := hfields k hk t ht
      exact ⟨hlt, h0⟩
    · intro i line' hline'
      obtain ⟨hends, hfields⟩ := h (i + 1) line' hline'
      refine ⟨hends, fun k hk t ht ↦ ?_⟩
      obtain ⟨hlt, h0, hearlier⟩ := hfields k hk t ht
      refine ⟨hlt, (hzero hk ht hlt).mpr ⟨h0, fun u hu ↦ hearlier 0 (by omega) line rfl u hu⟩, ?_⟩
      exact fun j hj line'' hline'' t' ht' ↦ hearlier (j + 1) (by omega) line'' hline'' t' ht'
  · rintro ⟨⟨hends, hfirst⟩, h⟩ i line' hline'
    cases i with
    | zero =>
      cases hline'
      refine ⟨hends, fun k hk t ht ↦ ?_⟩
      obtain ⟨hlt, h0⟩ := hfirst k hk t ht
      exact ⟨hlt, h0, fun j hj ↦ absurd hj (Nat.not_lt_zero j)⟩
    | succ i =>
      obtain ⟨hends', hfields⟩ := h i line' hline'
      refine ⟨hends', fun k hk t ht ↦ ?_⟩
      obtain ⟨hlt, h0, hearlier⟩ := hfields k hk t ht
      obtain ⟨h0', hfirst'⟩ := (hzero hk ht hlt).mp h0
      refine ⟨hlt, h0', fun j hj line'' hline'' t' ht' ↦ ?_⟩
      cases j with
      | zero =>
        cases hline''
        exact hfirst' t' ht'
      | succ j => exact hearlier j (by omega) line'' hline'' t' ht'

/-- Any lines that are parsed one after the other are parsed as they should be exactly if they
fit. -/
theorem sound_iff_fits (L : Layout) (bytes : Nat → UInt8)
    (calls : List (Line × (Nat → UInt8))) :
    Sound L bytes calls ↔ Fits (fun k j ↦ bytes (L.field k + j)) (calls.map Prod.fst) := by
  induction calls generalizing bytes with
  | nil =>
    refine iff_of_true trivial ?_
    intro i line h
    cases h
  | cons call calls ih =>
    obtain ⟨line, rest⟩ := call
    obtain ⟨hexists, hrun⟩ := parseCommand_right_iff L bytes line rest
    rw [Sound, List.map_cons]
    constructor
    · rintro ⟨fuel, m, hm, hright, hsound⟩
      obtain ⟨hfits, hfields⟩ := hrun fuel m hm hright
      exact (fits_cons_iff hfields).mpr ⟨hfits, (ih m.bytes).mp hsound⟩
    · intro h
      have hfits := ((fits_cons_iff fun _ _ _ _ ↦ rfl).mp h).1
      obtain ⟨fuel, m, hm, hright⟩ := hexists hfits
      obtain ⟨-, hfields⟩ := hrun fuel m hm hright
      exact ⟨fuel, m, hm, hright, (ih m.bytes).mpr ((fits_cons_iff hfields).mp h).2⟩

end

/-- The command `ls`, into a command without bytes: the scan goes on behind its end. -/
theorem not_sound_ls :
    ¬ Sound ⟨0, 128, 256, by decide, by decide, by decide⟩ (fun _ ↦ 0)
      [(⟨[0x6c, 0x73], by decide, by simp⟩, fun _ ↦ 0)] := by
  rintro ⟨fuel, m, hm, hright, -⟩
  obtain ⟨⟨hends, -⟩, -⟩ := (parseCommand_right_iff _ _ _ _).2 fuel m hm hright
  rcases hends with h | h
  · cases h
  · exact absurd h (by decide)

end Orfos.User
