import Orfos.User.Shell

/-!
# The loop over the tokens

`parseFrom` comes to a token in each round. As long as the line has a space behind its tokens and
the tokens are not longer than their fields, the loop stays on the line and writes to the fields
only; otherwise a round leaves one of them.
-/

namespace Orfos.User

section

variable {L : Layout} {m m' : Memory} {o : Object} {s t p n fuel nul : Nat}

@[simp] theorem bytes_looks : (m.looks p n).bytes = m.bytes := by
  induction n generalizing p m with
  | zero => rfl
  | succ n ih => exact ih

@[simp] theorem writes_looks : (m.looks p n).writes = m.writes := by
  induction n generalizing p m with
  | zero => rfl
  | succ n ih => exact ih

theorem mem_scanned_looks {a : Nat} (h : a ∈ (m.looks p n).scanned) :
    a ∈ m.scanned ∨ a < p + n := by
  induction n generalizing p m with
  | zero => exact .inl h
  | succ n ih =>
    rcases ih h with h | h
    · rcases List.mem_cons.mp h with rfl | h
      · exact .inr (by omega)
      · exact .inl h
    · exact .inr (by omega)

/-- The scan passes the characters of a token and stops at the byte behind it. -/
theorem scanToken_eq {u : List UInt8} (fuel : Nat)
    (hu : ∀ (i : Nat) (h : i < u.length), m.bytes (p + i) = u[i])
    (hchars : ∀ c ∈ u, c ≠ 0 ∧ c ≠ SPACE)
    (hstop : m.bytes (p + u.length) = 0 ∨ m.bytes (p + u.length) = SPACE) :
    scanToken fuel p m =
      if u.length < fuel then some (p + u.length, m.looks p (u.length + 1)) else none := by
  induction u generalizing p m fuel with
  | nil =>
    cases fuel with
    | zero => rfl
    | succ fuel =>
      have hstop' : m.bytes p = 0 ∨ m.bytes p = SPACE := hstop
      rw [if_pos (by simp)]
      unfold scanToken
      dsimp only
      rcases hstop' with h0 | hsp
      · rw [if_pos (show (m.look p).bytes p = 0 from h0)]
        rfl
      · split
        · rfl
        · rw [if_pos (show (m.look p).bytes p = SPACE from hsp)]
          rfl
  | cons c u ih =>
    have hc : m.bytes p = c := hu 0 (by simp)
    obtain ⟨h0, hsp⟩ := hchars c (by simp)
    cases fuel with
    | zero => rfl
    | succ fuel =>
      have hrest := ih (p := p + 1) (m := m.look p) fuel
        (fun i hi ↦ by
          have := hu (i + 1) (by simpa using hi)
          rw [Nat.add_assoc, Nat.add_comm 1 i]
          exact this)
        (fun c' hc' ↦ hchars c' (by simp [hc']))
        (by
          rw [Nat.add_assoc, Nat.add_comm 1]
          exact hstop)
      unfold scanToken
      dsimp only
      rw [if_neg (show ¬ (m.look p).bytes p = 0 from hc ▸ h0),
        if_neg (show ¬ (m.look p).bytes p = SPACE from hc ▸ hsp), hrest, List.length_cons]
      by_cases hlt : u.length < fuel
      · rw [if_pos hlt, if_pos (by omega), Nat.add_assoc, Nat.add_comm 1]
        rfl
      · rw [if_neg hlt, if_neg (by omega)]

/-- The memory after `getToken`. -/
def taken (L : Layout) (p n : Nat) (m : Memory) : Memory :=
  (strncpy .buf L.buf p n (m.looks p (n + 1))).write .buf (L.buf + n) 0

theorem getToken_eq {u : List UInt8} (fuel : Nat)
    (hu : ∀ (i : Nat) (h : i < u.length), m.bytes (p + i) = u[i])
    (hchars : ∀ c ∈ u, c ≠ 0 ∧ c ≠ SPACE)
    (hstop : m.bytes (p + u.length) = 0 ∨ m.bytes (p + u.length) = SPACE) (hshort : u.length ≤ 127) :
    getToken L fuel p m =
      if u.length < fuel then some (u.length, p + u.length, taken L p u.length m) else none := by
  rw [getToken, scanToken_eq fuel hu hchars hstop]
  split
  · simp only [Option.map_some, Nat.add_sub_cancel_left, toInt_eq hshort, taken]
  · rfl

/-- The bytes of a field after some tokens, over those before the call. -/
def stored (cmd : Nat → Nat → UInt8) (done : List (List UInt8)) (k j : Nat) : UInt8 :=
  match done[k]? with
  | some u => u.getD j (cmd k j)
  | none => if j = 0 then 0 else cmd k j

/-- The loop is at `l` of a line, with `done` in the fields. -/
structure Parsing (L : Layout) (cmd : Nat → Nat → UInt8) (l : List UInt8)
    (done : List (List UInt8)) (p : Nat) (m : Memory) : Prop where
  chars : ∀ (i : Nat) (h : i < l.length), m.bytes (p + i) = l[i]
  nul : m.bytes (p + l.length) = 0
  start : L.line ≤ p
  stop : p + l.length ≤ L.line + 127
  nonzero : ∀ c ∈ l, c ≠ 0
  words : ∀ u ∈ done, u ≠ [] ∧ ∀ c ∈ u, c ≠ 0
  fields : ∀ k ≤ MAX_ARGS, ∀ j < MAX_ARG_LENGTH, m.bytes (L.field k + j) = stored cmd done k j

variable {cmd : Nat → Nat → UInt8} {l r u : List UInt8} {done : List (List UInt8)}

theorem Layout.field_add_lt (L : Layout) {k j : Nat} (hk : k ≤ MAX_ARGS) (hj : j < MAX_ARG_LENGTH) :
    L.cmd ≤ L.field k + j ∧ L.field k + j < L.cmd + 384 := by
  change L.cmd ≤ L.cmd + 12 * k + j ∧ L.cmd + 12 * k + j < L.cmd + 384
  change k ≤ 31 at hk
  change j < 12 at hj
  omega

namespace Parsing

/-- The loop depends on the line and on the command. -/
theorem congr (hp : Parsing L cmd l done p m)
    (hcmd : ∀ a, L.cmd ≤ a → a < L.cmd + 384 → m'.bytes a = m.bytes a)
    (hline : ∀ a, L.line ≤ a → a < L.line + 128 → m'.bytes a = m.bytes a) :
    Parsing L cmd l done p m' := by
  have hstart := hp.start
  have hstop := hp.stop
  refine { hp with chars := fun i h ↦ ?_, nul := ?_, fields := fun k hk j hj ↦ ?_ }
  · rw [hline _ (by omega) (by omega)]
    exact hp.chars i h
  · rw [hline _ (by omega) (by omega)]
    exact hp.nul
  · obtain ⟨hlo, hhi⟩ := L.field_add_lt hk hj
    rw [hcmd _ hlo hhi]
    exact hp.fields k hk j hj

/-- The fields from the first unused one on are empty. -/
theorem empty_iff (hp : Parsing L cmd l done p m) {k : Nat} (hk : k ≤ MAX_ARGS) :
    m.bytes (L.field k) = 0 ↔ done.length ≤ k := by
  have hbyte : m.bytes (L.field k) = stored cmd done k 0 := hp.fields k hk 0 (by decide)
  rw [hbyte, stored]
  cases hu : done[k]? with
  | none => exact iff_of_true rfl (List.getElem?_eq_none_iff.mp hu)
  | some u =>
    obtain ⟨hlt, -⟩ := List.getElem?_eq_some_iff.mp hu
    obtain ⟨hne, hchars⟩ := hp.words u (List.mem_of_getElem? hu)
    cases u with
    | nil => exact absurd rfl hne
    | cons c u => exact iff_of_false (hchars c (by simp)) (by omega)

/-- A token goes to the first unused field. -/
theorem storeToken_eq (hp : Parsing L cmd l done p m) (size : Nat) :
    storeToken L size m =
      if done.length ≤ MAX_ARGS then
        strncpy (.field done.length) (L.field done.length) L.buf (toInt size) m
      else m := by
  have hfind : (List.range MAX_ARGS).find? (fun i ↦ m.bytes (L.field (i + 1)) = 0) =
      if 0 < done.length then
        if done.length ≤ MAX_ARGS then some (done.length - 1) else none
      else some 0 := by
    split
    · split
      · rw [List.find?_range_eq_some]
        refine ⟨?_, by rw [List.mem_range]; omega, fun j hj ↦ ?_⟩
        · rw [decide_eq_true_eq, hp.empty_iff (by omega)]
          omega
        · rw [Bool.not_eq_true', decide_eq_false_iff_not, hp.empty_iff (by omega)]
          omega
      · rw [List.find?_range_eq_none]
        intro j hj
        rw [Bool.not_eq_true', decide_eq_false_iff_not, hp.empty_iff (by omega)]
        omega
    · rw [List.find?_range_eq_some]
      refine ⟨?_, by simp, fun j hj ↦ absurd hj (Nat.not_lt_zero j)⟩
      rw [decide_eq_true_eq, hp.empty_iff (by decide)]
      omega
  unfold storeToken
  by_cases hzero : done.length = 0
  · rw [if_pos ((hp.empty_iff (k := 0) (by decide)).mpr (Nat.le_of_eq hzero)), if_pos (by omega),
      hzero]
  · rw [if_neg (fun h ↦ hzero (Nat.le_zero.mp ((hp.empty_iff (k := 0) (by decide)).mp h))), hfind,
      if_pos (by omega)]
    by_cases hle : done.length ≤ MAX_ARGS
    · rw [if_pos hle, if_pos hle]
      dsimp only
      rw [Nat.sub_add_cancel (by omega)]
    · rw [if_neg hle, if_neg hle]

/-- On past a separator. -/
theorem skip (hp : Parsing L cmd (u ++ SPACE :: r) done p m) :
    Parsing L cmd r done (p + u.length + 1) m := by
  have hlength : (u ++ SPACE :: r).length = u.length + 1 + r.length := by
    rw [List.length_append, List.length_cons]
    omega
  have hstart := hp.start
  have hstop := hp.stop
  rw [hlength] at hstop
  refine { hp with
    chars := fun i h ↦ ?_
    nul := ?_
    start := by omega
    stop := by omega
    nonzero := fun c hc ↦ hp.nonzero c (by simp [hc]) }
  · have hchar := hp.chars (u.length + 1 + i) (by omega)
    rw [List.getElem_append_right (by omega)] at hchar
    rw [show p + u.length + 1 + i = p + (u.length + 1 + i) by omega, hchar]
    simp [Nat.add_assoc, Nat.add_comm 1 i]
  · have hnul := hp.nul
    rw [hlength] at hnul
    rw [show p + u.length + 1 + r.length = p + (u.length + 1 + r.length) by omega]
    exact hnul

/-- `getToken` copies the token to `buf` and changes nothing else. -/
theorem bytes_taken (hp : Parsing L cmd (u ++ r) done p m) (a : Nat) :
    (taken L p u.length m).bytes a =
      if L.buf ≤ a ∧ a < L.buf + u.length then m.bytes (p + (a - L.buf))
      else if a = L.buf + u.length then 0 else m.bytes a := by
  have hlength : (u ++ r).length = u.length + r.length := List.length_append
  have hstart := hp.start
  have hstop := hp.stop
  have happart := L.line_buf
  rw [hlength] at hstop
  have hcopy := bytes_strncpy (o := .buf) (s := L.buf) (t := p) (n := u.length)
    (m := m.looks p (u.length + 1)) (fun i hi ↦ by
      have hchar := hp.chars i (by omega)
      rw [bytes_looks, hchar]
      exact hp.nonzero _ (List.getElem_mem _)) (by omega)
  simp only [bytes_looks] at hcopy
  rw [taken, Memory.bytes_write]
  by_cases hend : a = L.buf + u.length
  · have hout : ¬ (L.buf ≤ a ∧ a < L.buf + u.length) := by omega
    rw [if_neg hout, if_pos hend, if_pos hend]
  · rw [if_neg hend, hcopy, if_neg hend]

theorem taken (hp : Parsing L cmd (u ++ r) done p m) :
    Parsing L cmd (u ++ r) done p (taken L p u.length m) := by
  have hlength : (u ++ r).length = u.length + r.length := List.length_append
  have hstop := hp.stop
  have hstart := hp.start
  have hline := L.line_buf
  have hcmd := L.buf_cmd
  rw [hlength] at hstop
  apply hp.congr
  · intro a h₁ h₂
    rw [hp.bytes_taken, if_neg (by omega), if_neg (by omega)]
  · intro a h₁ h₂
    rw [hp.bytes_taken, if_neg (by omega), if_neg (by omega)]

theorem buf_taken (hp : Parsing L cmd (u ++ r) done p m) {i : Nat} (hi : i < u.length) :
    (User.taken L p u.length m).bytes (L.buf + i) = u[i] := by
  have hchar := hp.chars i (by rw [List.length_append]; omega)
  rw [hp.bytes_taken, if_pos (by omega), Nat.add_sub_cancel_left, hchar,
    List.getElem_append_left hi]

/-- A token that is not longer than the field is put into the first unused field. -/
theorem store (hp : Parsing L cmd l done p m) (hn : done.length ≤ MAX_ARGS)
    (hbuf : ∀ (i : Nat) (h : i < u.length), m.bytes (L.buf + i) = u[i])
    (hchars : ∀ c ∈ u, c ≠ 0) (hne : u ≠ []) (hfits : u.length ≤ MAX_ARG_LENGTH) :
    Parsing L cmd l (done ++ [u]) p
      (strncpy (.field done.length) (L.field done.length) L.buf u.length m) := by
  have hbuf_cmd := L.buf_cmd
  have hline_cmd := L.line_cmd
  have hstart := hp.start
  have hstop := hp.stop
  have hfield (k : Nat) : L.field k = L.cmd + 12 * k := rfl
  have hn' := hn
  change done.length ≤ 31 at hn'
  change u.length ≤ 12 at hfits
  have hcopy := bytes_strncpy (o := .field done.length) (s := L.field done.length) (t := L.buf)
    (n := u.length) (m := m) (fun i hi ↦ by
      rw [hbuf i hi]
      exact hchars _ (List.getElem_mem _)) (by rw [hfield]; omega)
  refine { hp with chars := fun i h ↦ ?_, nul := ?_, words := ?_, fields := fun k hk j hj ↦ ?_ }
  · rw [hcopy, if_neg (by rw [hfield]; omega)]
    exact hp.chars i h
  · rw [hcopy, if_neg (by rw [hfield]; omega)]
    exact hp.nul
  · intro v hv
    rcases List.mem_append.mp hv with hv | hv
    · exact hp.words v hv
    · rw [List.mem_singleton.mp hv]
      exact ⟨hne, hchars⟩
  · have hbefore := hp.fields k hk j hj
    change j < 12 at hj
    rw [hcopy, stored]
    by_cases hkn : k = done.length
    · subst hkn
      rw [List.getElem?_append_right (Nat.le_refl _), Nat.sub_self]
      by_cases hju : j < u.length
      · rw [if_pos (by omega), Nat.add_sub_cancel_left, hbuf j hju]
        simp [List.getD, List.getElem?_eq_getElem hju]
      · have hnone : done[done.length]? = none := List.getElem?_eq_none (Nat.le_refl _)
        have hlength : 0 < u.length := List.length_pos_iff.mpr hne
        rw [if_neg (by omega), hbefore, stored, hnone]
        simp [List.getD, List.getElem?_eq_none (Nat.not_lt.mp hju),
          show j ≠ 0 by omega]
    · rw [if_neg (by rw [hfield, hfield]; omega), hbefore, stored]
      by_cases hlt : k < done.length
      · rw [List.getElem?_append_left hlt]
      · rw [List.getElem?_eq_none (Nat.not_lt.mp hlt), List.getElem?_eq_none]
        rw [List.length_append, List.length_singleton]
        omega

end Parsing

/-- The memory after a round of the loop that comes to the token `u`. -/
def round (L : Layout) (n p : Nat) (u : List UInt8) (m : Memory) : Memory :=
  let m := taken L p u.length (m.look p)
  if u = [] then m
  else if n ≤ MAX_ARGS then strncpy (.field n) (L.field n) L.buf u.length m
  else m

/-- The tokens after the round. -/
def withToken (done : List (List UInt8)) (u : List UInt8) : List (List UInt8) :=
  if u = [] then done else done ++ [u]

/-- A token may be put into the field for it. -/
def InField (n : Nat) (u : List UInt8) : Prop := n ≤ MAX_ARGS → u.length ≤ MAX_ARG_LENGTH

namespace Parsing

theorem look (hp : Parsing L cmd l done p m) (a : Nat) : Parsing L cmd l done p (m.look a) :=
  hp.congr (fun _ _ _ ↦ rfl) fun _ _ _ ↦ rfl

/-- One round. -/
theorem parseFrom_round (hp : Parsing L cmd (u ++ r) done p m) (hu : SPACE ∉ u)
    (hne : u ++ r ≠ []) (hr : r = [] ∨ r.head? = some SPACE) :
    parseFrom L (fuel + 1) p m =
      if u.length < fuel then parseFrom L fuel (p + u.length + 1) (round L done.length p u m)
      else none := by
  have hlength : (u ++ r).length = u.length + r.length := List.length_append
  have hpos : 0 < (u ++ r).length := List.length_pos_iff.mpr hne
  have hstart := hp.start
  have hstop := hp.stop
  have hfirst : m.bytes p ≠ 0 := by
    have hchar := hp.chars 0 hpos
    rw [Nat.add_zero] at hchar
    rw [hchar]
    exact hp.nonzero _ (List.getElem_mem _)
  have hbehind : m.bytes (p + u.length) = 0 ∨ m.bytes (p + u.length) = SPACE := by
    cases r with
    | nil =>
      have hnul := hp.nul
      rw [List.append_nil] at hnul
      exact .inl hnul
    | cons c r =>
      have hchar := hp.chars u.length (by simp)
      have hc : c = SPACE := by simpa using hr
      rw [hchar, ← hc]
      simp
  have htoken := getToken_eq (L := L) (p := p) (m := m.look p) (u := u) fuel
    (fun i hi ↦ by
      have hchar := hp.chars i (by omega)
      rw [List.getElem_append_left hi] at hchar
      exact hchar)
    (fun c hc ↦ ⟨hp.nonzero c (by simp [hc]), fun he ↦ hu (he ▸ hc)⟩) hbehind (by omega)
  rw [parseFrom]
  dsimp only
  rw [if_neg (show ¬ (m.look p).bytes p = 0 from hfirst), htoken]
  split
  · rw [Option.bind_some]
    dsimp only
    by_cases hnil : u = []
    · subst hnil
      simp [round]
    · have hpos' : u.length ≠ 0 := fun h ↦ hnil (List.length_eq_zero_iff.mp h)
      rw [if_neg hpos', ((hp.look p).taken).storeToken_eq, round, if_neg hnil,
        toInt_eq (by omega)]
  · rfl

theorem round (hp : Parsing L cmd (u ++ r) done p m) (hfits : InField done.length u) :
    Parsing L cmd (u ++ r) (withToken done u) p (round L done.length p u m) := by
  have htaken := (hp.look p).taken
  have hchars : ∀ c ∈ u, c ≠ 0 := fun c hc ↦ hp.nonzero c (by simp [hc])
  unfold User.round withToken
  dsimp only
  split
  · exact htaken
  · next hne =>
    split
    · next hn => exact htaken.store hn (fun i hi ↦ (hp.look p).buf_taken hi) hchars hne (hfits hn)
    · next hn =>
      refine { htaken with words := fun v hv ↦ ?_, fields := fun k hk j hj ↦ ?_ }
      · rcases List.mem_append.mp hv with hv | hv
        · exact htaken.words v hv
        · rw [List.mem_singleton.mp hv]
          exact ⟨hne, hchars⟩
      · rw [htaken.fields k hk j hj, stored, stored, List.getElem?_append_left (by omega)]

end Parsing

theorem mem_scanned_round {a : Nat} (h : a ∈ (round L n p u m).scanned) :
    a ∈ m.scanned ∨ a ≤ p + u.length := by
  have htaken (h : a ∈ (taken L p u.length (m.look p)).scanned) :
      a ∈ m.scanned ∨ a ≤ p + u.length := by
    rw [taken, Memory.write] at h
    dsimp only at h
    rw [scanned_strncpy] at h
    rcases mem_scanned_looks h with h | h
    · rcases List.mem_cons.mp h with rfl | h
      · exact .inr (Nat.le_add_right _ _)
      · exact .inl h
    · exact .inr (by omega)
  unfold round at h
  dsimp only at h
  split at h
  · exact htaken h
  · split at h
    · rw [scanned_strncpy] at h
      exact htaken h
    · exact htaken h

theorem mem_writes_round {k a : Nat} :
    (Object.field k, a) ∈ (round L n p u m).writes ↔ (Object.field k, a) ∈ m.writes ∨
      u ≠ [] ∧ n ≤ MAX_ARGS ∧ k = n ∧ ∃ i < u.length, a = L.field n + i := by
  have htaken : (Object.field k, a) ∈ (taken L p u.length (m.look p)).writes ↔
      (Object.field k, a) ∈ m.writes := by
    rw [taken, Memory.write]
    dsimp only
    rw [List.mem_cons, mem_writes_strncpy, writes_looks]
    simp [Memory.look]
  unfold round
  dsimp only
  split
  · next hnil =>
    rw [htaken]
    simp [hnil]
  · next hne =>
    split
    · next hn =>
      rw [mem_writes_strncpy, htaken]
      apply or_congr_right
      constructor
      · rintro ⟨i, hi, he⟩
        cases he
        exact ⟨hne, hn, rfl, i, hi, rfl⟩
      · rintro ⟨-, -, rfl, i, hi, rfl⟩
        exact ⟨i, hi, rfl⟩
    · next hn =>
      rw [htaken]
      simp [hn]

/-- A round is clean exactly if its token may be put into the field for it. -/
theorem clean_round_iff (hc : Clean L nul m) (hnul : p + u.length ≤ nul) :
    Clean L nul (round L n p u m) ↔ InField n u := by
  constructor
  · intro h hn
    by_contra hlong
    have hne : u ≠ [] := by
      rintro rfl
      exact hlong (Nat.zero_le _)
    have hout := (h.writes n (L.field n + MAX_ARG_LENGTH) (mem_writes_round.mpr
      (.inr ⟨hne, hn, rfl, MAX_ARG_LENGTH, Nat.lt_of_not_le hlong, rfl⟩))).2
    exact Nat.lt_irrefl _ hout
  · intro hfits
    constructor
    · intro a ha
      rcases mem_scanned_round ha with ha | ha
      · exact hc.scanned a ha
      · exact Nat.le_trans ha hnul
    · intro k a ha
      rcases mem_writes_round.mp ha with ha | ⟨-, hn, rfl, i, hi, rfl⟩
      · exact hc.writes k a ha
      · have := hfits hn
        omega

/-! ### Tokens -/

theorem tokens_nil : tokens [] = [] := rfl

/-- The tokens of a line with a separator in it. -/
theorem tokens_append (hu : SPACE ∉ u) :
    tokens (u ++ SPACE :: r) = withToken [] u ++ tokens r := by
  rw [tokens, List.splitOn_append_cons_self_of_not_mem hu, withToken]
  by_cases hne : u = []
  · simp [hne, tokens]
  · simp [hne, tokens]

theorem tokens_word (hu : SPACE ∉ u) : tokens u = withToken [] u := by
  rw [tokens, List.splitOn_eq_singleton hu, withToken]
  by_cases hne : u = []
  · simp [hne]
  · simp [hne]

theorem withToken_append (done : List (List UInt8)) (u : List UInt8) (ts : List (List UInt8)) :
    withToken done u ++ ts = done ++ (withToken [] u ++ ts) := by
  unfold withToken
  split <;> simp

/-- The rest of a line can be parsed: it ends in a space, and its tokens may be put into the fields
from the `n`th one on. -/
def Good (n : Nat) (l : List UInt8) : Prop :=
  EndsInSpace l ∧ ∀ (i : Nat) (t : List UInt8), (tokens l)[i]? = some t → InField (n + i) t

theorem good_nil (n : Nat) : Good n [] := ⟨.inl rfl, fun i t h ↦ by simp [tokens_nil] at h⟩

theorem not_good_word (hu : SPACE ∉ u) (hne : u ≠ []) : ¬ Good n u := by
  rintro ⟨hnil | hlast, -⟩
  · exact hne hnil
  · exact hu (List.mem_of_getLast? hlast)

theorem good_append_iff (hu : SPACE ∉ u) :
    Good done.length (u ++ SPACE :: r) ↔
      InField done.length u ∧ Good (withToken done u).length r := by
  have hends : EndsInSpace (u ++ SPACE :: r) ↔ EndsInSpace r := by
    cases r with
    | nil => simp [EndsInSpace]
    | cons c r => simp [EndsInSpace]
  rw [Good, Good, hends, tokens_append hu]
  by_cases hnil : u = []
  · simp [withToken, hnil, InField]
  · simp only [withToken, hnil, if_false, List.length_append, List.length_singleton,
      List.nil_append, List.singleton_append]
    constructor
    · rintro ⟨he, h⟩
      refine ⟨h 0 u rfl, he, fun i t ht ↦ ?_⟩
      have := h (i + 1) t ht
      rwa [Nat.add_comm i 1, ← Nat.add_assoc] at this
    · rintro ⟨hfirst, he, h⟩
      refine ⟨he, fun i t ht ↦ ?_⟩
      cases i with
      | zero =>
        cases ht
        exact hfirst
      | succ i =>
        have := h i t ht
        rwa [Nat.add_assoc, Nat.add_comm 1 i] at this

/-- The loop is clean exactly on the lines that can be parsed, and then the tokens are in the
fields. -/
theorem parseFrom_clean_iff (hp : Parsing L cmd l done p m) (hc : Clean L nul m)
    (hnul : nul = p + l.length) :
    (∀ fuel m', parseFrom L fuel p m = some m' → Clean L nul m' →
      Good done.length l ∧ Parsing L cmd [] (done ++ tokens l) nul m') ∧
    (Good done.length l → ∀ fuel, l.length < fuel →
      ∃ m', parseFrom L fuel p m = some m' ∧ Clean L nul m') := by
  induction hlen : l.length using Nat.strongRecOn generalizing l done p m with
  | _ k ih =>
    subst hlen
    by_cases hnil : l = []
    · subst hnil
      obtain rfl : nul = p := hnul
      have hzero : (m.look nul).bytes nul = 0 := hp.nul
      constructor
      · intro fuel m' h _
        cases fuel with
        | zero => cases h
        | succ fuel =>
          rw [parseFrom] at h
          dsimp only at h
          rw [if_pos hzero] at h
          cases h
          rw [tokens_nil, List.append_nil]
          exact ⟨good_nil _, hp.look nul⟩
      · intro _ fuel hfuel
        cases fuel with
        | zero => exact absurd hfuel (Nat.not_lt_zero _)
        | succ fuel =>
          refine ⟨m.look nul, ?_, ⟨fun a ha ↦ ?_, hc.writes⟩⟩
          · rw [parseFrom]
            dsimp only
            rw [if_pos hzero]
          · rcases List.mem_cons.mp ha with rfl | ha
            · exact Nat.le_refl _
            · exact hc.scanned a ha
    by_cases hspace : SPACE ∈ l
    · obtain ⟨u, r, rfl, hu⟩ := List.eq_append_cons_of_mem hspace
      have hlength : (u ++ SPACE :: r).length = u.length + 1 + r.length := by
        rw [List.length_append, List.length_cons]
        omega
      have hround (fuel : Nat) : parseFrom L (fuel + 1) p m = _ :=
        hp.parseFrom_round hu hnil (.inr rfl)
      have hclean := clean_round_iff (L := L) (n := done.length) (p := p) (u := u) hc (by omega)
      constructor
      · intro fuel m' h hc'
        cases fuel with
        | zero => cases h
        | succ fuel =>
          rw [hround] at h
          split at h
          · have hc₁ := hc'.of_extends ((extends_look _ _).trans (extends_parseFrom h))
            have hfits := hclean.mp hc₁
            obtain ⟨hgood, hend⟩ := (ih r.length (by omega) (hp.round hfits).skip hc₁ (by omega)
              rfl).1 fuel m' h hc'
            rw [good_append_iff hu, tokens_append hu, ← withToken_append]
            exact ⟨⟨hfits, hgood⟩, hend⟩
          · cases h
      · intro hgood fuel hfuel
        rw [good_append_iff hu] at hgood
        cases fuel with
        | zero => exact absurd hfuel (Nat.not_lt_zero _)
        | succ fuel =>
          rw [hround, if_pos (by omega)]
          exact (ih r.length (by omega) (hp.round hgood.1).skip (hclean.mpr hgood.1) (by omega)
            rfl).2 hgood.2 fuel (by omega)
    · constructor
      · intro fuel m' h hc'
        cases fuel with
        | zero => cases h
        | succ fuel =>
          have hp' : Parsing L cmd (l ++ []) done p m := by rwa [List.append_nil]
          rw [hp'.parseFrom_round hspace (by simpa using hnil) (.inl rfl)] at h
          split at h
          · -- The step over the separator has left the line.
            have hread := (extends_parseFrom h).scanned (List.mem_cons_self ..)
            have := hc'.scanned _ hread
            omega
          · cases h
      · exact fun hgood ↦ absurd hgood (not_good_word hspace hnil)

end

end Orfos.User
