import Mathlib.Data.List.Basic
import Mathlib.Logic.Function.Basic

/-!
# The command line of the shell

`parseCommand` of `user/sh/main.cpp` over the bytes of memory, with `strncpy` of
`user/lib/string.cpp`. A token is copied into its field without the zero that would end it, however
long it is, and the step over the separator is also made at the end of the line. The memory records
the addresses that are read through `cmdStr` and those that are written.
-/

namespace Orfos.User

/-- `' '`. -/
abbrev SPACE : UInt8 := 0x20

/-- `MAX_CMD_LENGTH` and `MAX_ARG_LENGTH`. -/
abbrev MAX_ARG_LENGTH : Nat := 12

/-- `MAX_ARGS`. -/
abbrev MAX_ARGS : Nat := 31

/-- What a write is meant for: `buf` of `parseCommand`, or a field of the command, `cmd` first and
then the arguments. -/
inductive Object where
  | buf
  | field (k : Nat)
  deriving DecidableEq

structure Memory where
  bytes : Nat → UInt8
  scanned : List Nat
  writes : List (Object × Nat)

namespace Memory

/-- Read a byte through `cmdStr`. -/
def look (m : Memory) (a : Nat) : Memory := { m with scanned := a :: m.scanned }

/-- Read the bytes from an address on through `cmdStr`. -/
def looks (m : Memory) (a : Nat) : Nat → Memory
  | 0 => m
  | n + 1 => (m.look a).looks (a + 1) n

def write (m : Memory) (o : Object) (a : Nat) (c : UInt8) : Memory :=
  { m with bytes := Function.update m.bytes a c, writes := (o, a) :: m.writes }

theorem bytes_write (m : Memory) (o : Object) (a : Nat) (c : UInt8) (b : Nat) :
    (m.write o a c).bytes b = if b = a then c else m.bytes b := Function.update_apply ..

end Memory

/-- Where the line, `buf` of `parseCommand` and the command are in memory. -/
structure Layout where
  line : Nat
  buf : Nat
  cmd : Nat
  line_buf : line + 128 ≤ buf ∨ buf + 128 ≤ line
  line_cmd : line + 128 ≤ cmd ∨ cmd + 384 ≤ line
  buf_cmd : buf + 128 ≤ cmd ∨ cmd + 384 ≤ buf

/-- The address of `cmd.cmd`, and of `cmd.args[k - 1]`. -/
def Layout.field (L : Layout) (k : Nat) : Nat := L.cmd + MAX_ARG_LENGTH * k

/-- `while (n-- > 0) *s++ = 0`. -/
def pad (o : Object) (s : Nat) : Nat → Memory → Memory
  | 0, m => m
  | n + 1, m => pad o (s + 1) n (m.write o s 0)

/-- `strncpy`, for the `n` bytes that are left. -/
def strncpy (o : Object) (s t : Nat) : Nat → Memory → Memory
  | 0, m => m
  | n + 1, m =>
    let c := m.bytes t
    let m := m.write o s c
    if c ≠ 0 then strncpy o (s + 1) (t + 1) n m else pad o (s + 1) n m

/-- A length as the `int` argument of `strncpy`. -/
def toInt (size : Nat) : Nat := (Int32.ofNat size).toInt.toNat

/-- The loop of `getToken`, which leaves `cmdStr` at a space or at the end. -/
def scanToken : Nat → Nat → Memory → Option (Nat × Memory)
  | 0, _, _ => none
  | fuel + 1, cmdStr, m =>
    let m := m.look cmdStr
    if m.bytes cmdStr = 0 then some (cmdStr, m)
    else if m.bytes cmdStr = SPACE then some (cmdStr, m)
    else scanToken fuel (cmdStr + 1) m

/-- `getToken`: the size, `cmdStr` and the memory. -/
def getToken (L : Layout) (fuel cmdStr : Nat) (m : Memory) : Option (Nat × Nat × Memory) :=
  (scanToken fuel cmdStr m).map fun (stop, m) ↦
    let size := stop - cmdStr
    (size, stop, (strncpy .buf L.buf cmdStr (toInt size) m).write .buf (L.buf + size) 0)

/-- The copy of a token into the first field that is empty, if there is one. -/
def storeToken (L : Layout) (size : Nat) (m : Memory) : Memory :=
  if m.bytes (L.field 0) = 0 then strncpy (.field 0) (L.field 0) L.buf (toInt size) m
  else
    match (List.range MAX_ARGS).find? fun i ↦ m.bytes (L.field (i + 1)) = 0 with
    | some i => strncpy (.field (i + 1)) (L.field (i + 1)) L.buf (toInt size) m
    | none => m

/-- The loop of `parseCommand`. -/
def parseFrom (L : Layout) : Nat → Nat → Memory → Option Memory
  | 0, _, _ => none
  | fuel + 1, cmdStr, m =>
    let m := m.look cmdStr
    if m.bytes cmdStr = 0 then some m
    else
      (getToken L fuel cmdStr m).bind fun (size, cmdStr, m) ↦
        if size = 0 then parseFrom L fuel (cmdStr + 1) m
        else parseFrom L fuel (cmdStr + 1) (storeToken L size m)

/-- `arg[0] = '\0'` for the fields from the first on. -/
def clearFields (L : Layout) (m : Memory) : Memory :=
  (List.range (MAX_ARGS + 1)).foldl (fun m k ↦ m.write (.field k) (L.field k) 0) m

/-- `parseCommand`, with fuel for its loops. -/
def parseCommand (L : Layout) (fuel : Nat) (m : Memory) : Option Memory :=
  parseFrom L fuel L.line (clearFields L m)

/-! ### Lines -/

/-- A command line, without the zero behind it. -/
structure Line where
  chars : List UInt8
  short : chars.length ≤ 127
  nonzero : ∀ c ∈ chars, c ≠ 0

/-- The tokens between the spaces. -/
def tokens (l : List UInt8) : List (List UInt8) := (l.splitOn SPACE).filter (· ≠ [])

/-- The scan has stayed on the line, and no write was outside of its field. -/
structure Clean (L : Layout) (nul : Nat) (m : Memory) : Prop where
  scanned : ∀ a ∈ m.scanned, a ≤ nul
  writes : ∀ k a, (Object.field k, a) ∈ m.writes →
    L.field k ≤ a ∧ a < L.field k + MAX_ARG_LENGTH

/-- The line is empty or ends in a space. -/
def EndsInSpace (l : List UInt8) : Prop := l = [] ∨ l.getLast? = some SPACE

/-! ### What the functions write -/

section

variable {L : Layout} {m m' : Memory} {o : Object} {s t p n fuel nul : Nat}

@[simp] theorem scanned_pad : (pad o s n m).scanned = m.scanned := by
  induction n generalizing s m with
  | zero => rfl
  | succ n ih => exact ih

/-- The first place of a range, and the others. -/
theorem exists_place_succ {x : Object × Nat} :
    (∃ i < n + 1, x = (o, s + i)) ↔ x = (o, s) ∨ ∃ i < n, x = (o, s + 1 + i) := by
  constructor
  · rintro ⟨i, hi, rfl⟩
    cases i with
    | zero => exact .inl rfl
    | succ i => exact .inr ⟨i, by omega, by rw [Nat.add_right_comm, Nat.add_assoc]⟩
  · rintro (rfl | ⟨i, hi, rfl⟩)
    · exact ⟨0, by omega, rfl⟩
    · exact ⟨i + 1, by omega, by rw [Nat.add_right_comm, Nat.add_assoc]⟩

theorem mem_writes_pad {x : Object × Nat} :
    x ∈ (pad o s n m).writes ↔ x ∈ m.writes ∨ ∃ i < n, x = (o, s + i) := by
  induction n generalizing s m with
  | zero => simp [pad]
  | succ n ih =>
    rw [pad, ih, Memory.write, List.mem_cons, exists_place_succ, or_assoc]
    exact or_left_comm

@[simp] theorem scanned_strncpy : (strncpy o s t n m).scanned = m.scanned := by
  induction n generalizing s t m with
  | zero => rfl
  | succ n ih =>
    unfold strncpy
    dsimp only
    split
    · exact ih
    · exact scanned_pad

/-- `strncpy` writes `n` bytes, whatever it copies. -/
theorem mem_writes_strncpy {x : Object × Nat} :
    x ∈ (strncpy o s t n m).writes ↔ x ∈ m.writes ∨ ∃ i < n, x = (o, s + i) := by
  induction n generalizing s t m with
  | zero => simp [strncpy]
  | succ n ih =>
    have hstep : x ∈ (strncpy o s t (n + 1) m).writes ↔
        x ∈ (m.write o s (m.bytes t)).writes ∨ ∃ i < n, x = (o, s + 1 + i) := by
      unfold strncpy
      dsimp only
      split
      · exact ih
      · exact mem_writes_pad
    rw [hstep, Memory.write, List.mem_cons, exists_place_succ, or_assoc]
    exact or_left_comm

/-- A copy without a zero among its bytes, to a place apart. -/
theorem bytes_strncpy (hne : ∀ i < n, m.bytes (t + i) ≠ 0) (hapart : s + n ≤ t ∨ t + n ≤ s)
    (a : Nat) : (strncpy o s t n m).bytes a =
      if s ≤ a ∧ a < s + n then m.bytes (t + (a - s)) else m.bytes a := by
  induction n generalizing s t m with
  | zero => rw [strncpy, if_neg (by omega)]
  | succ n ih =>
    have hwrite (b : Nat) (hb : b ≠ s) : (m.write o s (m.bytes t)).bytes b = m.bytes b :=
      Function.update_of_ne hb _ _
    have hzero : m.bytes t ≠ 0 := hne 0 (by omega)
    unfold strncpy
    dsimp only
    rw [if_pos hzero, ih]
    · by_cases hfirst : a = s
      · subst hfirst
        rw [if_neg (by omega), if_pos (by omega), Nat.sub_self]
        exact Function.update_self ..
      · by_cases hin : s + 1 ≤ a ∧ a < s + 1 + n
        · rw [if_pos hin, if_pos (by omega), hwrite _ (by omega)]
          congr 1
          omega
        · rw [if_neg hin, if_neg (by omega), hwrite a hfirst]
    · intro i hi
      rw [hwrite _ (by omega), Nat.add_assoc]
      have := hne (i + 1) (by omega)
      rwa [Nat.add_comm i 1] at this
    · omega

theorem toInt_eq (h : n ≤ 127) : toInt n = n := by
  have hn : (Int32.ofNat n).toInt = n := Int32.toInt_ofNat_of_lt (by omega)
  rw [toInt, hn, Int.toNat_natCast]

/-- The records only grow. -/
structure Extends (m m' : Memory) : Prop where
  scanned : m.scanned ⊆ m'.scanned
  writes : m.writes ⊆ m'.writes

theorem Extends.refl (m : Memory) : Extends m m := ⟨fun _ h ↦ h, fun _ h ↦ h⟩

theorem Extends.trans {m₁ m₂ m₃ : Memory} (h : Extends m₁ m₂) (h' : Extends m₂ m₃) :
    Extends m₁ m₃ :=
  ⟨fun _ ha ↦ h'.scanned (h.scanned ha), fun _ ha ↦ h'.writes (h.writes ha)⟩

theorem extends_look (m : Memory) (a : Nat) : Extends m (m.look a) :=
  ⟨fun _ h ↦ List.mem_cons_of_mem _ h, fun _ h ↦ h⟩

theorem extends_write (m : Memory) (o : Object) (a : Nat) (c : UInt8) :
    Extends m (m.write o a c) :=
  ⟨fun _ h ↦ h, fun _ h ↦ List.mem_cons_of_mem _ h⟩

theorem extends_strncpy (o : Object) (s t n : Nat) (m : Memory) : Extends m (strncpy o s t n m) :=
  ⟨fun _ h ↦ by rwa [scanned_strncpy], fun _ h ↦ mem_writes_strncpy.mpr (.inl h)⟩

theorem extends_scanToken {stop : Nat} (h : scanToken fuel p m = some (stop, m')) :
    Extends m m' := by
  induction fuel generalizing p m with
  | zero => cases h
  | succ fuel ih =>
    unfold scanToken at h
    dsimp only at h
    split at h
    · cases h
      exact extends_look _ _
    · split at h
      · cases h
        exact extends_look _ _
      · exact (extends_look _ _).trans (ih h)

theorem extends_getToken {size stop : Nat} (h : getToken L fuel p m = some (size, stop, m')) :
    Extends m m' := by
  obtain ⟨⟨stop', m₁⟩, hscan, he⟩ := Option.map_eq_some_iff.mp h
  cases he
  exact ((extends_scanToken hscan).trans (extends_strncpy ..)).trans (extends_write ..)

theorem extends_storeToken (L : Layout) (size : Nat) (m : Memory) :
    Extends m (storeToken L size m) := by
  unfold storeToken
  split
  · exact extends_strncpy ..
  · split
    · exact extends_strncpy ..
    · exact .refl m

/-- The loop reads the byte at which it begins. -/
theorem extends_parseFrom (h : parseFrom L fuel p m = some m') : Extends (m.look p) m' := by
  induction fuel generalizing p m with
  | zero => cases h
  | succ fuel ih =>
    unfold parseFrom at h
    dsimp only at h
    split at h
    · cases h
      exact .refl _
    · obtain ⟨⟨size, stop, m₁⟩, htoken, h⟩ := Option.bind_eq_some_iff.mp h
      have hm₁ := extends_getToken htoken
      dsimp only at h
      split at h
      · exact (hm₁.trans (extends_look _ _)).trans (ih h)
      · exact ((hm₁.trans (extends_storeToken ..)).trans (extends_look _ _)).trans (ih h)

theorem Clean.of_extends (hc : Clean L nul m') (h : Extends m m') : Clean L nul m :=
  ⟨fun a ha ↦ hc.scanned a (h.scanned ha), fun k a ha ↦ hc.writes k a (h.writes ha)⟩

end

end Orfos.User
