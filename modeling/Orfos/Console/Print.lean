import Mathlib.Algebra.Group.Int.Defs
import Mathlib.Algebra.Ring.Nat
import Mathlib.Data.Nat.Basic

/-!
# Printing numbers

`printf` of `kernel/console/console.cpp`, with `print_int` and `print_ptr`: the bytes that go to
`putc`. One loop over an `int` prints signed and unsigned numbers. It takes the digits of a negative
`int` from before the table: so it prints what it should for unsigned numbers below `2^31`, and for
all signed numbers but the least, whose negation is negative.

The lock of the console is left out. The least `int` is negated as the hart does it. What the code
leaves undefined, a place outside a table or an argument of another type, is `none`.
-/

namespace Orfos.Console

/-- `digits`. -/
def digits : List UInt8 := "0123456789ABCDEF".toList.map Char.toUInt8

/-- `digits[k]`. -/
def digit (k : Int32) : Option UInt8 := if k < 0 then none else digits[k.toInt.toNat]?

/-- The digit loop of `print_int`: what it puts into `buf`, where `room` bytes are free. -/
def digitsFrom (base : Int32) : Nat → Int32 → Option (List UInt8)
  | 0, _ => none
  | room + 1, n => do
    let c ← digit (n % base)
    let n := n / base
    if n = 0 then pure [c]
    else do
      let buf ← digitsFrom base room n
      pure (c :: buf)

/-- `buf[i++] = '-'` in `print_int`. -/
def putSign (buf : List UInt8) : Option (List UInt8) :=
  if buf.length < 16 then some (buf ++ [0x2d]) else none

/-- `print_int`. -/
def print_int (n base : Int32) (sign : Bool) : Option (List UInt8) := do
  if sign ∧ n < 0 then
    let buf ← digitsFrom base 16 (-n)
    let buf ← putSign buf
    pure buf.reverse
  else
    let buf ← digitsFrom base 16 n
    pure buf.reverse

/-- `print_ptr`. -/
def print_ptr (ptr : UInt64) : Option (List UInt8) :=
  ((List.range 16).mapM fun i ↦ digits[((ptr <<< UInt64.ofNat (4 * i)) >>> 60).toNat]?).map
    ([0x30, 0x78] ++ ·)

/-- An argument of `printf`. A string is the bytes before its terminating zero. -/
inductive Arg where
  | word (w : UInt32)
  | pointer (p : UInt64)
  | string (s : Option (List UInt8))

/-- The `switch` of `printf`: what is printed, and the arguments that are left. -/
def conversion (c : UInt8) (args : List Arg) : Option (List UInt8 × List Arg) :=
  if c = 0x64 then
    match args with
    | .word w :: args => (print_int w.toInt32 10 true).map (·, args)
    | _ => none
  else if c = 0x75 then
    match args with
    | .word w :: args => (print_int w.toInt32 10 false).map (·, args)
    | _ => none
  else if c = 0x78 then
    match args with
    | .word w :: args => (print_int w.toInt32 16 true).map (·, args)
    | _ => none
  else if c = 0x63 then
    match args with
    | .word w :: args => some ([w.toUInt8], args)
    | _ => none
  else if c = 0x70 then
    match args with
    | .pointer p :: args => (print_ptr p).map (·, args)
    | _ => none
  else if c = 0x73 then
    match args with
    | .string s :: args => some (s.getD ("(null)".toList.map Char.toUInt8), args)
    | _ => none
  else if c = 0x25 then some ([0x25], args)
  else some ([0x25, c], args)

/-- `printf`. A `%` at the end of the format is printed. -/
def printf : List UInt8 → List Arg → Option (List UInt8)
  | [], _ => some []
  | [c], _ => some [c]
  | c :: d :: fmt, args =>
    if c ≠ 0x25 then (printf (d :: fmt) args).map (c :: ·)
    else do
      let (text, args) ← conversion d args
      let rest ← printf fmt args
      pure (text ++ rest)

/-! ### Numerals -/

/-- The digits of a numeral. -/
def magnitude (text : List UInt8) : List UInt8 := if text.head? = some 0x2d then text.tail else text

/-- The value of a digit, if it is one in this base. -/
def digitValue (base : Nat) (c : UInt8) : Option Nat :=
  (digits.idxOf? c).filter fun k ↦ decide (k < base)

/-- The number that some digits denote. -/
def parseDigits (base : Nat) (ds : List UInt8) : Option Nat :=
  ds.foldlM (fun n c ↦ (digitValue base c).map (base * n + ·)) 0

/-- The number that a text denotes. -/
def parse (base : Nat) (text : List UInt8) : Option Int :=
  (parseDigits base (magnitude text)).map fun n : Nat ↦
    if text.head? = some 0x2d then -(n : Int) else n

/-- The text is the numeral of a number: it denotes the number, has a sign only if the number is
negative, and its digits begin with 0 only if 0 is all of them. -/
structure Numeral (base : Nat) (v : Int) (text : List UInt8) : Prop where
  value : parse base text = some v
  sign : text.head? = some 0x2d ↔ v < 0
  nonempty : magnitude text ≠ []
  leading : (magnitude text).head? = some 0x30 → magnitude text = [0x30]

/-- What the digit loop leaves in `buf`, from the last digit to the first. -/
structure Written (base n : Nat) (buf : List UInt8) : Prop where
  value : parseDigits base buf.reverse = some n
  unsigned : 0x2d ∉ buf
  nonempty : buf ≠ []
  leading : buf.getLast? = some 0x30 → buf = [0x30] ∧ n = 0

section

variable {base : Int32} {n k b : Nat} {room : Nat} {c : UInt8} {buf : List UInt8}

/-- The digits of the table are different, and only the first is 0. -/
theorem digits_spec : ∀ k < 16, digits[k]? = some (digits.getD k 0) ∧
    digits.idxOf? (digits.getD k 0) = some k ∧ digits.getD k 0 ≠ 0x2d ∧
    (digits.getD k 0 = 0x30 → k = 0) := by
  decide

/-- A digit that is read back. -/
theorem digit_spec {m : Int32} (hm : m.toInt = k) (hk : k < b) (hb : b ≤ 16) :
    ∃ c, digit m = some c ∧ digitValue b c = some k ∧ c ≠ 0x2d ∧ (c = 0x30 → k = 0) := by
  obtain ⟨hc, hidx, hsign, hzero⟩ := digits_spec k (by omega)
  have hneg : ¬ m < 0 := by
    rw [Int32.lt_iff_toInt_lt, hm]
    simp
  refine ⟨digits.getD k 0, ?_, ?_, hsign, hzero⟩
  · rw [digit, if_neg hneg, hm, Int.toNat_natCast, hc]
  · rw [digitValue, hidx, Option.filter_some, if_pos (decide_eq_true hk)]

theorem parseDigits_snoc (base : Nat) (ds : List UInt8) (c : UInt8) :
    parseDigits base (ds ++ [c]) =
      (parseDigits base ds).bind fun n ↦ (digitValue base c).map (base * n + ·) := by
  simp [parseDigits, List.foldlM_append]

/-- The loop writes the digits of a number that is not negative. -/
theorem digitsFrom_written {m : Int32} (hb : base.toInt = b) (hb1 : 1 < b) (hb16 : b ≤ 16)
    (hm : m.toInt = n) (hk : k ≠ 0) (hlt : n < b ^ k) (hroom : k ≤ room) :
    ∃ buf, digitsFrom base room m = some buf ∧ buf.length ≤ k ∧ Written b n buf := by
  induction k generalizing n m room with
  | zero => exact absurd rfl hk
  | succ k ih =>
    obtain ⟨room, rfl⟩ : ∃ r, room = r + 1 := ⟨room - 1, by omega⟩
    have hmod : (m % base).toInt = (n % b : Nat) := by
      rw [Int32.toInt_mod, hm, hb]
      exact Int.ofNat_tmod n b |>.symm
    have hdiv : (m / base).toInt = (n / b : Nat) := by
      rw [Int32.toInt_div_of_ne_right, hm, hb]
      · exact Int.ofNat_tdiv n b |>.symm
      · rintro rfl
        have hneg : ((-1 : Int32).toInt) = -1 := rfl
        omega
    obtain ⟨c, hc, hvalue, hsign, hzero⟩ := digit_spec hmod (Nat.mod_lt n (by omega)) hb16
    have hzero_iff : m / base = 0 ↔ n / b = 0 := by
      rw [← Int32.toInt_inj, hdiv]
      change ((n / b : Nat) : Int) = 0 ↔ _
      omega
    by_cases hlast : n / b = 0
    · have hn : n % b = n := Nat.mod_eq_of_lt ((Nat.div_eq_zero_iff_lt (by omega)).mp hlast)
      refine ⟨[c], ?_, by simp, ?_, by simpa using hsign.symm, by simp, ?_⟩
      · simp [digitsFrom, hc, hzero_iff.mpr hlast]
      · simp [parseDigits, hvalue, hn]
      · intro h
        simp only [List.getLast?_singleton, Option.some.injEq] at h
        exact ⟨by rw [h], by rw [← hn, hzero h]⟩
    · have hk0 : k ≠ 0 := by
        rintro rfl
        exact hlast (Nat.div_eq_of_lt (by simpa using hlt))
      have hlt' : n / b < b ^ k := Nat.div_lt_of_lt_mul (by rwa [← Nat.pow_succ'])
      obtain ⟨buf, hbuf, hlength, hw⟩ := ih hdiv hk0 hlt' (show k ≤ room by omega)
      refine ⟨c :: buf, ?_, by simpa using hlength, ?_, ?_, by simp, ?_⟩
      · have hne : ¬ m / base = 0 := fun h ↦ hlast (hzero_iff.mp h)
        simp [digitsFrom, hc, hne, hbuf]
      · rw [List.reverse_cons, parseDigits_snoc, hw.value, Option.bind_some, hvalue,
          Option.map_some, Nat.div_add_mod]
      · rw [List.mem_cons, not_or]
        exact ⟨hsign.symm, hw.unsigned⟩
      · intro h
        rw [List.getLast?_cons_of_ne_nil hw.nonempty] at h
        exact absurd (hw.leading h).2 hlast

/-- The loop takes a digit of a negative number from before the table. -/
theorem digitsFrom_negative {m : Int32} (hb : base.toInt = b) (hb1 : 1 < b) (hm : m.toInt < 0) :
    digitsFrom base room m = none := by
  induction room generalizing m with
  | zero => rfl
  | succ room ih =>
    have hmod : (m % base).toInt = m.toInt.tmod b := by rw [Int32.toInt_mod, hb]
    have hdiv : (m / base).toInt = m.toInt.tdiv b := by
      rw [Int32.toInt_div_of_ne_right, hb]
      rintro rfl
      have hneg : ((-1 : Int32).toInt) = -1 := rfl
      omega
    have hsum := Int.tmod_add_mul_tdiv m.toInt b
    by_cases hlt : (m % base).toInt < 0
    · have hneg : m % base < 0 := by
        rw [Int32.lt_iff_toInt_lt]
        exact hlt
      simp [digitsFrom, digit, hneg]
    · -- The digit is 0, so the rest is negative.
      have hnonpos : m.toInt.tmod b ≤ 0 := by
        have h := Int.tmod_nonneg (b : Int) (show (0 : Int) ≤ -m.toInt by omega)
        rw [Int.neg_tmod] at h
        omega
      have hquot : m.toInt.tdiv b < 0 := by
        by_contra hge
        have hprod : (0 : Int) ≤ b * m.toInt.tdiv b :=
          Int.mul_nonneg (by omega) (by omega)
        omega
      have hrest := ih (m := m / base) (by rw [hdiv]; exact hquot)
      have hne : ¬ m / base = 0 := by
        intro h
        rw [h] at hdiv
        change (0 : Int) = _ at hdiv
        omega
      cases hc : digit (m % base) with
      | none => simp [digitsFrom, hc]
      | some c => simp [digitsFrom, hc, hne, hrest]

/-- The digits alone are the numeral of a number that is not negative. -/
theorem Written.numeral (h : Written b n buf) : Numeral b n buf.reverse := by
  have hhead : buf.reverse.head? ≠ some 0x2d := by
    rw [List.head?_reverse]
    exact fun hc ↦ h.unsigned (List.mem_of_getLast? hc)
  have hmag : magnitude buf.reverse = buf.reverse := if_neg hhead
  refine ⟨?_, ?_, ?_, ?_⟩
  · rw [parse, hmag, h.value, Option.map_some, if_neg hhead]
  · exact iff_of_false hhead (by omega)
  · rw [hmag]
    exact fun hc ↦ h.nonempty (List.reverse_eq_nil_iff.mp hc)
  · rw [hmag, List.head?_reverse]
    intro hc
    rw [(h.leading hc).1]
    rfl

/-- With a sign in front they are the numeral of a negative number. -/
theorem Written.numeral_neg (h : Written b n buf) (hn : n ≠ 0) :
    Numeral b (-n) (buf ++ [0x2d]).reverse := by
  have htext : (buf ++ [0x2d]).reverse = 0x2d :: buf.reverse := by simp
  have hhead : (buf ++ [0x2d]).reverse.head? = some 0x2d := by rw [htext]; rfl
  have hmag : magnitude (buf ++ [0x2d]).reverse = buf.reverse := by
    rw [magnitude, if_pos hhead, htext]
    rfl
  refine ⟨?_, ?_, ?_, ?_⟩
  · rw [parse, hmag, h.value, Option.map_some, if_pos hhead]
  · exact iff_of_true hhead (by omega)
  · rw [hmag]
    exact fun hc ↦ h.nonempty (List.reverse_eq_nil_iff.mp hc)
  · rw [hmag, List.head?_reverse]
    exact fun hc ↦ absurd (h.leading hc).2 hn

end

/-! ### The numbers that are printed exactly -/

/-- The conversions of numbers. -/
inductive Format where
  | d
  | u
  | x
  deriving DecidableEq, Repr

namespace Format

/-- The letter behind the `%`. -/
def letter : Format → UInt8
  | d => 0x64
  | u => 0x75
  | x => 0x78

/-- The base of the numeral. -/
def base : Format → Nat
  | d | u => 10
  | x => 16

/-- The number that a word stands for. -/
def read : Format → UInt32 → Int
  | d, w | x, w => w.toInt32.toInt
  | u, w => w.toNat

/-- The number or its negation is an `int` that is not negative. -/
def Fits : Format → UInt32 → Prop
  | d, w | x, w => w ≠ 0x80000000
  | u, w => w < 0x80000000

/-- `printf` prints the numeral of the number that an argument stands for. -/
def Exact (f : Format) (w : UInt32) (args : List Arg) : Prop :=
  ∃ text, conversion f.letter (.word w :: args) = some (text, args) ∧ Numeral f.base (f.read w) text

end Format

section

variable {b : Nat} {base : Int32} {w : UInt32}

/-- Where `print_int` meets a number that is not negative. -/
theorem print_int_nonneg {m : Int32} {n : Nat} (sign : Bool) (hb : base.toInt = b)
    (hb1 : 10 ≤ b) (hb16 : b ≤ 16) (hm : m.toInt = n) :
    ∃ text, print_int m base sign = some text ∧ Numeral b n text := by
  have hlt : n < b ^ 10 := by
    have h := m.toInt_lt
    calc n < 10 ^ 10 := by omega
      _ ≤ b ^ 10 := Nat.pow_le_pow_left hb1 10
  obtain ⟨buf, hbuf, -, hw⟩ := digitsFrom_written hb (by omega) hb16 hm (by decide) hlt
    (show 10 ≤ 16 by decide)
  have hneg : ¬ m < 0 := by
    rw [Int32.lt_iff_toInt_lt, hm]
    simp
  exact ⟨buf.reverse, by simp [print_int, hneg, hbuf], hw.numeral⟩

/-- Where it meets a negative number whose negation is not negative. -/
theorem print_int_neg {m : Int32} {n : Nat} (hb : base.toInt = b) (hb1 : 10 ≤ b) (hb16 : b ≤ 16)
    (hm : m.toInt = -n) (hn : n ≠ 0) (hmin : n < 2 ^ 31) :
    ∃ text, print_int m base true = some text ∧ Numeral b (-n) text := by
  have hnot : (-m).toInt = n := by
    rw [Int32.toInt_neg, hm, Int.neg_neg]
    exact Int.bmod_eq_of_le (by omega) (by omega)
  have hlt : n < b ^ 10 := by
    calc n < 10 ^ 10 := by omega
      _ ≤ b ^ 10 := Nat.pow_le_pow_left hb1 10
  obtain ⟨buf, hbuf, hlength, hw⟩ := digitsFrom_written hb (by omega) hb16 hnot
    (by decide) hlt (show 10 ≤ 16 by decide)
  have hneg : m < 0 := by
    rw [Int32.lt_iff_toInt_lt, hm]
    change (-n : Int) < 0
    omega
  have hput : putSign buf = some (buf ++ [0x2d]) := if_pos (by omega)
  exact ⟨(buf ++ [0x2d]).reverse, by simp [print_int, hneg, hbuf, hput], hw.numeral_neg hn⟩

/-- Where it comes to a negative number in the digit loop. -/
theorem print_int_none {m : Int32} {sign : Bool} (hb : base.toInt = b) (hb1 : 1 < b)
    (hm : m.toInt < 0) (hsign : sign = true → (-m).toInt < 0) : print_int m base sign = none := by
  unfold print_int
  split
  · next h => simp [digitsFrom_negative hb hb1 (hsign h.1)]
  · simp [digitsFrom_negative hb hb1 hm]

/-- A word as a signed number. -/
theorem toInt_toInt32 (w : UInt32) :
    w.toInt32.toInt = if w.toNat < 2 ^ 31 then (w.toNat : Int) else w.toNat - 2 ^ 32 := by
  have h : w.toInt32.toInt = w.toBitVec.toInt := rfl
  rw [h, BitVec.toInt_eq_toNat_cond]
  have hw : w.toBitVec.toNat = w.toNat := rfl
  rw [hw]
  split <;> split <;> first | rfl | omega

/-- A signed conversion prints every number but the least. -/
theorem signed_iff (hb : base.toInt = b) (hb1 : 10 ≤ b) (hb16 : b ≤ 16) :
    (∃ text, print_int w.toInt32 base true = some text ∧ Numeral b w.toInt32.toInt text) ↔
      w ≠ 0x80000000 := by
  have hw := toInt_toInt32 w
  have hlt := w.toNat_lt
  constructor
  · rintro ⟨text, htext, -⟩ rfl
    rw [print_int_none hb (by omega) (by decide) (fun _ ↦ by decide)] at htext
    cases htext
  · intro hmin
    have hne : w.toNat ≠ 2 ^ 31 := fun h ↦ hmin (UInt32.toNat_inj.mp h)
    split at hw
    · obtain ⟨text, htext, hnum⟩ := print_int_nonneg true hb hb1 hb16 hw
      exact ⟨text, htext, by rwa [hw]⟩
    · have hneg : w.toInt32.toInt = -((2 ^ 32 - w.toNat : Nat) : Int) := by omega
      obtain ⟨text, htext, hnum⟩ := print_int_neg hb hb1 hb16 hneg (by omega) (by omega)
      exact ⟨text, htext, by rwa [hneg]⟩

/-- The unsigned conversion prints the numbers of the lower half. -/
theorem unsigned_iff :
    (∃ text, print_int w.toInt32 10 false = some text ∧ Numeral 10 w.toNat text) ↔
      w < 0x80000000 := by
  have hw := toInt_toInt32 w
  have hlt := w.toNat_lt
  rw [UInt32.lt_iff_toNat_lt]
  change _ ↔ w.toNat < 2 ^ 31
  constructor
  · rintro ⟨text, htext, -⟩
    by_contra hge
    rw [if_neg hge] at hw
    rw [print_int_none (b := 10) rfl (by decide) (by omega) (by simp)] at htext
    cases htext
  · intro hhalf
    rw [if_pos hhalf] at hw
    exact print_int_nonneg _ rfl (by decide) (by decide) hw

end

/-- A conversion prints the numeral of its argument if and only if the number, or its negation if
the conversion is signed, is an `int` that is not negative. -/
theorem numbers_exact_iff (f : Format) (w : UInt32) (args : List Arg) :
    f.Exact w args ↔ f.Fits w := by
  cases f with
  | d =>
    rw [Format.Fits, ← signed_iff (show (10 : Int32).toInt = (10 : Nat) from rfl) (by decide) (by decide)]
    simp [Format.Exact, Format.letter, Format.base, Format.read, conversion]
  | u =>
    rw [Format.Fits, ← unsigned_iff]
    simp [Format.Exact, Format.letter, Format.base, Format.read, conversion]
  | x =>
    rw [Format.Fits, ← signed_iff (show (16 : Int32).toInt = (16 : Nat) from rfl) (by decide) (by decide)]
    simp [Format.Exact, Format.letter, Format.base, Format.read, conversion]

/-- An exact conversion in front of the rest of a format. -/
theorem Format.Exact.printf {f : Format} {w : UInt32} {args : List Arg} (h : f.Exact w args)
    (fmt : List UInt8) : ∃ text, Numeral f.base (f.read w) text ∧
      printf (0x25 :: f.letter :: fmt) (.word w :: args) =
        (Console.printf fmt args).map (text ++ ·) := by
  obtain ⟨text, htext, hnum⟩ := h
  refine ⟨text, hnum, ?_⟩
  rw [Console.printf, if_neg (by simp), htext]
  cases hrest : Console.printf fmt args <;> simp [hrest]

/-- The number `3000000000`: its last digit would be `digits[-6]`. -/
theorem upper_half_not_exact : ¬ Format.u.Exact 3000000000 [] := by
  rintro ⟨text, htext, -⟩
  have hnone : conversion 0x75 [.word 3000000000] = none := by decide
  rw [Format.letter, hnone] at htext
  cases htext

end Orfos.Console
