/-!
# Numbers of TOML

Integers are of 64 bits and may be written in four bases. Other numbers are written as digits with a
fraction, an exponent or both; one that is too large for a floating-point number of 64 bits is
refused, which exact arithmetic decides.
-/

namespace Provision.Toml

def hexValue? (c : Char) : Option Nat :=
  if c.isDigit then some (c.toNat - '0'.toNat)
  else if 'a' ≤ c ∧ c ≤ 'f' then some (c.toNat - 'a'.toNat + 10)
  else if 'A' ≤ c ∧ c ≤ 'F' then some (c.toNat - 'A'.toNat + 10)
  else none

/-- Digits of a kind, single underscores between them left out. -/
def readDigitRun (isDigit : Char → Bool) : List Char → Option (List Char)
  | [] => none
  | [c] => if isDigit c then some [c] else none
  | c :: '_' :: rest => if isDigit c then (readDigitRun isDigit rest).map (c :: ·) else none
  | c :: rest => if isDigit c then (readDigitRun isDigit rest).map (c :: ·) else none

/-- Digits without a superfluous zero in front. -/
def readWhole (s : List Char) : Option (List Char) :=
  match readDigitRun Char.isDigit s with
  | some ('0' :: _ :: _) => none
  | digits => digits

def numberOf (base : Nat) (digits : List Char) : Nat :=
  digits.foldl (fun acc c => acc * base + (hexValue? c).getD 0) 0

/-- The sign in front of a number, true for minus, and the rest. -/
def cutSign : List Char → Bool × List Char
  | '-' :: rest => (true, rest)
  | '+' :: rest => (false, rest)
  | s => (false, s)

def withSign (negative : Bool) (n : Nat) : Int := if negative then -(n : Int) else n

/-! ## Integers -/

def boundInteger (n : Int) : Option Int :=
  if -0x8000000000000000 ≤ n ∧ n < 0x8000000000000000 then some n else none

def integerOf? (s : List Char) : Option Int :=
  match s with
  | '0' :: 'x' :: digits =>
    (readDigitRun (fun c => (hexValue? c).isSome) digits).bind fun d => boundInteger (numberOf 16 d)
  | '0' :: 'o' :: digits =>
    (readDigitRun (fun c => '0' ≤ c && c ≤ '7') digits).bind fun d => boundInteger (numberOf 8 d)
  | '0' :: 'b' :: digits =>
    (readDigitRun (fun c => c == '0' || c == '1') digits).bind fun d => boundInteger (numberOf 2 d)
  | s =>
    let (negative, digits) := cutSign s
    (readWhole digits).bind fun d => boundInteger (withSign negative (numberOf 10 d))

/-! ## Numbers with a fraction or an exponent -/

/-- The number `digits * 10 ^ exponent`. -/
structure Decimal where
  digits : Nat
  exponent : Int
  deriving DecidableEq, Repr

namespace Decimal

/-- The least number that rounds to infinity: the largest floating-point number of 64 bits ends half
a unit below it. -/
def ceiling : Nat := Nat.pow 2 1024 - Nat.pow 2 970

/-- How many decimal digits the ceiling has. -/
def ceilingLength : Nat := 309

/-- The number is not below the ceiling. Powers of ten are computed only where the digits do not
decide the matter. -/
def overflows (d : Decimal) : Bool :=
  match d.exponent with
  | .ofNat e => d.digits != 0 && (ceilingLength ≤ e || ceiling ≤ d.digits * Nat.pow 10 e)
  | .negSucc k => k < d.digits.log2 && ceiling * Nat.pow 10 (k + 1) ≤ d.digits

/-- Reads a number without its sign. -/
def ofChars? (s : List Char) : Option Decimal := do
  let mantissa := s.takeWhile fun c => c != 'e' && c != 'E'
  let whole ← readWhole (mantissa.takeWhile (· != '.'))
  let fraction ← match mantissa.dropWhile (· != '.') with
    | [] => some []
    | _ :: digits => readDigitRun Char.isDigit digits
  let exponent ← match s.drop mantissa.length with
    | [] => if fraction.isEmpty then none else some 0
    | _ :: power =>
      let (negative, digits) := cutSign power
      (readDigitRun Char.isDigit digits).map fun d => withSign negative (numberOf 10 d)
  return ⟨numberOf 10 (whole ++ fraction), exponent - fraction.length⟩

theorem ceiling_le_pow : ceiling ≤ Nat.pow 10 ceilingLength := by decide +kernel

theorem pow_le_mul {n m e : Nat} (hn : 0 < n) (h : m ≤ e) :
    Nat.pow 10 m ≤ n * Nat.pow 10 e :=
  Nat.le_trans (Nat.pow_le_pow_right (Nat.succ_pos 9) h) (Nat.le_mul_of_pos_left _ hn)

theorem overflows_ofNat {n e : Nat} :
    (⟨n, .ofNat e⟩ : Decimal).overflows ↔ ceiling ≤ n * Nat.pow 10 e := by
  have hpos : 0 < ceiling := by decide +kernel
  simp only [overflows, Bool.and_eq_true, bne_iff_ne, ne_eq, Bool.or_eq_true, decide_eq_true_eq]
  constructor
  · rintro ⟨hn, he | h⟩
    · exact Nat.le_trans ceiling_le_pow (pow_le_mul (Nat.pos_of_ne_zero hn) he)
    · exact h
  · intro h
    refine ⟨fun hn => ?_, .inr h⟩
    rw [hn, Nat.zero_mul] at h
    omega

theorem overflows_negSucc {n k : Nat} :
    (⟨n, .negSucc k⟩ : Decimal).overflows ↔ ceiling * Nat.pow 10 (k + 1) ≤ n := by
  have hpos : 0 < ceiling := by decide +kernel
  simp only [overflows, Bool.and_eq_true, decide_eq_true_eq, and_iff_right_iff_imp]
  intro h
  have hpow : Nat.pow 2 (k + 1) ≤ n :=
    calc Nat.pow 2 (k + 1) ≤ Nat.pow 10 (k + 1) := Nat.pow_le_pow_left (by decide) _
      _ ≤ ceiling * Nat.pow 10 (k + 1) := Nat.le_mul_of_pos_left _ hpos
      _ ≤ n := h
  have hn : n ≠ 0 := Nat.ne_of_gt (Nat.lt_of_lt_of_le (Nat.two_pow_pos _) hpow)
  exact (Nat.le_log2 hn).2 hpow

end Decimal

/-- The text is a number with a fraction, an exponent or both, and it is not too large, or one of
the special ones. -/
def isFloat (s : List Char) : Bool :=
  let (negative, number) := cutSign s
  number = "inf".toList || number = "nan".toList ||
    (Decimal.ofChars? number).any fun d => negative || !d.overflows

end Provision.Toml
