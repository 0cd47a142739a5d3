/-!
# Decimal numerals

Natural numbers up to a limit, written with decimal digits and perhaps a plus sign. The digits are
read from the left, so of a bad digit and an overflow the leftmost is reported.
-/

namespace Provision.Text

/-- Why a text is no numeral. -/
inductive NumeralError
  | empty
  | invalidDigit
  | tooLarge
  deriving DecidableEq, Repr

def NumeralError.message : NumeralError → String
  | empty => "cannot parse integer from empty string"
  | invalidDigit => "invalid digit found in string"
  | tooLarge => "number too large to fit in target type"

/-- The largest number of 64 bits. -/
def maxWord : Nat := UInt64.size - 1

def digitValue (c : Char) : Nat := c.toNat - '0'.toNat

/-- The number that `digits` continue, `acc` being what was read before. -/
def readDigits (limit : Nat) (acc : Nat) : List Char → Except NumeralError Nat
  | [] => .ok acc
  | c :: rest =>
    if c.isDigit then
      if acc * 10 + digitValue c ≤ limit then readDigits limit (acc * 10 + digitValue c) rest
      else .error .tooLarge
    else .error .invalidDigit

def readNumeral (limit : Nat) : List Char → Except NumeralError Nat
  | [] => .error .empty
  | ['+'] => .error .invalidDigit
  | '+' :: digits => readDigits limit 0 digits
  | digits => readDigits limit 0 digits

theorem readDigits_le {limit acc n : Nat} {s : List Char} (hacc : acc ≤ limit)
    (h : readDigits limit acc s = .ok n) : n ≤ limit := by
  induction s generalizing acc with
  | nil => simp only [readDigits, Except.ok.injEq] at h; exact h ▸ hacc
  | cons c rest ih =>
    simp only [readDigits] at h
    split at h
    · split at h
      · exact ih ‹_› h
      · simp at h
    · simp at h

end Provision.Text
