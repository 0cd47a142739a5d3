import Provision.Toml
import Provision.Toml.Number

/-!
# Lexical forms of TOML

Readers for blanks, comments, keys, strings and the other values without structure. A reader takes a
text and gives what it read with the rest, or nothing.
-/

namespace Provision.Toml

/-- Control characters, which stand nowhere but in escapes; the tab is none. -/
def isControl (c : Char) : Bool := (c.toNat < 0x20 && c != '\t') || c.toNat == 0x7F

def skipBlanks (s : List Char) : List Char := s.dropWhile fun c => c == ' ' || c == '\t'

/-- The rest after a comment, if one stands here; it ends before the end of the line. -/
def skipComment (s : List Char) : List Char :=
  match s with
  | '#' :: rest => rest.dropWhile fun c => !isControl c
  | s => s

/-- The rest after the end of a line. -/
def readNewline : List Char → Option (List Char)
  | '\n' :: rest => some rest
  | '\r' :: '\n' :: rest => some rest
  | _ => none

/-- The rest after the end of a line or of the text, with blanks and a comment before it. -/
def readLineEnd (s : List Char) : Option (List Char) :=
  match skipComment (skipBlanks s) with
  | [] => some []
  | s => readNewline s

/-- The rest after blanks, comments and ends of lines. -/
def skipSpace : Nat → List Char → List Char
  | 0, s => s
  | bound + 1, s =>
    match readNewline (skipComment (skipBlanks s)) with
    | some rest => skipSpace bound rest
    | none => skipComment (skipBlanks s)

/-! ## Strings -/

/-- The character with a number of `count` hexadecimal digits. -/
def readCodePoint (count : Nat) (s : List Char) : Option (Char × List Char) := do
  let digits ← (s.take count).mapM hexValue?
  if digits.length < count then none
  else
    let n := digits.foldl (fun acc d => acc * 16 + d) 0
    if Nat.isValidChar n then some (Char.ofNat n, s.drop count) else none

/-- What an escape stands for, read after its backslash. -/
def readEscape : List Char → Option (Char × List Char)
  | 'b' :: rest => some ('\x08', rest)
  | 't' :: rest => some ('\t', rest)
  | 'n' :: rest => some ('\n', rest)
  | 'f' :: rest => some ('\x0c', rest)
  | 'r' :: rest => some ('\r', rest)
  | '"' :: rest => some ('"', rest)
  | '\\' :: rest => some ('\\', rest)
  | 'u' :: rest => readCodePoint 4 rest
  | 'U' :: rest => readCodePoint 8 rest
  | _ => none

/-- The rest of a string on one line, read after its opening quote. -/
def readBasic : Nat → List Char → Option (List Char × List Char)
  | 0, _ => none
  | _ + 1, [] => none
  | _ + 1, '"' :: rest => some ([], rest)
  | bound + 1, '\\' :: rest => do
    let (c, rest) ← readEscape rest
    let (cs, rest) ← readBasic bound rest
    return (c :: cs, rest)
  | bound + 1, c :: rest =>
    if isControl c then none
    else do
      let (cs, rest) ← readBasic bound rest
      return (c :: cs, rest)

def readLiteral : List Char → Option (List Char × List Char)
  | [] => none
  | '\'' :: rest => some ([], rest)
  | c :: rest => if isControl c then none else (readLiteral rest).map fun p => (c :: p.1, p.2)

/-- The rest after blanks and ends of lines, which a backslash at the end of a line swallows. -/
def dropLineSpace : List Char → List Char
  | ' ' :: rest => dropLineSpace rest
  | '\t' :: rest => dropLineSpace rest
  | '\n' :: rest => dropLineSpace rest
  | '\r' :: '\n' :: rest => dropLineSpace rest
  | s => s

/-- The quotes in front, at most five, of which the last three close a string. -/
def closingQuotes (quote : Char) (s : List Char) : Option (List Char × List Char) :=
  let count := ((s.takeWhile (· == quote)).take 5).length
  if count < 3 then none else some (List.replicate (count - 3) quote, s.drop count)

/-- A character of a string of several lines. However a line ends, it counts as one newline. -/
def readLineChar (s : List Char) : Option (Char × List Char) :=
  match readNewline s with
  | some rest => some ('\n', rest)
  | none =>
    match s with
    | [] => none
    | c :: rest => if isControl c then none else some (c, rest)

/-- The rest of a string of several lines, read after its opening quotes. -/
def readLongBasic : Nat → List Char → Option (List Char × List Char)
  | 0, _ => none
  | bound + 1, s =>
    match closingQuotes '"' s with
    | some parts => some parts
    | none =>
      match s with
      | '\\' :: rest =>
        match readNewline (skipBlanks rest) with
        | some rest => readLongBasic bound (dropLineSpace rest)
        | none => do
          let (c, rest) ← readEscape rest
          let (cs, rest) ← readLongBasic bound rest
          return (c :: cs, rest)
      | s => do
        let (c, rest) ← readLineChar s
        let (cs, rest) ← readLongBasic bound rest
        return (c :: cs, rest)

def readLongLiteral : Nat → List Char → Option (List Char × List Char)
  | 0, _ => none
  | bound + 1, s =>
    match closingQuotes '\'' s with
    | some parts => some parts
    | none => do
      let (c, rest) ← readLineChar s
      let (cs, rest) ← readLongLiteral bound rest
      return (c :: cs, rest)

/-- A line end right after the opening quotes does not count. -/
def dropFirstLineEnd (s : List Char) : List Char := (readNewline s).getD s

/-- A string of any of the four forms. -/
def readString (s : List Char) : Option (List Char × List Char) :=
  match s with
  | '"' :: '"' :: '"' :: rest => readLongBasic (rest.length + 1) (dropFirstLineEnd rest)
  | '\'' :: '\'' :: '\'' :: rest => readLongLiteral (rest.length + 1) (dropFirstLineEnd rest)
  | '"' :: rest => readBasic (rest.length + 1) rest
  | '\'' :: rest => readLiteral rest
  | _ => none

/-! ## Keys -/

def isBareKeyChar (c : Char) : Bool := c.isAlphanum || c == '-' || c == '_'

def readSimpleKey (s : List Char) : Option (String × List Char) :=
  match s with
  | '"' :: rest => (readBasic (rest.length + 1) rest).map fun p => (String.ofList p.1, p.2)
  | '\'' :: rest => (readLiteral rest).map fun p => (String.ofList p.1, p.2)
  | s =>
    match s.takeWhile isBareKeyChar with
    | [] => none
    | key => some (String.ofList key, s.dropWhile isBareKeyChar)

/-- Simple keys with dots between them and blanks around them. -/
def readPath : Nat → List Char → Option (List String × List Char)
  | 0, _ => none
  | bound + 1, s => do
    let (key, rest) ← readSimpleKey (skipBlanks s)
    match skipBlanks rest with
    | '.' :: rest => do
      let (keys, rest) ← readPath bound rest
      return (key :: keys, rest)
    | rest => return ([key], rest)

/-- Dotted keys are shorter than this, and arrays and inline tables lie in each other less deep. -/
def depthLimit : Nat := 80

def readKey (s : List Char) : Option (List String × List Char) := do
  let (path, rest) ← readPath (s.length + 1) s
  if path.length < depthLimit then some (path, rest) else none

/-! ## Moments and other scalars -/

/-- The number that two characters write, if it lies within bounds. -/
def twoDigits? (low high : Nat) (a b : Char) : Option Nat :=
  if a.isDigit && b.isDigit then
    let n := numberOf 10 [a, b]
    if low ≤ n ∧ n ≤ high then some n else none
  else none

def daysIn (year month : Nat) : Nat :=
  if month = 2 then (if year % 4 = 0 ∧ (year % 100 ≠ 0 ∨ year % 400 = 0) then 29 else 28)
  else if month ∈ [4, 6, 9, 11] then 30
  else 31

/-- The rest after a date. -/
def readDate : List Char → Option (List Char)
  | y₁ :: y₂ :: y₃ :: y₄ :: '-' :: m₁ :: m₂ :: '-' :: d₁ :: d₂ :: rest => do
    let century ← twoDigits? 0 99 y₁ y₂
    let year ← twoDigits? 0 99 y₃ y₄
    let month ← twoDigits? 1 12 m₁ m₂
    let _ ← twoDigits? 1 (daysIn (century * 100 + year) month) d₁ d₂
    return rest
  | _ => none

/-- The rest after a time of day. -/
def readTime : List Char → Option (List Char)
  | h₁ :: h₂ :: ':' :: m₁ :: m₂ :: ':' :: s₁ :: s₂ :: rest => do
    let _ ← twoDigits? 0 23 h₁ h₂
    let _ ← twoDigits? 0 59 m₁ m₂
    let _ ← twoDigits? 0 60 s₁ s₂
    match rest with
    | '.' :: c :: more => if c.isDigit then some (more.dropWhile Char.isDigit) else none
    | rest => some rest
  | _ => none

def isOffset : List Char → Bool
  | ['Z'] | ['z'] => true
  | sign :: h₁ :: h₂ :: ':' :: m₁ :: m₂ :: [] =>
    (sign == '+' || sign == '-') && (twoDigits? 0 23 h₁ h₂).isSome &&
      (twoDigits? 0 59 m₁ m₂).isSome
  | _ => false

/-- The text is a date, a time of day, or both with or without an offset. -/
def isMoment (s : List Char) : Bool :=
  match readDate s with
  | some [] => true
  | some (c :: rest) =>
    (c == 'T' || c == 't' || c == ' ') &&
      (readTime rest).any fun more => more.isEmpty || isOffset more
  | none => readTime s == some []

def isScalarChar (c : Char) : Bool :=
  c.isAlphanum || c == '+' || c == '-' || c == '.' || c == ':' || c == '_'

/-- The characters of a value that is no string; a blank may stand between a date and a time. -/
def cutScalar (s : List Char) : List Char × List Char :=
  let first := s.takeWhile isScalarChar
  let rest := s.dropWhile isScalarChar
  match rest with
  | ' ' :: c :: more =>
    if readDate first == some [] && c.isDigit then
      (first ++ ' ' :: (c :: more).takeWhile isScalarChar, (c :: more).dropWhile isScalarChar)
    else (first, rest)
  | rest => (first, rest)

def readScalar (s : List Char) : Option (Value × List Char) :=
  let (text, rest) := cutScalar s
  if text = "true".toList then some (.boolean true, rest)
  else if text = "false".toList then some (.boolean false, rest)
  else
    match integerOf? text with
    | some n => some (.integer n, rest)
    | none =>
      if isFloat text then some (.float text, rest)
      else if isMoment text then some (.moment text, rest)
      else none

end Provision.Toml
