import Provision.Toml.Lexical

/-!
# Writing TOML

Strings are written in the plainest form that they allow. A list of one string stands on one line, a
longer one has a line for each.
-/

namespace Provision.Toml

/-- The four forms of a string. -/
inductive Form
  | basic
  | literal
  | longBasic
  | longLiteral
  deriving DecidableEq, Repr

/-- The length of the longest run of a character, `current` being the run that ends here. -/
def longestRunFrom (c : Char) (current : Nat) : List Char → Nat
  | [] => current
  | d :: rest =>
    if d = c then longestRunFrom c (current + 1) rest else max current (longestRunFrom c 0 rest)

def longestRun (c : Char) (s : List Char) : Nat := longestRunFrom c 0 s

/--
Escapes are avoided where a form without them will do, then quotes of three characters, then literal
strings.
-/
def Form.of (s : List Char) : Form :=
  let plain := !s.any fun c => isControl c && c != '\n'
  let breaks := s.contains '\n'
  let slashes := s.contains '\\'
  if plain && !breaks && !slashes && longestRun '"' s = 0 then basic
  else if plain && !breaks && longestRun '\'' s = 0 then literal
  else if plain && !slashes && longestRun '"' s ≤ 2 then longBasic
  else if plain && longestRun '\'' s ≤ 2 then longLiteral
  else if breaks then longBasic
  else basic

def Form.isLong : Form → Bool
  | basic | literal => false
  | longBasic | longLiteral => true

def Form.isLiteral : Form → Bool
  | literal | longLiteral => true
  | basic | longBasic => false

/-- What opens and closes a string. -/
def Form.delimiter (form : Form) : List Char :=
  List.replicate (if form.isLong then 3 else 1) (if form.isLiteral then '\'' else '"')

def hexDigit (n : Nat) : Char :=
  if n < 10 then Char.ofNat ('0'.toNat + n) else Char.ofNat ('A'.toNat + (n - 10))

def escapeChar (c : Char) : List Char :=
  if c = '\x08' then ['\\', 'b']
  else if c = '\t' then ['\\', 't']
  else if c = '\n' then ['\\', 'n']
  else if c = '\x0c' then ['\\', 'f']
  else if c = '\r' then ['\\', 'r']
  else if c = '\\' then ['\\', '\\']
  else if isControl c then ['\\', 'u', '0', '0', hexDigit (c.toNat / 16), hexDigit (c.toNat % 16)]
  else [c]

/-- The string with escapes; a long one keeps line ends and up to two quotes in a row. -/
def escape (long : Bool) (quotes : Nat) : List Char → List Char
  | [] => []
  | c :: rest =>
    if c = '"' then
      if long && quotes < 2 then '"' :: escape long (quotes + 1) rest
      else '\\' :: '"' :: escape long 0 rest
    else if long && c = '\n' then '\n' :: escape long 0 rest
    else escapeChar c ++ escape long 0 rest

def quote (s : String) : String :=
  let form := Form.of s.toList
  let start := if form.isLong && s.toList.contains '\n' then ['\n'] else []
  let body := if form.isLiteral then s.toList else escape form.isLong 0 s.toList
  String.ofList (form.delimiter ++ start ++ body ++ form.delimiter)

def listText : List String → String
  | [] => "[]"
  | [s] => "[" ++ quote s ++ "]"
  | values => "[\n" ++ String.join (values.map fun s => "    " ++ quote s ++ ",\n") ++ "]"

def stringLine (key value : String) : String := key ++ " = " ++ quote value ++ "\n"

/-- The line of a string, which is left out if it is absent. -/
def optionLine (key : String) (value : Option String) : String :=
  (value.map (stringLine key)).getD ""

def integerLine (key : String) (value : Int) : String := key ++ " = " ++ toString value ++ "\n"

/-- The line of a list, which is left out if it is empty. -/
def listLine (key : String) (values : List String) : String :=
  if values.isEmpty then "" else key ++ " = " ++ listText values ++ "\n"

end Provision.Toml
