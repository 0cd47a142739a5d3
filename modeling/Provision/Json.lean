/-!
# JSON text

Values are written over several lines, two blanks for each level, fields in the order given. Of the
characters of a string only quotes, backslashes and control characters are escaped.
-/

namespace Provision

inductive Json
  | string (s : String)
  | integer (n : Int)
  | list (values : List Json)
  | object (fields : List (String × Json))

namespace Json

/-- A hexadecimal digit in lower case. -/
def hexDigit (n : Nat) : Char :=
  if n < 10 then Char.ofNat ('0'.toNat + n) else Char.ofNat ('a'.toNat + (n - 10))

def escapeChar (c : Char) : List Char :=
  if c = '"' then ['\\', '"']
  else if c = '\\' then ['\\', '\\']
  else if c = '\n' then ['\\', 'n']
  else if c = '\r' then ['\\', 'r']
  else if c = '\t' then ['\\', 't']
  else if c = '\x08' then ['\\', 'b']
  else if c = '\x0c' then ['\\', 'f']
  else if c.toNat < 0x20 then
    ['\\', 'u', '0', '0', hexDigit (c.toNat / 16), hexDigit (c.toNat % 16)]
  else [c]

def quote (s : String) : String :=
  "\"" ++ String.ofList (s.toList.flatMap escapeChar) ++ "\""

def newline (depth : Nat) : String := "\n" ++ String.ofList (List.replicate (2 * depth) ' ')

mutual

/-- The text of a value that stands at `depth`. -/
def render (depth : Nat) : Json → String
  | string s => quote s
  | integer n => toString n
  | list [] => "[]"
  | list (v :: values) =>
    "[" ++ newline (depth + 1) ++ render (depth + 1) v ++ renderValues (depth + 1) values ++
      newline depth ++ "]"
  | object [] => "\x7b\x7d"
  | object ((key, v) :: fields) =>
    "\x7b" ++ newline (depth + 1) ++ quote key ++ ": " ++ render (depth + 1) v ++
      renderFields (depth + 1) fields ++ newline depth ++ "\x7d"

def renderValues (depth : Nat) : List Json → String
  | [] => ""
  | v :: values => "," ++ newline depth ++ render depth v ++ renderValues depth values

def renderFields (depth : Nat) : List (String × Json) → String
  | [] => ""
  | (key, v) :: fields =>
    "," ++ newline depth ++ quote key ++ ": " ++ render depth v ++ renderFields depth fields

end

def pretty (v : Json) : String := v.render 0

end Json

end Provision
