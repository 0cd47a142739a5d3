import Provision.Text.Combining
import Provision.Text.Formless

/-!
# Quoted text

A text between double quotes, for messages that have to show where it begins and ends. Quotes and
backslashes get a backslash, and combining and formless characters are shown by their numbers.
-/

namespace Provision.Text

/-- The number of a character in hexadecimal digits, in braces. -/
def codePoint (c : Char) : List Char :=
  '\\' :: 'u' :: '\x7b' :: Nat.toDigits 16 c.toNat ++ ['\x7d']

def escapeQuoted (c : Char) : List Char :=
  if c = '"' ∨ c = '\\' then ['\\', c]
  else if c = '\t' then ['\\', 't']
  else if c = '\n' then ['\\', 'n']
  else if c = '\r' then ['\\', 'r']
  else if c.toNat = 0 then ['\\', '0']
  else if isCombining c || isFormless c then codePoint c
  else [c]

def quoted (s : String) : String :=
  String.ofList ('"' :: s.toList.flatMap escapeQuoted ++ ['"'])

end Provision.Text
