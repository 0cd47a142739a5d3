import Provision.Evr

/-!
# Version constraints

A constraint is a comparison with a version, a conjunction of two, or none at all. It is written as
`>= 1.0, < 2.0`: parts between commas, each with an operator in front. A part without an operator
asks for that version, an empty part or `*` for nothing.
-/

namespace Provision

/-- How a version has to compare with the one that a constraint names. -/
inductive Comparison
  | equal
  | newer
  | newerOrEqual
  | older
  | olderOrEqual
  | unequal
  deriving DecidableEq, Repr

namespace Comparison

def symbol : Comparison → String
  | equal => "="
  | newer => ">"
  | newerOrEqual => ">="
  | older => "<"
  | olderOrEqual => "<="
  | unequal => "!="

def holds : Comparison → Ordering → Bool
  | equal, o => o == .eq
  | newer, o => o == .gt
  | newerOrEqual, o => o != .lt
  | older, o => o == .lt
  | olderOrEqual, o => o != .gt
  | unequal, o => o != .eq

/-- The comparison that the text starts with, and what follows its operator. -/
def ofChars : List Char → Comparison × List Char
  | '>' :: '=' :: rest => (newerOrEqual, rest)
  | '<' :: '=' :: rest => (olderOrEqual, rest)
  | '!' :: '=' :: rest => (unequal, rest)
  | '>' :: rest => (newer, rest)
  | '<' :: rest => (older, rest)
  | '=' :: '=' :: rest => (equal, rest)
  | '=' :: rest => (equal, rest)
  | rest => (equal, rest)

end Comparison

inductive Constraint
  | any
  | bound (comparison : Comparison) (evr : Evr)
  | both (left right : Constraint)
  deriving DecidableEq, Repr

namespace Constraint

/-- One part between commas. -/
def ofPart (s : List Char) : Except ParseError Constraint :=
  match Text.trim s with
  | [] => .ok any
  | ['*'] => .ok any
  | s => do
    let (comparison, rest) := Comparison.ofChars s
    return bound comparison (← Evr.ofChars rest)

def ofParts : List (List Char) → Except ParseError Constraint
  | [] => .ok any
  | [part] => ofPart part
  | part :: parts => do
    let left ← ofPart part
    return both left (← ofParts parts)

def ofChars (s : List Char) : Except ParseError Constraint := ofParts (Text.splitAll ',' s)

def parse (s : String) : Except ParseError Constraint := ofChars s.toList

def text : Constraint → String
  | any => "*"
  | bound comparison evr => comparison.symbol ++ " " ++ evr.text
  | both left right => left.text ++ ", " ++ right.text

def satisfiedBy (version : Evr) : Constraint → Bool
  | any => true
  | bound comparison evr => comparison.holds (version.rankLoosely evr)
  | both left right => left.satisfiedBy version && right.satisfiedBy version

end Constraint

end Provision
