import Provision.Text.Cut

/-!
# Globs

A glob is a text with wildcards: `?` stands for one character, `*` for any run of characters,
`[a-z]` for one character of a class and `[!a-z]` for one outside it. `**` has to be a whole part
between slashes and stands for any number of such parts. `ofChars?` reads a glob, `selects` says
which texts it stands for.
-/

namespace Provision

namespace Glob

/-- One entry of a class, a range of code points; a single character is a range of its own. -/
structure Span where
  first : Char
  last : Char
  deriving DecidableEq, Repr

def Span.contains (s : Span) (c : Char) : Bool := s.first ≤ c && c ≤ s.last

inductive Token
  | literal (c : Char)
  | anyChar
  | anyRun
  | anyParts
  | oneOf (spans : List Span)
  | noneOf (spans : List Span)
  deriving DecidableEq, Repr

/-- The wildcard stands for the single character `c`. -/
def Token.standsFor (c : Char) : Token → Bool
  | literal d => d == c
  | oneOf spans => spans.any (·.contains c)
  | noneOf spans => !spans.any (·.contains c)
  | anyChar | anyRun | anyParts => true

inductive Fault
  | invalidClass
  | tooManyStars
  | partsNotAlone
  deriving DecidableEq, Repr

/-- What is wrong with a glob, and near which of its characters. -/
structure Error where
  position : Nat
  fault : Fault
  deriving DecidableEq, Repr

def Fault.message : Fault → String
  | invalidClass => "invalid range pattern"
  | tooManyStars => "wildcards are either regular `*` or recursive `**`"
  | partsNotAlone => "recursive wildcards must form a single path component"

def Error.message (e : Error) : String :=
  s!"Pattern syntax error near position {e.position}: {e.fault.message}"

/-- The entries of a class: ranges are taken from the left, a dash that is left over is itself. -/
def spansOf : List Char → List Span
  | a :: '-' :: b :: rest => ⟨a, b⟩ :: spansOf rest
  | a :: rest => ⟨a, a⟩ :: spansOf rest
  | [] => []

/-- The class after an opening bracket and what follows it. Its first character cannot close it. -/
def readClass : List Char → Option (Token × List Char)
  | '!' :: first :: rest =>
    (Text.cutFirst ']' rest).map fun parts => (.noneOf (spansOf (first :: parts.1)), parts.2)
  | ['!'] => none
  | first :: rest =>
    (Text.cutFirst ']' rest).map fun parts => (.oneOf (spansOf (first :: parts.1)), parts.2)
  | [] => none

theorem length_lt_of_readClass {s rest : List Char} {t : Token}
    (h : readClass s = some (t, rest)) : rest.length < s.length := by
  unfold readClass at h
  split at h
  · obtain ⟨⟨a, b⟩, hcut, heq⟩ := Option.map_eq_some_iff.1 h
    have := congrArg List.length (Text.eq_of_cutFirst hcut)
    simp_all
    omega
  · cases h
  · obtain ⟨⟨a, b⟩, hcut, heq⟩ := Option.map_eq_some_iff.1 h
    have := congrArg List.length (Text.eq_of_cutFirst hcut)
    simp_all
    omega
  · cases h

/-- Two neighbouring `**` are one, unless the first of them starts the glob. -/
def pushParts (done : List Token) : List Token :=
  match done with
  | .anyParts :: _ :: _ => done
  | _ => .anyParts :: done

/--
Reads the rest of a glob of `size` characters. `done` holds the tokens read so far, the last one
first, and `before` the character in front of the rest.
-/
def readTokens (size : Nat) (done : List Token) (before : Option Char) :
    List Char → Except Error (List Token)
  | [] => .ok done.reverse
  | '*' :: '*' :: '*' :: rest => .error ⟨size - rest.length - 1, .tooManyStars⟩
  | '*' :: '*' :: rest =>
    if before = none ∨ before = some '/' then
      match rest with
      | [] => .ok (pushParts done).reverse
      | '/' :: rest => readTokens size (pushParts done) (some '/') rest
      | rest => .error ⟨size - rest.length, .partsNotAlone⟩
    else .error ⟨size - rest.length - 3, .partsNotAlone⟩
  | '*' :: rest => readTokens size (.anyRun :: done) (some '*') rest
  | '?' :: rest => readTokens size (.anyChar :: done) (some '?') rest
  | '[' :: rest =>
    match h : readClass rest with
    | some (token, rest') =>
      have := length_lt_of_readClass h
      readTokens size (token :: done) (some ']') rest'
    | none => .error ⟨size - rest.length - 1, .invalidClass⟩
  | c :: rest => readTokens size (.literal c :: done) (some c) rest
termination_by s => s.length

/--
The outcome of matching a text: it matches, or it does not, or it ended while the glob still asked
for a character, so that no shorter rest can match either.
-/
inductive Outcome
  | matched
  | unmatched
  | exhausted
  deriving DecidableEq, Repr

/-- The first rest of the text, from the whole of it on, that `next` decides. -/
def tryRests (next : List Char → Outcome) : List Char → Outcome
  | [] => next []
  | c :: rest =>
    match next (c :: rest) with
    | .unmatched => tryRests next rest
    | outcome => outcome

/-- As `tryRests`, but only rests that follow a slash, and last the empty one. -/
def tryParts (next : List Char → Outcome) : List Char → Outcome
  | [] => next []
  | c :: rest =>
    if c = '/' then
      match next rest with
      | .unmatched => tryParts next rest
      | outcome => outcome
    else tryParts next rest

def matchTokens : List Token → List Char → Outcome
  | [], [] => .matched
  | [], _ :: _ => .unmatched
  | .anyRun :: tokens, s => tryRests (matchTokens tokens) s
  | .anyParts :: tokens, s =>
    match matchTokens tokens s with
    | .unmatched => tryParts (matchTokens tokens) s
    | outcome => outcome
  | _ :: _, [] => .exhausted
  | token :: tokens, c :: rest =>
    if token.standsFor c then matchTokens tokens rest else .unmatched

end Glob

structure Glob where
  tokens : List Glob.Token
  deriving DecidableEq, Repr

namespace Glob

def parse (s : String) : Except Error Glob := do
  return ⟨← readTokens s.toList.length [] none s.toList⟩

def selects (g : Glob) (s : String) : Bool := matchTokens g.tokens s.toList == .matched

end Glob

end Provision
