import Provision.Constraint

/-!
# Capabilities

A package needs capabilities and offers some. A requirement names a capability and constrains its
version; a provide offers one, perhaps at a version. An offer without a version meets only
requirements without a constraint.
-/

namespace Provision

structure Requirement where
  name : String
  constraint : Constraint
  deriving DecidableEq, Repr

namespace Requirement

/-- The characters that end the name of a required capability. -/
def endsName (c : Char) : Bool :=
  Text.isBlank c || c == '<' || c == '>' || c == '=' || c == '!'

/-- Reads a name and, from the first blank or operator on, a constraint. -/
def parse (s : String) : Except ParseError Requirement := do
  let s := Text.trim s.toList
  match s.takeWhile fun c => !endsName c with
  | [] => .error (.namelessRequirement (String.ofList s))
  | name =>
    return ⟨String.ofList name, ← Constraint.ofChars (s.dropWhile fun c => !endsName c)⟩

def text (r : Requirement) : String :=
  match r.constraint with
  | .any => r.name
  | constraint => r.name ++ " " ++ constraint.text

/-- The capability `name`, offered at `version` if one is given, meets the requirement. -/
def metBy (r : Requirement) (name : String) (version : Option Evr) : Bool :=
  r.name == name &&
    (match r.constraint, version with
    | .any, _ => true
    | constraint, some v => constraint.satisfiedBy v
    | _, none => false)

end Requirement

structure Provide where
  name : String
  version : Option Evr
  deriving DecidableEq, Repr

namespace Provide

/-- Reads `name` or `name = version`. -/
def parse (s : String) : Except ParseError Provide :=
  match Text.cutFirst '=' s.toList with
  | none => .ok ⟨String.ofList (Text.trim s.toList), none⟩
  | some (name, version) =>
    match Text.trim name with
    | [] => .error (.namelessProvide s)
    | name => do return ⟨String.ofList name, some (← Evr.ofChars version)⟩

def text (p : Provide) : String :=
  match p.version with
  | none => p.name
  | some version => p.name ++ " = " ++ version.text

def meets (p : Provide) (r : Requirement) : Bool := r.metBy p.name p.version

end Provide

end Provision
