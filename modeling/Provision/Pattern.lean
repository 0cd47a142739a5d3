import Provision.Glob
import Provision.Package

/-!
# Package patterns

A pattern selects packages by the ways in which people write them: by name, with architecture, with
version, with version and release, or in full. It is a glob over these forms; a text that is no glob
selects the packages of which it is a form.
-/

namespace Provision

/-- The ways to write a build that a pattern is compared with. -/
def Build.forms (b : Build) : List String :=
  [b.name, b.name ++ "." ++ b.arch, b.name ++ "-" ++ b.evr.version, b.name ++ "-" ++ b.evr.text,
    b.nevra] ++
    (match b.evr.release with
    | none => []
    | some release =>
      [b.name ++ "-" ++ b.evr.version ++ "-" ++ release,
        b.name ++ "-" ++ b.evr.version ++ "-" ++ release ++ "." ++ b.arch])

/-- A pattern as it was written, with the glob that it is unless it is none. -/
structure Pattern where
  text : String
  glob : Option Glob
  deriving Repr

namespace Pattern

def ofText (s : String) : Pattern :=
  match Glob.parse s with
  | .ok glob => ⟨s, some glob⟩
  | .error _ => ⟨s, none⟩

/-- The pattern selects texts such as `form`. -/
def selectsForm (p : Pattern) (form : String) : Bool :=
  match p.glob with
  | some glob => glob.selects form
  | none => form == p.text

def selects (p : Pattern) (b : Build) : Bool := b.forms.any p.selectsForm

end Pattern

end Provision
