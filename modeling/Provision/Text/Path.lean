import Provision.Text.Cut

/-!
# Paths

A path leads through steps divided by slashes. Two spellings are of one path if they lead through
the same steps from the same start; no directory is asked whether a step can be taken.
-/

namespace Provision.Text

/-- A step that leads somewhere else. -/
def isStep (step : List Char) : Bool := step != [] && step != ['.']

/-- Whether a path starts at the root, and its steps. The first one counts whatever it is, of the
others those that lead somewhere else. -/
def pathSteps (path : List Char) : Bool × List (List Char) :=
  (path.head? == some '/',
    match splitAll '/' path with
    | [] => []
    | first :: rest => first :: rest.filter isStep)

def SamePath (a b : String) : Prop := pathSteps a.toList = pathSteps b.toList

instance (a b : String) : Decidable (SamePath a b) :=
  inferInstanceAs (Decidable (pathSteps a.toList = pathSteps b.toList))

end Provision.Text
