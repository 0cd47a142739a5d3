import Provision.Package
import Provision.Word

/-!
# Problems

Why a goal cannot be met, or what is worth knowing about one that can. Two problems are the same if
they are of one kind, implicate the same builds and say the same. A report lists problems with the
most severe kinds first and otherwise in the order in which they were found.
-/

namespace Provision

inductive ProblemKind
  | protectedPackage
  | conflicts
  | brokenDependency
  | notFound
  | excluded
  | orderingCycle
  | alreadyInstalled
  deriving DecidableEq, Repr, Inhabited

namespace ProblemKind

def all : List ProblemKind :=
  [protectedPackage, conflicts, brokenDependency, notFound, excluded, orderingCycle,
    alreadyInstalled]

def text : ProblemKind → String
  | protectedPackage => "PROTECTED_PACKAGE"
  | conflicts => "CONFLICTS"
  | brokenDependency => "BROKEN_DEPENDENCY"
  | notFound => "NOT_FOUND"
  | excluded => "EXCLUDED"
  | orderingCycle => "ORDERING_CYCLE"
  | alreadyInstalled => "ALREADY_INSTALLED"

def parse : String → Except UnknownWord ProblemKind := readWord "problem kind" all text

/-- A problem of this kind keeps a transaction from being made. -/
def isBlocking : ProblemKind → Bool
  | orderingCycle | alreadyInstalled => false
  | _ => true

/-- Rank in a report; the smaller, the more severe. -/
def severity : ProblemKind → Nat
  | protectedPackage | conflicts | brokenDependency => 0
  | notFound | excluded => 1
  | orderingCycle | alreadyInstalled => 2

end ProblemKind

structure Problem where
  kind : ProblemKind
  implicated : List Package
  message : String
  deriving Repr, Inhabited

namespace Problem

def text (p : Problem) : String := "[" ++ p.kind.text ++ "] " ++ p.message

def isBlocking (p : Problem) : Bool := p.kind.isBlocking

/-- Same kind, same builds and same message. -/
def Same (p q : Problem) : Prop :=
  p.kind = q.kind ∧ p.implicated.map Package.build = q.implicated.map Package.build ∧
    p.message = q.message

instance (p q : Problem) : Decidable (p.Same q) := inferInstanceAs (Decidable (_ ∧ _ ∧ _))

/-- The list with the problem at its end, unless it holds the same one already. -/
def insertInto (problems : List Problem) (p : Problem) : List Problem :=
  if problems.any fun q => q.Same p then problems else problems ++ [p]

/-- The list with each of `more` inserted in turn. -/
def insertAll (problems more : List Problem) : List Problem := more.foldl insertInto problems

/-- The lines about one problem, the `number`th of a report. -/
def entry (number : Nat) (p : Problem) : String :=
  s!"Problem {number} [{p.kind.text}]: {p.message}\n" ++
    String.join (p.implicated.map fun package => s!"  - {package.nevra} ({package.repo})\n")

/-- All problems as text, most severe first. -/
def report (problems : List Problem) : String :=
  let ordered := problems.mergeSort fun p q => p.kind.severity ≤ q.kind.severity
  String.join (ordered.zipIdx.map fun p => p.1.entry (p.2 + 1))

end Problem

end Provision
