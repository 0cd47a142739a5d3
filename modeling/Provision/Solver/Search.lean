import Provision.Log
import Provision.Solver.Model

/-!
# The search for a consistent model

After a step a model may be inconsistent: a new package obsoletes or conflicts with another one, or
a requirement is no longer met. `settle` mends one flaw after the other until none is left. Where a
requirement can be met in several ways they are tried in order, each on a model of its own, and the
first that settles is kept.

1. Every step of `settle`, and every trial that it makes, decides at least one open slot. So a
   number of steps above the number of slots is never used up, and `Refusal.unfinished` is not met;
   the one exception is an index in which copies of one build offer different capabilities.
2. A refusal other than that carries the problems that the user is told about.
-/

namespace Provision.Solver

/-- Why a search has no result. -/
inductive Refusal
  | problems (found : List Problem)
  /-- The steps allowed were used up. -/
  | unfinished
  deriving Repr

/-- A search writes log lines and ends with a value or a refusal. -/
abbrev Search (α : Type) := ExceptT Refusal Traced α

namespace Search

/-- The result of the search, without the lines it wrote. -/
def result {α : Type} (x : Search α) : Except Refusal α := (ExceptT.run x).value

def debug (text : String) : Search Unit := ExceptT.lift (Traced.debug text)

def refuse {α : Type} (problems : List Problem) : Search α := throw (.problems problems)

/-- Goes on with the problems of a search that found some. -/
def orElse {α : Type} (x : Search α) (next : List Problem → Search α) : Search α :=
  ExceptT.mk do
    match ← ExceptT.run x with
    | .error (.problems found) => ExceptT.run (next found)
    | outcome => pure outcome

/--
The first package for which `trial` succeeds, with what it gives. If there is none, the problems are
those of the first trial, here already `first` if there was one.
-/
def firstSuccess {α : Type} (trial : Package → Search α) (first : Option (List Problem)) :
    List Package → Search (Package × α)
  | [] => refuse (first.getD [])
  | p :: rest =>
    orElse (do return (p, ← trial p)) fun found =>
      firstSuccess trial (first.or (some found)) rest

end Search

/-- A package and one of its requirements. -/
structure Need where
  package : Package
  requirement : Requirement
  deriving Repr

/-- A package, what it conflicts with, and a package that offers just that. -/
structure Clash where
  package : Package
  conflict : Requirement
  other : Package
  deriving Repr

namespace Scope

def metadataOf (s : Scope) (p : Package) : Metadata := (s.index.metadata? p).getD {}

/-! ## Obsoletes -/

/-- The first package under another name that a package obsoletes, with the obsoletes entry. -/
def victimOf? (s : Scope) (m : Model) (p : Package) : Option (Requirement × Package) :=
  (s.metadataOf p).obsoletes.findSome? fun obsolete =>
    (m.packages.find? fun other => other.name ≠ p.name && other.meets obsolete).map (obsolete, ·)

/-- Takes off one package that a changed one obsoletes. -/
def applyObsoletes (s : Scope) (m : Model) : Search (Option Model) := do
  let found := (s.changed m).findSome? fun p => (s.victimOf? m p).map (p, ·)
  match found with
  | none => return none
  | some (p, obsolete, other) =>
    if m.isDecided other.slot then
      Search.refuse [⟨.conflicts, [p, other],
        s!"package {p.nevra} obsoletes {obsolete.text} provided by {other.nevra}"⟩]
    else
      Search.debug s!"{p.nevra} obsoletes {other.nevra}"
      let m := { m with present := m.present.erase other.slot }
      return some (m.decide other.slot ⟨.dependency, s.job, .obsoletedBy p⟩)

/-! ## Conflicts -/

/-- Every conflict between packages of which at least one is changed. -/
def clashes (s : Scope) (m : Model) : List Clash :=
  m.packages.flatMap fun p =>
    (s.metadataOf p).conflicts.flatMap fun conflict =>
      (m.packages.filter fun other =>
        other.slot ≠ p.slot && s.index.meets other conflict &&
          (s.isChanged m p.slot || s.isChanged m other.slot)).map fun other =>
      ⟨p, conflict, other⟩

def isErasable (s : Scope) (m : Model) (slot : Slot) : Bool :=
  !m.isDecided slot && (s.policy.allowErasing || m.erasesDependents)

/-- The side of a conflict that may go, preferably the one that did not declare it. -/
def erasableSide? (s : Scope) (m : Model) (c : Clash) : Option Slot :=
  if s.isErasable m c.other.slot then some c.other.slot
  else if s.isErasable m c.package.slot then some c.package.slot
  else none

def Clash.problem (c : Clash) : Problem :=
  ⟨.conflicts, [c.package, c.other],
    s!"package {c.package.nevra} conflicts with {c.conflict.text} provided by {c.other.nevra}"⟩

/-- Erases one side of the first conflict that allows it; if none does, every conflict is told. -/
def resolveConflicts (s : Scope) (m : Model) : Search (Option Model) := do
  let clashes := s.clashes m
  match clashes.findSome? fun c => (s.erasableSide? m c).map (c, ·) with
  | some (c, slot) =>
    Search.debug
      s!"Erasing {slot.text} to resolve conflict {c.package.nevra} / {c.other.nevra}"
    return some (s.erase m slot .dependency)
  | none =>
    if clashes.isEmpty then return none
    else Search.refuse (Problem.insertAll [] (clashes.map Clash.problem))

/-! ## Requirements -/

/-- The requirement is not met, and that is not how it was before. -/
def isBroken (s : Scope) (m : Model) (p : Package) (r : Requirement) : Bool :=
  !s.satisfied m.packages r && (s.isChanged m p.slot || s.satisfied s.installed.values r)

def firstBroken? (s : Scope) (m : Model) : Option Need :=
  m.packages.findSome? fun p =>
    ((s.metadataOf p).requires.find? fun r => s.isBroken m p r).map fun r => ⟨p, r⟩

/-- The order among providers: in a slot that is in use first, then by name and architecture. -/
def providerOrder (s : Scope) : Package → Package → Ordering :=
  compareLex
    (fun p q => compare (s.installed.contains q.slot).toNat (s.installed.contains p.slot).toNat) <|
  compareLex (compareOn Package.name) <|
  compareLex (compareOn Package.arch) fun p q =>
    preference ((s.installed[p.slot]?).map Package.repo) p q

/-- The packages that could meet the requirement without going back on a decision. -/
def providers (s : Scope) (m : Model) (r : Requirement) : List Package :=
  let free := s.choices.filter fun p =>
    (!m.isDecided p.slot || (m.present[p.slot]?).any fun q => q.build = p.build) &&
      s.index.meets p r
  let sorted := dropRepeats (fun p q => p.build = q.build)
    (free.mergeSort fun p q => (s.providerOrder p q).isLE)
  if s.policy.best then sorted.take 1 else sorted

/-- The newer builds of the slot of `p`, the preferred one first. -/
def upgradesOf (s : Scope) (p : Package) : List Package :=
  sortByPreference (some p.repo) <|
    s.choices.filter fun q => q.slot = p.slot && p.evr.Older q.evr

/-- Places a package and settles what follows. -/
def attempt (s : Scope) (settle : Model → Search Model) (m : Model) (reason : Reason)
    (p : Package) : Search Model :=
  match s.place m p reason with
  | .ok m => settle m
  | .error problems => Search.refuse problems

def needProblem (need : Need) (changed : Bool) (providers : List Package) : Problem :=
  let package := need.package.nevra
  let requirement := need.requirement.text
  ⟨.brokenDependency, [need.package],
    if !providers.isEmpty then
      s!"package {package} requires {requirement}, but none of the providers can be installed"
    else if changed then s!"nothing provides {requirement} needed by {package}"
    else s!"problem with installed package {package}: requires {requirement}"⟩

/-- Erases the package whose requirement cannot be met. -/
def eraseNeedy (s : Scope) (m : Model) (need : Need) : Search Model := do
  Search.debug s!"Erasing {need.package.nevra} (requires {need.requirement.text})"
  return s.erase m need.package.slot .dependency

/-- What is left to do about a package that no provider helped: upgrade it, erase it or give up. -/
def repairWithoutProvider (s : Scope) (settle : Model → Search Model) (m : Model) (need : Need)
    (untouched : Bool) (refusal : List Problem) : Search Model :=
  if untouched then
    Search.orElse
      (do return (← Search.firstSuccess (s.attempt settle m .dependency) none
            (s.upgradesOf need.package)).2)
      fun _ => if s.policy.allowErasing then s.eraseNeedy m need else Search.refuse refusal
  else Search.refuse refusal

/-- Mends a broken requirement. -/
def repair (s : Scope) (settle : Model → Search Model) (m : Model) (need : Need) :
    Search Model :=
  let changed := s.isChanged m need.package.slot
  let untouched := !changed && !m.isDecided need.package.slot
  if untouched && m.erasesDependents then s.eraseNeedy m need
  else
    let providers := s.providers m need.requirement
    Search.orElse
      (do
        let (p, settled) ← Search.firstSuccess (s.attempt settle m .dependency) none providers
        Search.debug
          s!"{p.nevra} satisfies '{need.requirement.text}' for {need.package.nevra}"
        return settled)
      fun found =>
        s.repairWithoutProvider settle m need untouched
          (Problem.insertAll [needProblem need changed providers] found)

/-- Mends the first broken requirement. -/
def repairRequires (s : Scope) (settle : Model → Search Model) (m : Model) :
    Search (Option Model) :=
  match s.firstBroken? m with
  | none => pure none
  | some need => do return some (← s.repair settle m need)

/-! ## Settling -/

/-- Mends flaws until the model has none: obsoletes, then conflicts, then requirements. -/
def settle (s : Scope) : Nat → Model → Search Model
  | 0, _ => throw .unfinished
  | steps + 1, m => do
    if let some m ← s.applyObsoletes m then s.settle steps m
    else if let some m ← s.resolveConflicts m then s.settle steps m
    else if let some m ← s.repairRequires (s.settle steps) m then s.settle steps m
    else return m

/-- More steps than there are slots to decide. -/
def steps (s : Scope) : Nat := s.installed.size + s.choices.length + 1

/-! ## Recommendations -/

/-- What changed packages recommend and the model does not offer. -/
def missingRecommends (s : Scope) (m : Model) : List Need :=
  (s.changed m).flatMap fun p =>
    ((s.metadataOf p).recommends.filter fun r => !s.satisfied m.packages r).map fun r => ⟨p, r⟩

/-- Follows the first recommendation that can be followed. -/
def followOne (s : Scope) (settle : Model → Search Model) (m : Model) :
    List Need → Search (Option Model)
  | [] => pure none
  | need :: rest =>
    Search.orElse
      (do
        let (p, settled) ← Search.firstSuccess (s.attempt settle m .weakDependency) none
          (s.providers m need.requirement)
        Search.debug s!"{p.nevra} recommended by {need.package.nevra}"
        return some settled)
      fun _ => do
        Search.debug
          s!"Weak dependency '{need.requirement.text}' of {need.package.nevra} skipped"
        s.followOne settle m rest

/-- Follows recommendations as long as one can be followed. -/
def followRecommends (s : Scope) (settle : Model → Search Model) : Nat → Model → Search Model
  | 0, _ => throw .unfinished
  | steps + 1, m => do
    match ← s.followOne settle m (s.missingRecommends m) with
    | some m => s.followRecommends settle steps m
    | none => return m

end Scope

end Provision.Solver
