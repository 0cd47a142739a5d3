import Provision.Goal.Job
import Provision.Solver

/-!
# Selecting candidates

Selection turns the jobs of a goal into requests that name concrete packages. What a pattern selects
is looked up here, excluded offers are sorted out, and jobs that ask for what is there already
become advisories.
-/

namespace Provision.Goal

/-- Names that are never removed, and the knobs of the search. -/
structure Policy where
  protectedNames : List String := []
  best : Bool := false
  allowErasing : Bool := false
  deriving DecidableEq, Repr

def Policy.solver (p : Policy) : Solver.Policy := ⟨p.allowErasing, p.best⟩

/-- One result of selecting a job. -/
inductive Finding
  | request (request : Solver.Request)
  | problem (problem : Problem)
  | advisory (problem : Problem)
  deriving Repr

/-- The packages that a target means; offers that are hidden stand apart. -/
structure Matches where
  visible : List Package
  excluded : List Package
  deriving Repr

/-- All packages of a build, in every repository. -/
def copiesOf (ix : Index) (p : Package) : List Package :=
  (ix.query { Filter.ofPattern p.name with arch := some p.arch, withExcluded := true }).filter
    fun q => q.build = p.build

def lookUp (ix : Index) (target : Target) : Matches :=
  let found :=
    match target with
    | .pattern text => ix.query { Filter.ofPattern text with withExcluded := true }
    | .exactly packages => packages.flatMap (copiesOf ix)
  let hidden (p : Package) : Bool := ix.isExcluded p.build && !ix.isInstalled p.build
  ⟨found.filter fun p => !hidden p, found.filter hidden⟩

/-- The preferred copy of a build among the visible offers. -/
def offeredCopy? (ix : Index) (p : Package) (origin : String) : Option Package :=
  (sortByPreference (some origin) <|
    (ix.query { Filter.ofName p.name .offered with arch := some p.arch }).filter
      fun q => q.build = p.build).head?

/-- The number of a job in its goal, with the job. -/
structure Numbered where
  number : Nat
  job : Job
  deriving Repr

namespace Numbered

def request (n : Numbered) (task : Solver.Task) : List Finding :=
  [.request ⟨n.number, task, n.job.flags.weak⟩]

def advise (kind : ProblemKind) (p : Package) (message : String) : List Finding :=
  [.advisory ⟨kind, [p], message⟩]

/-- The job cannot be met; a weak job only says so in the log. -/
def fail (n : Numbered) (problem : Problem) : Traced (List Finding) :=
  if n.job.flags.weak then do
    Traced.debug s!"Skipping weak job '{n.job.text}': {problem.text}"
    return []
  else return [.problem problem]

def failUnmatched (n : Numbered) (found : Matches) : Traced (List Finding) :=
  n.fail <|
    if found.excluded.isEmpty then
      ⟨.notFound, [], s!"No match for argument: {n.job.target.text}"⟩
    else
      ⟨.excluded, found.excluded,
        s!"All matches for argument '{n.job.target.text}' are excluded by configuration"⟩

def failNotOffered (n : Numbered) (p : Package) : Traced (List Finding) :=
  n.fail ⟨.notFound, [p], s!"Installed package {p.nevra} not available."⟩

/-- With the policy `best` only the first candidate counts. -/
def requestAmong (n : Numbered) (policy : Policy) (candidates : List Package) : List Finding :=
  n.request (.install (if policy.best then candidates.take 1 else candidates))

/-! ## Installation -/

/-- The installed packages whose slots the candidates belong to, each once. -/
def occupants (ix : Index) (candidates : List Package) : List Package :=
  (candidates.filterMap fun p => ix.installedAt? p.slot).foldl
    (fun seen p => if seen.any fun q => q.build = p.build then seen else seen ++ [p]) []

/-- The candidate may go into its slot as far as its version is concerned. -/
def isEligible (ix : Index) (flags : Flags) (p : Package) : Bool :=
  match ix.installedAt? p.slot with
  | some old => flags.allowDowngrade || !p.evr.Older old.evr
  | none => true

/-- What is installed already is put in place once more if the job insists, and left otherwise. -/
def selectInstalled (n : Numbered) (ix : Index) (old : Package) : Traced (List Finding) :=
  if n.job.flags.force then
    match offeredCopy? ix old old.repo with
    | some copy => return n.request (.reinstall copy)
    | none => n.failNotOffered old
  else do
    Traced.debug s!"{old.nevra} already installed for '{old.name}'"
    return advise .alreadyInstalled old s!"Package {old.nevra} is already installed."

/-- Selects among the candidates of one name. -/
def selectName (n : Numbered) (ix : Index) (policy : Policy) (candidates : List Package) :
    Traced (List Finding) :=
  let occupants := occupants ix candidates
  let eligible := sortByPreference (occupants.head?.map Package.repo) <|
    candidates.filter (isEligible ix n.job.flags)
  match eligible with
  | [] =>
    match occupants with
    | [] => return []
    | old :: _ =>
      return advise .alreadyInstalled old
        s!"Package {old.nevra} of higher version already installed."
  | top :: _ =>
    match ix.installedEntry? top.build with
    | some entry => n.selectInstalled ix entry.package
    | none => return n.requestAmong policy eligible

/-- The names of the packages, sorted, each once. -/
def namesOf (packages : List Package) : List String :=
  dropRepeats (· == ·) ((packages.map Package.name).mergeSort fun a b => (compare a b).isLE)

def selectInstall (n : Numbered) (ix : Index) (policy : Policy) (visible : List Package) :
    Traced (List Finding) := do
  let findings ← (namesOf visible).mapM fun name =>
    n.selectName ix policy (visible.filter fun p => p.name = name)
  return findings.flatten

/-! ## Removal -/

def removalTargets (ix : Index) : Target → List Package
  | .pattern text => ix.query { Filter.ofPattern text with side := some .installed }
  | .exactly packages =>
    packages.filterMap fun p => (ix.installedEntry? p.build).map Entry.package

def selectRemove (n : Numbered) (ix : Index) : Traced (List Finding) :=
  match removalTargets ix n.job.target with
  | [] => n.fail ⟨.notFound, [], s!"No packages to remove for argument: {n.job.target.text}"⟩
  | targets => return n.request (.remove targets)

/-! ## Upgrade, downgrade, reinstallation and synchronisation -/

/-- A build of one architecture may take the place of the other. -/
def ArchCompatible (p q : Package) : Prop :=
  p.arch = q.arch ∨ p.arch = "noarch" ∨ q.arch = "noarch"

instance (p q : Package) : Decidable (ArchCompatible p q) := inferInstanceAs (Decidable (_ ∨ _))

/-- The visible offers that could take the place of an installed package, by preference. -/
def offersFor (ix : Index) (visible : List Package) (old : Package) : List Package :=
  sortByPreference (some old.repo) <|
    (ix.query (Filter.ofName old.name .offered)).filter fun p =>
      p.name = old.name && ArchCompatible p old && visible.any fun v => v.SameOffer p

def selectFor (n : Numbered) (ix : Index) (policy : Policy) (visible : List Package)
    (old : Package) : Traced (List Finding) :=
  let offers := offersFor ix visible old
  match n.job.verb with
  | .upgrade =>
    match offers.filter fun p => old.evr.Older p.evr with
    | [] => do
      Traced.debug s!"No upgrade available for {old.nevra}"
      return []
    | candidates => return n.requestAmong policy candidates
  | .downgrade =>
    match offers.filter fun p => p.evr.Older old.evr with
    | [] =>
      return advise .alreadyInstalled old
        s!"Package {old.nevra} of lowest version already installed, cannot downgrade it."
    | candidates => return n.requestAmong policy candidates
  | .reinstall =>
    match offers.find? fun p => p.build = old.build with
    | some copy => return n.request (.reinstall copy)
    | none => n.failNotOffered old
  | .distroSync =>
    match offers with
    | top :: _ =>
      if top.build = old.build then do
        Traced.debug s!"{old.nevra} already in sync"
        return []
      else return n.request (.install [top])
    | [] => do
      Traced.debug s!"{old.nevra} already in sync"
      return []
  | .install | .remove => return []

/-- The installed packages of a name. -/
def installedOfName (ix : Index) (name : String) : List Package :=
  (ix.query (Filter.ofName name .installed)).filter fun p => p.name = name

def selectSlots (n : Numbered) (ix : Index) (policy : Policy) (visible : List Package) :
    Traced (List Finding) :=
  match (namesOf visible).flatMap (installedOfName ix) with
  | [] =>
    let name := (visible.head?.map Package.name).getD ""
    n.fail ⟨.notFound, [], s!"Package {name} available, but not installed."⟩
  | installed => do
    let findings ← installed.mapM (n.selectFor ix policy visible)
    return findings.flatten

/-! ## All jobs -/

def select (ix : Index) (policy : Policy) (n : Numbered) : Traced (List Finding) :=
  if n.job.verb = .remove then n.selectRemove ix
  else
    let found := lookUp ix n.job.target
    if found.visible.isEmpty then n.failUnmatched found
    else if n.job.verb = .install then n.selectInstall ix policy found.visible
    else n.selectSlots ix policy found.visible

end Numbered

structure Selection where
  requests : List Solver.Request
  problems : List Problem
  advisories : List Problem
  deriving Repr

def Finding.request? : Finding → Option Solver.Request
  | request r => some r
  | _ => none

def Finding.problem? : Finding → Option Problem
  | problem p => some p
  | _ => none

def Finding.advisory? : Finding → Option Problem
  | advisory p => some p
  | _ => none

def Selection.ofFindings (findings : List Finding) : Selection where
  requests := findings.filterMap Finding.request?
  problems := Problem.insertAll [] (findings.filterMap Finding.problem?)
  advisories := Problem.insertAll [] (findings.filterMap Finding.advisory?)

/-- Selects the jobs in turn; jobs are numbered from zero. -/
def selectAll (ix : Index) (policy : Policy) (jobs : List Job) : Traced Selection := do
  let findings ← jobs.zipIdx.mapM fun j => Numbered.select ix policy ⟨j.2, j.1⟩
  return .ofFindings findings.flatten

end Provision.Goal
