import Provision.Solver.Search

/-!
# Solving requests

A request is a list of jobs that name concrete packages. The jobs are worked on in turn, each on the
model that the one before it left; a job that fails leaves the model as it was. The outcome lists
the changes that lead to the last model and the problems of the jobs that failed.
-/

namespace Provision.Solver

/-- What a job asks of the model. -/
inductive Task
  /-- One of the candidates is to be present; they are tried in order. -/
  | install (candidates : List Package)
  /-- An installed build is to be put in place once more. -/
  | reinstall (package : Package)
  /-- The targets are to go, and with them everything that requires them. -/
  | remove (targets : List Package)
  deriving Repr

structure Request where
  /-- The number of the job in its goal. -/
  job : Nat
  task : Task
  /-- The request is skipped if it cannot be met. -/
  weak : Bool := false
  deriving Repr

structure Outcome where
  changes : List Change
  problems : List Problem
  deriving Repr

/-- The search used up its steps; see `Search`. -/
structure Unfinished where
  deriving DecidableEq, Repr

namespace Scope

/-- The first candidate that can be present, with what it needs and recommends. -/
def install (s : Scope) (m : Model) (rejected : List Problem) : List Package → Search Model
  | [] => Search.refuse rejected
  | candidate :: rest =>
    Search.orElse
      (do
        let settled ← s.attempt (s.settle s.steps) m .user candidate
        s.followRecommends (s.settle s.steps) s.steps settled)
      fun found => do
        Search.debug s!"Candidate {candidate.nevra} rejected"
        s.install m (Problem.insertAll rejected found) rest

def reinstall (s : Scope) (m : Model) (p : Package) : Search Model :=
  if m.isDecided p.slot then
    Search.refuse [⟨.conflicts, [p],
      s!"cannot reinstall {p.nevra}: it is changed by another job"⟩]
  else
    let m := { m with present := m.present.insert p.slot p }
    s.settle s.steps (m.decide p.slot ⟨.user, s.job, .reinstalled⟩)

/-- Erases the targets that are present, whether their slots were decided before or not. -/
def eraseTargets (s : Scope) (m : Model) (targets : List Package) : Model :=
  targets.foldl
    (fun m target =>
      if (m.present[target.slot]?).any fun p => p.build = target.build then
        s.erase m target.slot .user
      else m)
    m

def remove (s : Scope) (m : Model) (targets : List Package) : Search Model := do
  let settled ← s.settle s.steps (s.eraseTargets { m with erasesDependents := true } targets)
  return { settled with erasesDependents := false }

def perform (s : Scope) (m : Model) : Task → Search Model
  | .install candidates => s.install m [] candidates
  | .reinstall package => s.reinstall m package
  | .remove targets => s.remove m targets

/-- Works on the requests in turn, from a model and the problems found before. -/
def performAll (s : Scope) (m : Model) (problems : List Problem) :
    List Request → Traced (Except Unfinished (Model × List Problem))
  | [] => pure (.ok (m, problems))
  | request :: rest => do
    let s := { s with job := request.job }
    match ← ExceptT.run (s.perform m request.task) with
    | Except.ok m => s.performAll m problems rest
    | Except.error Refusal.unfinished => pure (.error ⟨⟩)
    | Except.error (Refusal.problems found) =>
      if request.weak then
        found.forM fun problem =>
          Traced.debug s!"Skipping weak job {request.job}: {problem.text}"
        s.performAll m problems rest
      else s.performAll m (Problem.insertAll problems found) rest

/-- The model in which nothing is decided. -/
def start (s : Scope) : Model := { present := s.installed }

end Scope

/-- Solves the requests against an index. -/
def solve (ix : Index) (policy : Policy) (requests : List Request) :
    Traced (Except Unfinished Outcome) := do
  let s := Scope.ofIndex ix policy
  match ← s.performAll s.start [] requests with
  | .ok (m, problems) => return .ok ⟨s.changes m, problems⟩
  | .error e => return .error e

end Provision.Solver
