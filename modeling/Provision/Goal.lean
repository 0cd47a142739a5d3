import Provision.Goal.Orphans
import Provision.Goal.Selection
import Provision.Plan

/-!
# Goals

A goal is a list of jobs with a policy. Resolving it against an index gives an ordered plan, or the
problems that stand in the way, never both; advisories may come with a plan. The steps:

1. select packages for each job;
2. search for a model that satisfies all of them;
3. refuse to remove protected packages;
4. take orphans along for the removals that clean up;
5. put the changes into order.
-/

namespace Provision

structure Goal where
  jobs : List Goal.Job := []
  policy : Goal.Policy := {}
  deriving Repr

inductive Resolution
  /-- A plan, with advisories that did not stand in its way. -/
  | solved (items : List Item) (advisories : List Problem)
  /-- Nothing can be done; at least one problem says why. -/
  | unsolved (problems : List Problem)
  deriving Repr

namespace Resolution

/-- The advisories of a plan, or the problems of a failure. -/
def problems : Resolution → List Problem
  | solved _ advisories => advisories
  | unsolved problems => problems

/-- The transaction of a plan takes a number; a failure takes none. -/
def toTransaction (r : Resolution) (ids : Counter) : Traced (Option Transaction × Counter) :=
  match r with
  | unsolved _ => return (none, ids)
  | solved items _ => do
    let (t, ids) ← Transaction.ofItems items ids
    return (some t, ids)

end Resolution

namespace Goal

/-- The removal of a protected package, with the job that led to it. -/
def protectedProblem (g : Goal) (c : Change) : Problem :=
  let cause :=
    match c.job.bind fun n => (g.jobs[n]?).map (n, ·) with
    | some (n, job) => s!" (job {n + 1}: {job.text})"
    | none => ""
  ⟨.protectedPackage, [c.package],
    "The operation would result in removing the following protected packages: " ++
      c.package.name ++ cause⟩

def protectedProblems (g : Goal) (changes : List Change) : List Problem :=
  (changes.filter fun c =>
    c.action.isRemoval && g.policy.protectedNames.contains c.package.name).map g.protectedProblem

/-- The numbers of the removals that clean up. -/
def cleaningJobs (g : Goal) : List Nat :=
  (g.jobs.zipIdx.filter fun j => j.1.verb = .remove && j.1.flags.cleanDeps).map Prod.snd

/-- Orders the changes that the search and the sweeps found. -/
def planChanges (ix : Index) (changes : List Change) (advisories : List Problem) :
    Traced Resolution := do
  if changes.isEmpty && !advisories.isEmpty then return .unsolved advisories
  match ← Plan.ofChanges ix changes with
  | .ok plan => return .solved plan.items (advisories ++ plan.warnings)
  | .error problem => return .unsolved (problem :: advisories)

def resolve (g : Goal) (ix : Index) : Traced (Except Solver.Unfinished Resolution) := do
  Traced.debug s!"Resolving goal with {g.jobs.length} jobs"
  let selection ← selectAll ix g.policy g.jobs
  match ← Solver.solve ix g.policy.solver selection.requests with
  | .error e => return .error e
  | .ok outcome =>
    let problems := Problem.insertAll (Problem.insertAll selection.problems outcome.problems)
      (g.protectedProblems outcome.changes)
    if problems.isEmpty then
      let changes ← sweepAll ix g.policy.protectedNames outcome.changes g.cleaningJobs
      return .ok (← planChanges ix changes selection.advisories)
    else
      Traced.debug s!"Goal has {problems.length} blocking problems"
      return .ok (.unsolved (problems ++ selection.advisories))

end Goal

end Provision
