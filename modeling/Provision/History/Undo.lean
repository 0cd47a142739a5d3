import Provision.Goal
import Provision.History

/-!
# Undoing a transaction

A finished transaction is undone by a goal whose jobs reverse its items, last to first. What was
installed is removed, what was taken off is installed, an upgrade becomes a downgrade to the version
before, and the other way round. A build that has to come back must be offered still.
-/

namespace Provision.History

/-- Why a record cannot be undone. -/
inductive UndoError
  | notDone (id : Nat) (state : State)
  | noPreviousVersion (id : Nat) (build : Build)
  /-- No repository offers the build any more. -/
  | gone (build : Build)
  deriving DecidableEq, Repr

def UndoError.message : UndoError → String
  | notDone id state =>
    s!"Invalid history record: transaction {id} ended {state.text}, " ++
      "only DONE transactions can be undone"
  | noPreviousVersion id build =>
    s!"Invalid history record: transaction {id}: {build.nevra} has no previous version"
  | gone build => s!"History package unavailable: {build.nevra}"

/-- The preferred offer of the item's package at a version. -/
def offeredBuild (ix : Index) (i : RecordItem) (evr : Evr) : Except UndoError Package :=
  let offers := ix.query { Filter.ofName i.build.name .offered with arch := some i.build.arch }
  let copies := offers.filter fun p => p.name = i.build.name && p.evr = evr
  match sortByPreference (some i.repo) copies with
  | p :: _ => .ok p
  | [] => .error (.gone { i.build with evr := evr })

/-- The job that reverses one item of transaction `id`. -/
def reverseItem (ix : Index) (id : Nat) (i : RecordItem) : Except UndoError Goal.Job :=
  match i.action with
  | .install => .ok ⟨.remove, .exactly [i.package], {}⟩
  | .upgrade | .downgrade =>
    match i.previousEvr with
    | none => .error (.noPreviousVersion id i.build)
    | some evr => do
      let target ← offeredBuild ix i evr
      return ⟨if i.action = .upgrade then .downgrade else .upgrade, .exactly [target], {}⟩
  | .reinstall => do return ⟨.reinstall, .exactly [← offeredBuild ix i i.build.evr], {}⟩
  | .remove | .obsolete | .replaced => do
    return ⟨.install, .exactly [← offeredBuild ix i i.build.evr], { allowDowngrade := true }⟩

/-- The jobs that reverse items, in the order given. -/
def reverseItems (ix : Index) (id : Nat) :
    List RecordItem → Traced (Except UndoError (List Goal.Job))
  | [] => return .ok []
  | i :: rest =>
    match reverseItem ix id i with
    | .error e => return .error e
    | .ok job => do
      Traced.debug s!"Undo of transaction {id}: {job.text}"
      return (← reverseItems ix id rest).map (job :: ·)

/-- The goal that undoes what a record says was done. -/
def invert (r : Record) (ix : Index) (policy : Goal.Policy) :
    Traced (Except UndoError Goal) := do
  if r.state ≠ .done then return .error (.notDone r.id r.state)
  let jobs ← reverseItems ix r.id (r.items.reverse.filter fun i => i.result = .applied)
  return jobs.map fun jobs => ⟨jobs, policy⟩

end Provision.History
