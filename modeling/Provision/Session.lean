import Provision.Execution
import Provision.Goal
import Provision.Settings
import Provision.Universe.Document

/-!
# Sessions

A session is one run of the program. What it shares with other sessions is kept in three places: the
universe, the history and the lock. A session reads the universe and the history when it opens, and
from then on works on an index and a counter of its own. The steps are

1. `openOn` reads what is shared;
2. `resolve` turns a goal into a transaction with a number;
3. `start` takes the lock;
4. `run` applies the transaction to the index, records it and releases the lock;
5. `save` writes the index back as the universe.

Steps of several sessions may alternate in any way that the lock admits.
-/

namespace Provision

/-- What sessions share; a place may hold nothing yet. -/
structure Shared where
  /-- The document of the universe. -/
  document : Option String := none
  history : Option History.Store := none
  lock : Lock := {}

structure Session where
  settings : Settings
  index : Index
  ids : Counter := {}

/-- Why a session cannot open. -/
inductive OpenError
  | unreadable (place : String) (reason : Universe.Error)
  | exclude (reason : ExcludeError)
  deriving DecidableEq, Repr

namespace Session

/-- The index that the document at a place describes; without one it is empty. -/
def loadIndex (place : String) (document : Option String) :
    Traced (Except OpenError Index) :=
  match document with
  | none => do
    Traced.info s!"No universe at {place}, starting empty"
    return .ok {}
  | some text =>
    match Index.ofDocument text with
    | .error reason => return .error (.unreadable place reason)
    | .ok ix => do
      Traced.info s!"Loaded universe from {place} ({ix.installedEntries.length} installed)"
      return .ok ix

/-- The counter of a new session: its numbers are above all that are recorded. -/
def countFrom (store : History.Store) : Counter :=
  match store.lastId with
  | none => {}
  | some last => Counter.advancePast {} last

def openOn (settings : Settings) (shared : Shared) :
    Traced (Except OpenError (Session × Shared)) := do
  match ← loadIndex settings.universePath shared.document with
  | .error e => return .error e
  | .ok ix =>
    match ix.setExcludes settings.excludes with
    | .error reason => return .error (.exclude reason)
    | .ok ix =>
      let store ← History.Store.openAt settings.historyPath shared.history
      return .ok (⟨settings, ix, countFrom store⟩, { shared with history := some store })

/-- The history as it is now. -/
def store (shared : Shared) : History.Store := shared.history.getD {}

/-- Resolves a goal; a plan becomes a transaction. -/
def resolve (s : Session) (g : Goal) :
    Traced (Except Solver.Unfinished (Resolution × Option Transaction × Session)) := do
  match ← g.resolve s.index with
  | .error e => return .error e
  | .ok r =>
    let (t, ids) ← r.toTransaction s.ids
    return .ok (r, t, { s with ids := ids })

/-- Takes the lock for process `pid` and starts a transaction. -/
def start (s : Session) (shared : Shared) (t : Transaction) (pid : Nat) (now : Int) :
    Traced (Except StartError (Execution × Shared)) := do
  match ← Execution.start t shared.lock s.settings.lockPath s.settings.lockTimeout pid now with
  | .error e => return .error e
  | .ok (e, lock) => return .ok (e, { shared with lock := lock })

/-- Runs an execution on the index, with a record for the history, and releases the lock. -/
def run (s : Session) (shared : Shared) (e : Execution) (watch : Update → Traced Unit) (now : Int) :
    Traced (Report Index × Session × Shared) := do
  let report ← e.run Index.installer s.index watch (store shared) now
  let lock ← Lock.release s.settings.lockPath
  return (report, { s with index := report.outcome.state },
    { shared with history := some report.store, lock := lock })

/-- Writes the index where the universe is kept. -/
def save (s : Session) (shared : Shared) : Traced Shared := do
  Traced.debug s!"Saved universe to {s.settings.universePath}"
  return { shared with document := some s.index.toDocument }

end Session

end Provision
