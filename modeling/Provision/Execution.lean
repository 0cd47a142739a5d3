import Provision.History
import Provision.Index.Apply
import Provision.Lock

/-!
# Executing a transaction

An execution holds the lock from its start to its end. It applies the items in order and stops at
the first one that fails: earlier items stay applied, later ones are not attempted. Either way a
record is written before the lock is released. That the record cannot be written is part of the
report and no reason to fail, since by then the items have been applied.
-/

namespace Provision

/-- Where an item is on its way. -/
inductive Phase
  | starting
  | applied
  | failed
  deriving DecidableEq, Repr

def Phase.text : Phase → String
  | starting => "starting"
  | applied => "applied"
  | failed => "failed"

/-- News about one item, with the share of the whole transaction that is done. -/
structure Update where
  item : Item
  phase : Phase
  percent : Nat
  deriving DecidableEq, Repr

namespace Update

/-- The line about an update in the log. -/
def log (u : Update) : Traced Unit :=
  let share := s!"[{Text.padLeft 3 (toString u.percent)}%] "
  match u.phase with
  | .starting => Traced.info (share ++ s!"{u.item.action.label} {u.item.package.nevra}")
  | .applied => Traced.info (share ++ s!"{u.item.package.nevra} done")
  | .failed => Traced.warning (share ++ s!"{u.item.package.nevra} failed")

def ignore (_ : Update) : Traced Unit := return

end Update

/-- `done` of `total` items in percent; nothing to do is all done. -/
def percent (done total : Nat) : Nat := if total = 0 then 100 else done * 100 / total

/-- What became of the items of a transaction. -/
structure Outcome (σ : Type) where
  /-- The state that the installer was left in. -/
  state : σ
  items : List History.RecordItem
  updates : List Update
  /-- The item that failed, and why. -/
  failure : Option String

namespace Outcome

/-- The outcome with an item in front that was applied. -/
def afterApplied {σ : Type} (rest : Outcome σ) (i : Item) (before after : Nat) : Outcome σ :=
  { rest with
    items := .ofItem i .applied none :: rest.items
    updates := ⟨i, .starting, before⟩ :: ⟨i, .applied, after⟩ :: rest.updates }

/-- The outcome when the first item left fails. -/
def ofFault {σ : Type} (state : σ) (i : Item) (fault : Fault) (share : Nat) (rest : List Item) :
    Outcome σ where
  state := state
  items :=
    .ofItem i .failed (some fault.message) :: rest.map fun j => .ofItem j .unattempted none
  updates := [⟨i, .starting, share⟩, ⟨i, .failed, share⟩]
  failure := some s!"{i.package.nevra}: {fault.message}"

end Outcome

/-- Applies the items left, `done` of `total` having been applied before. -/
def Installer.applyAll {σ : Type} (installer : Installer σ) (watch : Update → Traced Unit)
    (total done : Nat) (state : σ) : List Item → Traced (Outcome σ)
  | [] => return ⟨state, [], [], none⟩
  | i :: rest => do
    let share := percent done total
    watch ⟨i, .starting, share⟩
    match ← installer.apply state i with
    | (state, .ok ()) => do
      watch ⟨i, .applied, percent (done + 1) total⟩
      let outcome ← installer.applyAll watch total (done + 1) state rest
      return outcome.afterApplied i share (percent (done + 1) total)
    | (state, .error fault) => do
      Traced.warning s!"{i.text} failed: {fault.message}"
      watch ⟨i, .failed, share⟩
      return .ofFault state i fault share rest

/-- A transaction under way. -/
structure Execution where
  transaction : Transaction
  startEpoch : Int
  deriving DecidableEq, Repr

/-- Why a transaction did not start. -/
inductive StartError
  | misuse (reason : Misuse)
  | locked (reason : Lock.Unavailable)
  deriving DecidableEq, Repr

/-- What a run comes to. -/
structure Report (σ : Type) where
  transaction : Transaction
  record : History.Record
  outcome : Outcome σ
  /-- Why the record was not written. -/
  historyError : Option History.Error
  /-- The history after the run. -/
  store : History.Store

namespace Execution

/-- Takes the lock for process `pid` and starts a transaction that was just created. -/
def start (t : Transaction) (lock : Lock) (place : String) (timeout pid : Nat) (now : Int) :
    Traced (Except StartError (Execution × Lock)) :=
  if t.state ≠ .created then return .error (.misuse (.notCreated t.id t.state))
  else do
    match ← lock.acquire place timeout pid with
    | .error e => return .error (.locked e)
    | .ok lock => do
      Traced.info s!"Transaction {t.id} started ({t.items.length} items)"
      return .ok (⟨{ t with state := .inProgress }, now⟩, lock)

/-- Gives the execution up. -/
def abandon (e : Execution) (place : String) : Traced Lock := do
  Traced.warning
    s!"Transaction {e.transaction.id} dropped while in progress; nothing was applied or recorded"
  Lock.release place

/-- The record of an execution that came to an outcome. -/
def recordOf {σ : Type} (e : Execution) (outcome : Outcome σ) (now : Int) : History.Record where
  id := e.transaction.id
  startEpoch := e.startEpoch
  endEpoch := now
  state := if outcome.failure.isSome then .failed else .done
  items := outcome.items

/-- The history with a record, or as it was with the reason why the record is refused. -/
def keepRecord (store : History.Store) (r : History.Record) :
    Traced (Option History.Error × History.Store) := do
  match ← store.record r with
  | .ok store => return (none, store)
  | .error e => do
    Traced.warning s!"Failed to record transaction {r.id}: {e.message}"
    return (some e, store)

/-- Applies the items and records what came of it; `now` is the time of its end. -/
def run {σ : Type} (e : Execution) (installer : Installer σ) (state : σ)
    (watch : Update → Traced Unit) (store : History.Store) (now : Int) :
    Traced (Report σ) := do
  let items := e.transaction.items
  let outcome ← installer.applyAll watch items.length 0 state items
  let record := e.recordOf outcome now
  let (historyError, store) ← keepRecord store record
  match outcome.failure with
  | some cause => Traced.warning s!"Transaction {record.id} failed: {cause}"
  | none => Traced.info s!"Transaction {record.id} done"
  return {
    transaction := { e.transaction with state := record.state }
    record := record
    outcome := outcome
    historyError := historyError
    store := store }

end Execution

/-- Every item was applied, whether or not that could be recorded. -/
def Report.isSuccess {σ : Type} (r : Report σ) : Bool := r.transaction.state = .done

end Provision
