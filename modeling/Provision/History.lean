import Provision.History.Tables
import Provision.Log

/-!
# The history of transactions

The store keeps one record for each finished transaction and never changes it. A record is split
over the tables when it is kept and put together again when it is read. A number is kept as a signed
one of 64 bits, so that numbers from `2 ^ 63` on come before all others.
-/

namespace Provision.History

/-- The signed reading of a number of 64 bits. -/
def signed (n : Nat) : Int := Int.bmod n UInt64.size

/-- The number of 64 bits with that signed reading. -/
def unsigned (i : Int) : Nat := (i % UInt64.size).toNat

/-- Why a record is refused or cannot be read. -/
inductive Error
  | notFinished (id : Nat) (state : State)
  | alreadyRecorded (id : Nat)
  | refused (reason : Violation)
  /-- The text in the given column says nothing. -/
  | unreadable (column : Nat) (reason : String)
  deriving DecidableEq, Repr

/-- What is wrong with the text in a column. -/
def columnDetail (column : Nat) (reason : String) : String :=
  s!"Conversion error from type Text at index: {column}, {reason}"

def Error.message : Error → String
  | notFinished id state =>
    s!"Invalid history record: transaction {id} is {state.text}, " ++
      "only finished transactions are recorded"
  | alreadyRecorded id => s!"Invalid history record: transaction {id} is already recorded"
  | refused reason => "Database error: " ++ reason.message
  | unreadable column reason => "Database error: " ++ columnDetail column reason

/-! ## Reading rows -/

/-- What the text in a column was read as. -/
def readColumn {ε α : Type} (column : Nat) (message : ε → String) (reading : Except ε α) :
    Except Error α :=
  reading.mapError fun e => .unreadable column (message e)

def RowItem.toItem (i : RowItem) : Except Error RecordItem := do
  let evr ← readColumn 2 ParseError.message (Evr.parse i.evr)
  let action ← readColumn 4 UnknownWord.message (Action.parse i.action)
  let reason ← readColumn 5 UnknownWord.message (Reason.parse i.reason)
  let result ← readColumn 6 UnknownWord.message (Result.parse i.result)
  let previous ← i.previousEvr.mapM fun text =>
    readColumn 7 ParseError.message (Evr.parse text)
  return {
    build := ⟨i.name, i.arch, evr⟩
    repo := i.repo
    action := action
    reason := reason
    result := result
    previousEvr := previous
    cause := i.cause }

/-- The record of a row, still without its items. -/
def Row.toHeader (key : Int) (row : Row) : Except Error Record := do
  let state ← readColumn 3 UnknownWord.message (State.parse row.state)
  return ⟨unsigned key, row.startEpoch, row.endEpoch, state, []⟩

/-! ## The store -/

/-- The starts of transactions from `start` on and before `stop`; a missing bound is none. -/
structure TimeRange where
  start : Option Int := none
  stop : Option Int := none
  deriving DecidableEq, Repr

def TimeRange.Contains (range : TimeRange) (time : Int) : Prop :=
  (∀ start ∈ range.start, start ≤ time) ∧ (∀ stop ∈ range.stop, time < stop)

instance (range : TimeRange) (time : Int) : Decidable (range.Contains time) :=
  decidable_of_iff (range.start.all (· ≤ time) ∧ range.stop.all (time < ·)) <| by
    simp [TimeRange.Contains, Option.all_eq_true]

namespace Store

/-- Adds a record of a finished transaction whose number is not taken. -/
def record (store : Store) (r : Record) : Traced (Except Error Store) :=
  if !r.state.isFinal then return .error (.notFinished r.id r.state)
  else if store.rows.contains (signed r.id) then return .error (.alreadyRecorded r.id)
  else match store.write (signed r.id) (.ofRecord r) (r.items.map .ofItem) with
    | .error reason => return .error (.refused reason)
    | .ok store => do
      Traced.debug s!"Recorded transaction {r.id} ({r.state.text}, {r.items.length} items)"
      return .ok store

/-- Puts the items that are kept for a header into it. -/
def withItems (store : Store) (header : Record) : Except Error Record := do
  return { header with items := ← (store.itemsOf (signed header.id)).mapM RowItem.toItem }

def get (store : Store) (id : Nat) : Except Error (Option Record) := do
  let header ← (store.rows[signed id]?).mapM (Row.toHeader (signed id))
  header.mapM store.withItems

/-- The records of the rows, in the order given. -/
def readAll (store : Store) (rows : List (Int × Row)) : Except Error (List Record) := do
  let headers ← rows.mapM fun row => row.2.toHeader row.1
  headers.mapM store.withItems

/-- The records that started within the range, by number. -/
def query (store : Store) (range : TimeRange) : Except Error (List Record) :=
  store.readAll (store.rows.toList.filter fun row => range.Contains row.2.startEpoch)

/-- The last records, the newest first: at most `limit` of them, or all if it is negative. -/
def recent (store : Store) (limit : Int) : Except Error (List Record) :=
  let newest := store.rows.toList.reverse
  store.readAll (if limit < 0 then newest else newest.take limit.toNat)

/-- The largest number that is taken. -/
def lastId (store : Store) : Option Nat := store.rows.maxKey?.map unsigned

/-- The version of the layout in which rows are kept. -/
def layoutVersion : Nat := 2

/-- What the log says when a store is opened that is kept in the layout of a version. -/
def announce (version : Nat) : Traced Unit := do
  Traced.debug s!"History schema version: {version}"
  ((List.range layoutVersion).drop version).forM fun v =>
    Traced.info s!"Applying history migration to version {v + 1}"

/-- Opens what is kept at a place, or a new store if there is nothing. -/
def openAt (place : String) (kept : Option Store) : Traced Store := do
  announce (if kept.isSome then layoutVersion else 0)
  Traced.info s!"Opened history database at {place}"
  return kept.getD {}

end Store

end Provision.History
