import Std.Data.TreeMap
import Provision.History.Record

/-!
# The tables of the history

One table has a row for each transaction, kept under its number. A second one has a row for each
item, kept under the number of its transaction and its position there. Versions and words are texts.
The tables refuse a word that a column does not take, a key that is taken, and an item that belongs
to no transaction.
-/

namespace Provision.History

/-- What is kept of a transaction. -/
structure Row where
  startEpoch : Int
  endEpoch : Int
  state : String
  deriving DecidableEq, Repr

/-- Where an item is kept: under the number of its transaction and its position there. -/
structure Place where
  owner : Int
  position : Nat
  deriving DecidableEq, Repr

namespace Place

/-- Places are in order of their transactions, and within one in order of position. -/
instance : Ord Place := ⟨compareLex (compareOn Place.owner) (compareOn Place.position)⟩

instance : Std.TransOrd Place :=
  inferInstanceAs (Std.TransCmp (compareLex (compareOn Place.owner) (compareOn Place.position)))

theorem compare_eq_then (p q : Place) :
    compare p q = (compare p.owner q.owner).then (compare p.position q.position) := rfl

instance : Std.LawfulEqOrd Place where
  eq_of_compare {p q} h := by
    rw [compare_eq_then, Ordering.then_eq_eq, Std.compare_eq_iff_eq, Std.compare_eq_iff_eq] at h
    cases p
    cases q
    cases h.1
    cases h.2
    rfl

end Place

/-- What is kept of an item. -/
structure RowItem where
  name : String
  arch : String
  evr : String
  repo : String
  action : String
  reason : String
  result : String
  previousEvr : Option String
  cause : Option String
  deriving DecidableEq, Repr

def Row.ofRecord (r : Record) : Row := ⟨r.startEpoch, r.endEpoch, r.state.text⟩

def RowItem.ofItem (i : RecordItem) : RowItem where
  name := i.build.name
  arch := i.build.arch
  evr := i.build.evr.text
  repo := i.repo
  action := i.action.text
  reason := i.reason.text
  result := i.result.text
  previousEvr := i.previousEvr.map Evr.text
  cause := i.cause

/-- The words that a row takes for the state of a transaction. -/
def stateWords : List String := ["DONE", "FAILED", "CANCELED"]

/-- The words that a row takes for what happened to an item. -/
def resultWords : List String := ["APPLIED", "FAILED", "UNATTEMPTED"]

/-- Why the tables refuse a row. -/
inductive Violation
  /-- The column takes none but these words. -/
  | check (column : String) (words : List String)
  /-- There is a row with the same values in these columns. -/
  | unique (columns : List String)
  /-- The item belongs to no transaction. -/
  | foreignKey
  deriving DecidableEq, Repr

def Violation.message : Violation → String
  | check column words =>
    let choice := ", ".intercalate (words.map fun word => "'" ++ word ++ "'")
    s!"CHECK constraint failed: {column} IN ({choice})"
  | unique columns => "UNIQUE constraint failed: " ++ ", ".intercalate columns
  | foreignKey => "FOREIGN KEY constraint failed"

theorem owned_of_empty :
    ∀ place ∈ (∅ : Std.TreeMap Place RowItem), place.owner ∈ (∅ : Std.TreeMap Int Row) :=
  fun _ h => absurd h Std.TreeMap.not_mem_emptyc

/-- Both tables; every item belongs to a transaction that has a row. -/
structure Store where
  rows : Std.TreeMap Int Row := {}
  items : Std.TreeMap Place RowItem := {}
  owned : ∀ place ∈ items, place.owner ∈ rows := by exact Provision.History.owned_of_empty

namespace Store

/-- Adds the row of a transaction. -/
def insertRow (store : Store) (key : Int) (row : Row) : Except Violation Store :=
  if row.state ∉ stateWords then .error (.check "state" stateWords)
  else if key ∈ store.rows then .error (.unique ["transactions.id"])
  else .ok { store with
    rows := store.rows.insert key row
    owned := fun place h => Std.TreeMap.mem_insert.2 (.inr (store.owned place h)) }

/-- Adds the row of an item. -/
def insertItem (store : Store) (place : Place) (i : RowItem) : Except Violation Store :=
  if i.result ∉ resultWords then .error (.check "outcome" resultWords)
  else if place ∈ store.items then
    .error (.unique ["transaction_items.transaction_id", "transaction_items.position"])
  else if howner : place.owner ∈ store.rows then .ok { store with
    items := store.items.insert place i
    owned := fun p h => (Std.TreeMap.mem_insert.1 h).elim
      (fun heq => Std.LawfulEqOrd.eq_of_compare heq ▸ howner) (store.owned p) }
  else .error .foreignKey

/-- Adds the rows of items at the positions from `position` on. -/
def insertItems (key : Int) : Nat → List RowItem → Store → Except Violation Store
  | _, [], store => .ok store
  | position, i :: rest, store => do
    insertItems key (position + 1) rest (← store.insertItem ⟨key, position⟩ i)

/-- Adds the row of a transaction and those of its items, or none if one of them is refused. -/
def write (store : Store) (key : Int) (row : Row) (items : List RowItem) :
    Except Violation Store := do
  insertItems key 0 items (← store.insertRow key row)

/-- The rows of a transaction's items with their places, in order of position. -/
def entriesOf (store : Store) (key : Int) : List (Place × RowItem) :=
  store.items.toList.filter fun entry => entry.1.owner = key

def itemsOf (store : Store) (key : Int) : List RowItem := (store.entriesOf key).map Prod.snd

end Store

end Provision.History
