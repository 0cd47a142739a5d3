import Provision.Change
import Provision.Text.Column

/-!
# Transactions

A transaction is an ordered list of items with a number and a state. States only move forward:

    CREATED → STARTED → IN_PROGRESS → DONE or FAILED
    CREATED → CANCELED

Numbers come from a counter that never gives out one twice until it has gone through all of them.
-/

namespace Provision

inductive State
  | created
  | started
  | inProgress
  | done
  | failed
  | canceled
  deriving DecidableEq, Repr, Inhabited

namespace State

def all : List State := [created, started, inProgress, done, failed, canceled]

def text : State → String
  | created => "CREATED"
  | started => "STARTED"
  | inProgress => "IN_PROGRESS"
  | done => "DONE"
  | failed => "FAILED"
  | canceled => "CANCELED"

def parse : String → Except UnknownWord State := readWord "transaction state" all text

def isFinal : State → Bool
  | done | failed | canceled => true
  | created | started | inProgress => false

/-- One step forward. -/
def canAdvanceTo : State → State → Bool
  | created, started | created, canceled => true
  | started, inProgress => true
  | inProgress, done | inProgress, failed => true
  | _, _ => false

end State

/-- One package of a transaction, at its place in the order. -/
structure Item where
  package : Package
  action : Action
  reason : Reason
  position : Nat
  replaces : Option Package := none
  replacedBy : Option Package := none
  deriving DecidableEq, Repr

namespace Item

def ofChange (position : Nat) (c : Change) : Item where
  package := c.package
  action := c.action
  reason := c.reason
  position := position
  replaces := c.replaces
  replacedBy := c.replacedBy

/-- The version before, if it was another one. -/
def previousEvr (i : Item) : Option Evr :=
  (i.replaces.map Package.evr).filter fun evr => evr ≠ i.package.evr

def text (i : Item) : String :=
  i.action.text ++ " " ++ i.package.nevra ++
    (match i.previousEvr with
    | none => ""
    | some evr => " (from " ++ evr.text ++ ")")

end Item

/-- A step that the state of a transaction does not allow. -/
inductive Misuse
  | invalidTransition (before after : State)
  | alreadyFinished (id : Nat) (state : State)
  | notCreated (id : Nat) (state : State)
  deriving DecidableEq, Repr

def Misuse.detail : Misuse → String
  | invalidTransition before after =>
    s!"invalid transaction state transition {before.text} -> {after.text}"
  | alreadyFinished id state => s!"transaction {id} already finished as {state.text}"
  | notCreated id state => s!"transaction {id} cannot start from state {state.text}"

def Misuse.message (m : Misuse) : String := "Contract violation: " ++ m.detail

structure Transaction where
  id : Nat
  state : State
  items : List Item
  deriving DecidableEq, Repr

namespace Transaction

/-- The first item about a package of that name. -/
def find? (t : Transaction) (name : String) : Option Item :=
  t.items.find? fun i => i.package.name = name

def advance (t : Transaction) (next : State) : Except Misuse Transaction :=
  if t.state.isFinal then .error (.alreadyFinished t.id t.state)
  else if next = .started ∧ t.state ≠ .created then .error (.notCreated t.id t.state)
  else if t.state.canAdvanceTo next then .ok { t with state := next }
  else .error (.invalidTransition t.state next)

/-- Gives the transaction up before it starts. -/
def cancel (t : Transaction) : Except Misuse Transaction := t.advance .canceled

def text (t : Transaction) : String :=
  s!"Transaction {t.id} [{t.state.text}]\n" ++
    String.join (t.items.map fun i =>
      s!"  {Text.padLeft 3 (toString i.position)}. {i.text} ({i.reason.text})\n")

end Transaction

/-- The number that the next transaction gets. -/
structure Counter where
  next : Nat := 1
  deriving DecidableEq, Repr

namespace Counter

/-- The next number; the counter goes round after the largest number of 64 bits. -/
def take (c : Counter) : Nat × Counter := (c.next, ⟨(c.next + 1) % UInt64.size⟩)

/-- From now on numbers are above `last`. -/
def advancePast (c : Counter) (last : Nat) : Counter :=
  ⟨max c.next (min (last + 1) (UInt64.size - 1))⟩

end Counter

end Provision
