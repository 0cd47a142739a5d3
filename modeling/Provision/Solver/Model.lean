import Provision.Change
import Provision.Index.Query
import Provision.Problem

/-!
# Models of the system after a transaction

A model says for each slot which package will be present. A slot is open until a step decides it;
from then on nothing but a job that removes its package changes it. An open slot holds what is
installed.

`Scope.place` and `Scope.erase` decide a slot. `Scope.changes` compares a model with what is
installed.
-/

namespace Provision.Solver

/-- Knobs of the search. -/
structure Policy where
  /-- Installed packages may be erased to settle conflicts and broken requirements. -/
  allowErasing : Bool := false
  /-- Of several providers only the preferred one counts. -/
  best : Bool := false
  deriving DecidableEq, Repr

/-- What became of a slot besides the package that it holds. -/
inductive Fate
  | plain
  | reinstalled
  | obsoletedBy (package : Package)
  | replacedBy (package : Package)
  deriving DecidableEq, Repr

/-- Why and for which job a slot was decided. -/
structure Decision where
  reason : Reason
  job : Nat
  fate : Fate := .plain
  deriving DecidableEq, Repr

structure Model where
  present : Std.TreeMap Slot Package := {}
  decided : Std.TreeMap Slot Decision := {}
  /-- Installed packages whose requirements break are erased rather than repaired. -/
  erasesDependents : Bool := false

namespace Model

def isDecided (m : Model) (slot : Slot) : Bool := m.decided.contains slot

/-- The packages of the model, by slot. -/
def packages (m : Model) : List Package := m.present.values

def isReinstalled (m : Model) (slot : Slot) : Bool :=
  (m.decided[slot]?).any fun decision => decision.fate = .reinstalled

/--
Decides a slot. A slot that was decided before keeps its job and its fate, and its reason too unless
the new one is that the user asks.
-/
def decide (m : Model) (slot : Slot) (decision : Decision) : Model :=
  match m.decided[slot]? with
  | none => { m with decided := m.decided.insert slot decision }
  | some old =>
    if decision.reason = .user then
      { m with decided := m.decided.insert slot { old with reason := .user } }
    else m

end Model

/-- What stays fixed while one job is worked on. -/
structure Scope where
  index : Index
  policy : Policy
  /-- What is installed, by slot. -/
  installed : Std.TreeMap Slot Package
  /-- Every package that may be chosen. -/
  choices : List Package
  job : Nat := 0

namespace Scope

def ofIndex (index : Index) (policy : Policy) : Scope where
  index := index
  policy := policy
  installed := index.installed.map fun _ entry => entry.package
  choices := index.query {}

/-- The slot is not just what is installed, left alone. -/
def isChanged (s : Scope) (m : Model) (slot : Slot) : Bool :=
  match m.present[slot]?, s.installed[slot]? with
  | some package, some old => package.build ≠ old.build || m.isReinstalled slot
  | _, _ => true

/-- The packages that the model brings in or reinstalls, by slot. -/
def changed (s : Scope) (m : Model) : List Package :=
  m.packages.filter fun p => s.isChanged m p.slot

/-- One of the packages offers what the requirement asks for. -/
def satisfied (s : Scope) (packages : List Package) (r : Requirement) : Bool :=
  packages.any fun p => s.index.meets p r

/-- A `noarch` build and a build for an architecture exclude each other under one name. -/
def Displaces (slot other : Slot) : Prop :=
  other.name = slot.name ∧ other.arch ≠ slot.arch ∧ (other.arch = "noarch" ∨ slot.arch = "noarch")

instance (slot other : Slot) : Decidable (Displaces slot other) :=
  inferInstanceAs (Decidable (_ ∧ _ ∧ _))

def cannotInstallBoth (current wanted : Package) : Problem :=
  ⟨.conflicts, [current, wanted], s!"cannot install both {current.nevra} and {wanted.nevra}"⟩

/-- Takes a package off to make room for another one of its name. -/
def displace (s : Scope) (wanted : Package) (m : Model) (p : Package) : Model :=
  { m with present := m.present.erase p.slot }.decide p.slot
    ⟨.dependency, s.job, .replacedBy wanted⟩

/-- Puts a package into a slot that is open, together with everything that it displaces. -/
def enter (s : Scope) (m : Model) (p : Package) (reason : Reason) : Except (List Problem) Model :=
  let displaced := m.packages.filter fun other => Displaces p.slot other.slot
  match displaced.find? fun other => m.isDecided other.slot with
  | some other => .error [cannotInstallBoth other p]
  | none =>
    let m := displaced.foldl (s.displace p) m
    .ok ({ m with present := m.present.insert p.slot p }.decide p.slot ⟨reason, s.job, .plain⟩)

/-- Makes the package present. Fails if its slot was decided otherwise. -/
def place (s : Scope) (m : Model) (p : Package) (reason : Reason) : Except (List Problem) Model :=
  match m.present[p.slot]? with
  | some current =>
    if current.build = p.build then
      .ok (if m.isDecided p.slot then m else m.decide p.slot ⟨reason, s.job, .plain⟩)
    else if m.isDecided p.slot then .error [cannotInstallBoth current p]
    else s.enter m p reason
  | none =>
    if m.isDecided p.slot then
      .error [⟨.conflicts, [p], s!"{p.name} is being removed by this transaction"⟩]
    else s.enter m p reason

/-- Empties a slot. -/
def erase (s : Scope) (m : Model) (slot : Slot) (reason : Reason) : Model :=
  { m with present := m.present.erase slot }.decide slot ⟨reason, s.job, .plain⟩

/-- The change that a present package means, unless its slot was left alone. -/
def inbound? (s : Scope) (m : Model) (p : Package) : Option Change :=
  let decision := m.decided[p.slot]?
  let change (action : Action) : Change :=
    { package := p
      action := action
      reason := (decision.map Decision.reason).getD .dependency
      replaces := s.installed[p.slot]?
      job := decision.map Decision.job }
  match s.installed[p.slot]? with
  | none => some (change .install)
  | some old =>
    if old.build = p.build then
      if m.isReinstalled p.slot then some (change .reinstall) else none
    else if old.evr.Older p.evr then some (change .upgrade)
    else some (change .downgrade)

/-- The change that a missing package means, unless its slot is still taken. -/
def removal? (m : Model) (old : Package) : Option Change :=
  if m.present.contains old.slot then none
  else
    let decision := m.decided[old.slot]?
    let change (action : Action) (cause : Option Package) : Change :=
      { package := old
        action := action
        reason := (decision.map Decision.reason).getD .dependency
        replacedBy := cause
        job := decision.map Decision.job }
    match decision.map Decision.fate with
    | some (.obsoletedBy p) => some (change .obsolete (some p))
    | some (.replacedBy p) => some (change .replaced (some p))
    | _ => some (change .remove none)

/-- What has to happen to get from what is installed to the model. -/
def changes (s : Scope) (m : Model) : List Change :=
  m.packages.filterMap (s.inbound? m) ++ s.installed.values.filterMap (removal? m)

end Scope

end Provision.Solver
