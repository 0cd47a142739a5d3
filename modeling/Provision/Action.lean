import Provision.Word

/-!
# Actions and reasons

A transaction does one thing to each package that it names. Four actions bring a build onto the
system, the other three take one off. The reason says why the package is part of the transaction.
-/

namespace Provision

inductive Action
  | install
  | upgrade
  | downgrade
  | reinstall
  | remove
  /-- Taken off because a package of the transaction obsoletes it. -/
  | obsolete
  /-- Taken off because another build of the name takes its place. -/
  | replaced
  deriving DecidableEq, Repr, Inhabited

namespace Action

/-- Every action, in the order in which tables list them. -/
def all : List Action := [install, upgrade, downgrade, reinstall, remove, obsolete, replaced]

def text : Action → String
  | install => "INSTALL"
  | upgrade => "UPGRADE"
  | downgrade => "DOWNGRADE"
  | reinstall => "REINSTALL"
  | remove => "REMOVE"
  | obsolete => "OBSOLETE"
  | replaced => "REPLACED"

/-- What the action is called while it runs. -/
def label : Action → String
  | install => "Installing"
  | upgrade => "Upgrading"
  | downgrade => "Downgrading"
  | reinstall => "Reinstalling"
  | remove => "Removing"
  | obsolete => "Obsoleting"
  | replaced => "Replacing"

def parse : String → Except UnknownWord Action := readWord "transaction action" all text

/-- Of two actions that nothing else orders, the one of smaller rank comes first. -/
def rank : Action → Nat
  | install => 0
  | upgrade => 1
  | reinstall => 2
  | downgrade => 3
  | remove | obsolete | replaced => 4

/-- The action puts a build onto the system. -/
def isInbound : Action → Bool
  | install | upgrade | downgrade | reinstall => true
  | remove | obsolete | replaced => false

/-- The action takes a build off the system. -/
def isRemoval (a : Action) : Bool := !a.isInbound

end Action

inductive Reason
  /-- A job names the package. -/
  | user
  /-- Another package of the transaction needs it, or broke it. -/
  | dependency
  /-- It was left over after a removal that cleans up. -/
  | clean
  /-- Another package recommends it. -/
  | weakDependency
  deriving DecidableEq, Repr, Inhabited

namespace Reason

def all : List Reason := [user, dependency, clean, weakDependency]

def text : Reason → String
  | user => "USER"
  | dependency => "DEPENDENCY"
  | clean => "CLEAN"
  | weakDependency => "WEAK_DEPENDENCY"

def parse : String → Except UnknownWord Reason := readWord "reason" all text

end Reason

end Provision
