import Provision.Package

/-!
# Jobs

A job is one request of a user: an action, the packages it is about, and switches.
-/

namespace Provision.Goal

inductive Verb
  | install
  | remove
  | upgrade
  | downgrade
  | reinstall
  | distroSync
  deriving DecidableEq, Repr

def Verb.text : Verb → String
  | install => "install"
  | remove => "remove"
  | upgrade => "upgrade"
  | downgrade => "downgrade"
  | reinstall => "reinstall"
  | distroSync => "distro-sync"

def Verb.all : List Verb := [install, remove, upgrade, downgrade, reinstall, distroSync]

inductive Target
  /-- Everything that a pattern selects. -/
  | pattern (text : String)
  /-- These builds and no others. -/
  | exactly (packages : List Package)
  deriving Repr

def Target.text : Target → String
  | pattern text => text
  | exactly packages => ", ".intercalate (packages.map Package.nevra)

structure Flags where
  /-- An installation may choose a lower version than the installed one. -/
  allowDowngrade : Bool := false
  /-- A removal takes dependencies along that nothing else needs. -/
  cleanDeps : Bool := false
  /-- The job is skipped if it cannot be met. -/
  weak : Bool := false
  /-- What is installed already is installed once more. -/
  force : Bool := false
  deriving DecidableEq, Repr

structure Job where
  verb : Verb
  target : Target
  flags : Flags := {}
  deriving Repr

def Job.text (j : Job) : String := j.verb.text ++ " " ++ j.target.text

end Provision.Goal
