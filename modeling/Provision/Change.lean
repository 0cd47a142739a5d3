import Provision.Metadata

/-!
# Changes

A change is one step between two sets of installed packages: a package, what is to happen to it and
why, and the packages whose place it takes or loses.
-/

namespace Provision

structure Change where
  package : Package
  action : Action
  reason : Reason
  /-- The installed package whose slot the package takes over. -/
  replaces : Option Package := none
  /-- The package on whose account this one is taken off. -/
  replacedBy : Option Package := none
  /-- The number of the job that brought the change about. -/
  job : Option Nat := none
  deriving DecidableEq, Repr

end Provision
