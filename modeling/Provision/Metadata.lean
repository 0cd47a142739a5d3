import Provision.Action
import Provision.Package

/-!
# Package metadata

What a package needs, recommends, offers, excludes and supersedes, how it wants to be ordered, and
for an installed package why it is there.
-/

namespace Provision

structure Metadata where
  requires : List Requirement := []
  recommends : List Requirement := []
  provides : List Provide := []
  conflicts : List Requirement := []
  obsoletes : List Requirement := []
  /-- Names of packages before which this one wants to be installed. -/
  installBefore : List String := []
  /-- Names of packages after which this one wants to be removed. -/
  removeAfter : List String := []
  reason : Option Reason := none
  deriving DecidableEq, Repr, Inhabited

/-- `package`, which the metadata describes, offers what the requirement asks for. -/
def Metadata.meets (m : Metadata) (package : Package) (r : Requirement) : Bool :=
  package.meets r || m.provides.any (·.meets r)

end Provision
