import Provision.Index
import Provision.Log
import Provision.Transaction

/-!
# Applying an item

An installer carries out one item at a time and may fail at it. The index is an installer: a removal
empties a slot, anything else fills one with a package that a repository offers.
-/

namespace Provision

/-- Why an item could not be carried out. -/
inductive Fault
  | corruptPayload (what : String)
  | noSpace (what : String)
  | hookFailed (package hook : String) (status : Int)
  | io (text : String)
  | other (text : String)
  deriving DecidableEq, Repr

def Fault.message : Fault → String
  | corruptPayload what => s!"payload of {what} is corrupt"
  | noSpace what => s!"insufficient space to apply {what}"
  | hookFailed package hook status => s!"{hook} hook of {package} exited with status {status}"
  | io text => s!"I/O error: {text}"
  | other text => text

/-- What carries out items, with a state of its own. -/
structure Installer (σ : Type) where
  apply : σ → Item → Traced (σ × Except Fault Unit)

namespace Index

/--
Why a package is installed after an item. One that takes over a slot keeps the reason of the package
before it.
-/
def reasonAfter (ix : Index) (i : Item) : Reason :=
  let previous := (ix.installed[i.package.slot]?).bind (·.metadata.reason)
  match previous, i.replaces with
  | some reason, some _ => reason
  | _, _ => if i.reason = .clean then .dependency else i.reason

/-- Takes a package off; fails unless just this build is installed. -/
def applyRemoval (ix : Index) (p : Package) : Traced (Index × Except Fault Unit) :=
  if ix.isInstalled p.build then do
    Traced.debug s!"Removed {p.nevra}"
    return (ix.vacate p.slot, .ok ())
  else return (ix, .error (.other s!"{p.nevra} is not installed"))

/-- Puts a package into its slot; fails unless the build is offered. -/
def applyInbound (ix : Index) (i : Item) : Traced (Index × Except Fault Unit) :=
  match ix.offeredMetadata? i.package with
  | none =>
    return (ix, .error (.corruptPayload
      s!"{i.package.nevra} (not offered by repository {i.package.repo})"))
  | some metadata => do
    Traced.debug s!"Installed {i.package.nevra}"
    return (ix.occupy ⟨i.package, { metadata with reason := some (ix.reasonAfter i) }⟩, .ok ())

def apply (ix : Index) (i : Item) : Traced (Index × Except Fault Unit) :=
  if i.action.isRemoval then ix.applyRemoval i.package else ix.applyInbound i

def installer : Installer Index := ⟨apply⟩

end Index

end Provision
