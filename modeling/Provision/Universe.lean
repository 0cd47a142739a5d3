import Provision.Index

/-!
# Universes

A universe is the written form of an index: the entries of what is installed and of what is offered,
with packages and capabilities as texts. `Index.ofUniverse` reads one, `Index.toUniverse` writes
one.
-/

namespace Provision

structure UniverseEntry where
  nevra : String
  repo : Option String := none
  checksum : Option String := none
  reason : Option Reason := none
  requires : List Requirement := []
  recommends : List Requirement := []
  provides : List Provide := []
  conflicts : List Requirement := []
  obsoletes : List Requirement := []
  installBefore : List String := []
  removeAfter : List String := []
  deriving DecidableEq, Repr

structure Universe where
  installed : List UniverseEntry := []
  available : List UniverseEntry := []
  deriving DecidableEq, Repr

/-- The repository of offers that name none. -/
def availableRepo : String := "available"

namespace UniverseEntry

def metadata (e : UniverseEntry) : Metadata where
  requires := e.requires
  recommends := e.recommends
  provides := e.provides
  conflicts := e.conflicts
  obsoletes := e.obsoletes
  installBefore := e.installBefore
  removeAfter := e.removeAfter
  reason := e.reason

/-- The package of an entry; a repository inside its name does not count. -/
def package (e : UniverseEntry) (defaultRepo : String) : Except ParseError Package := do
  return ⟨(← Package.parse e.nevra).build, e.repo.getD defaultRepo, e.checksum⟩

def ofEntry (entry : Entry) : UniverseEntry where
  nevra := entry.package.nevra
  repo := some entry.package.repo
  checksum := entry.package.checksum
  reason := entry.metadata.reason
  requires := entry.metadata.requires
  recommends := entry.metadata.recommends
  provides := entry.metadata.provides
  conflicts := entry.metadata.conflicts
  obsoletes := entry.metadata.obsoletes
  installBefore := entry.metadata.installBefore
  removeAfter := entry.metadata.removeAfter

end UniverseEntry

namespace Index

def ofUniverse (u : Universe) : Except ParseError Index := do
  let installed ← u.installed.foldlM
    (fun (ix : Index) entry => return ix.addInstalled (← entry.package systemRepo) entry.metadata)
    {}
  u.available.foldlM
    (fun (ix : Index) entry => return ix.addOffered (← entry.package availableRepo) entry.metadata)
    installed

def toUniverse (ix : Index) : Universe :=
  ⟨ix.installedEntries.map .ofEntry, ix.offeredEntries.map .ofEntry⟩

end Index

end Provision
