import Std.Data.TreeMap
import Provision.Metadata
import Provision.Pattern

/-!
# The package index

An index holds what is installed, one package in a slot, and what repositories offer, one entry for
each build and repository. Globs may hide offers; what is installed is never hidden.
-/

namespace Provision

/-- A package and what is known about it. -/
structure Entry where
  package : Package
  metadata : Metadata
  deriving DecidableEq, Repr, Inhabited

/-- What tells offers apart: the build and the repository. -/
structure Offer where
  build : Build
  repo : String
  deriving DecidableEq, Repr

instance : Ord Offer where
  compare := compareLex (compareOn Offer.build) (compareOn Offer.repo)

def Package.offer (p : Package) : Offer := ⟨p.build, p.repo⟩

theorem Entry.slot_eq_of_empty (slot : Slot) (entry : Entry)
    (h : ({} : Std.TreeMap Slot Entry)[slot]? = some entry) : entry.package.slot = slot := by
  cases h

structure Index where
  installed : Std.TreeMap Slot Entry := {}
  offered : Std.TreeMap Offer Entry := {}
  excludes : List Pattern := []
  /-- What is installed is kept under its own slot. -/
  slot_eq : ∀ (slot : Slot) (entry : Entry),
    installed[slot]? = some entry → entry.package.slot = slot := by exact Entry.slot_eq_of_empty

/-- A text that was to hide offers but is no glob. -/
structure ExcludeError where
  pattern : String
  reason : Glob.Error
  deriving DecidableEq, Repr

def ExcludeError.detail (e : ExcludeError) : String :=
  s!"exclude pattern '{e.pattern}': {e.reason.message}"

def ExcludeError.message (e : ExcludeError) : String := "Configuration error: Invalid " ++ e.detail

/-- What is wrong with the first of the texts that is no glob. -/
def ExcludeError.first? (patterns : List String) : Option ExcludeError :=
  patterns.findSome? fun pattern =>
    match Glob.parse pattern with
    | .ok _ => none
    | .error reason => some ⟨pattern, reason⟩

namespace Index

/-- The index with an entry in the slot of its package. -/
def occupy (ix : Index) (entry : Entry) : Index where
  installed := ix.installed.insert entry.package.slot entry
  offered := ix.offered
  excludes := ix.excludes
  slot_eq slot e h := by
    rw [Std.TreeMap.getElem?_insert] at h
    split at h
    · rename_i heq
      cases h
      exact Std.LawfulEqOrd.eq_of_compare heq
    · exact ix.slot_eq slot e h

/-- The index with nothing in a slot. -/
def vacate (ix : Index) (slot : Slot) : Index where
  installed := ix.installed.erase slot
  offered := ix.offered
  excludes := ix.excludes
  slot_eq other e h := by
    rw [Std.TreeMap.getElem?_erase] at h
    split at h
    · cases h
    · exact ix.slot_eq other e h

/-- Puts a package into its slot. Without a reason it counts as asked for by the user. -/
def addInstalled (ix : Index) (package : Package) (metadata : Metadata) : Index :=
  ix.occupy ⟨package, { metadata with reason := some (metadata.reason.getD .user) }⟩

/--
Adds an offer. When the repository offers the build already, the new metadata take the place of the
old, and the package stays as it was first described, its checksum included.
-/
def addOffered (ix : Index) (package : Package) (metadata : Metadata) : Index :=
  let known := (ix.offered[package.offer]?).getD ⟨package, metadata⟩
  { ix with offered := ix.offered.insert package.offer { known with metadata := metadata } }

/-- Hides the offers that one of the globs selects. -/
def setExcludes (ix : Index) (patterns : List String) : Except ExcludeError Index :=
  match ExcludeError.first? patterns with
  | some e => .error e
  | none => .ok { ix with excludes := patterns.map Pattern.ofText }

def installedEntries (ix : Index) : List Entry := ix.installed.values

def offeredEntries (ix : Index) : List Entry := ix.offered.values

def installedPackages (ix : Index) : List Package := ix.installedEntries.map Entry.package

def offeredPackages (ix : Index) : List Package := ix.offeredEntries.map Entry.package

/-- The package in a slot. -/
def installedAt? (ix : Index) (slot : Slot) : Option Package :=
  (ix.installed[slot]?).map Entry.package

/-- What is known about the build if it is the one in its slot. -/
def installedEntry? (ix : Index) (b : Build) : Option Entry :=
  (ix.installed[b.slot]?).filter fun entry => entry.package.build = b

def isInstalled (ix : Index) (b : Build) : Bool := (ix.installedEntry? b).isSome

def isExcluded (ix : Index) (b : Build) : Bool := ix.excludes.any (·.selects b)

/-- Why the build is installed. -/
def reason? (ix : Index) (b : Build) : Option Reason :=
  (ix.installedEntry? b).bind (·.metadata.reason)

/-- Metadata of an offer, or else of the first offer of the same build. -/
def offeredMetadata? (ix : Index) (p : Package) : Option Metadata :=
  match ix.offered[p.offer]? with
  | some entry => some entry.metadata
  | none => (ix.offeredEntries.find? fun entry => entry.package.build = p.build).map Entry.metadata

/--
What is known about a package. The installed copy speaks for the repository that it came from;
copies from elsewhere go by their offers.
-/
def metadata? (ix : Index) (p : Package) : Option Metadata :=
  match ix.installedEntry? p.build with
  | some entry =>
    if entry.package.repo = p.repo then some entry.metadata
    else (ix.offeredMetadata? p).or (some entry.metadata)
  | none => ix.offeredMetadata? p

/-- The package offers what the requirement asks for. -/
def meets (ix : Index) (p : Package) (r : Requirement) : Bool :=
  match ix.metadata? p with
  | some metadata => metadata.meets p r
  | none => p.meets r

end Index

end Provision
