import Provision.Index

/-!
# Queries

A filter selects packages by pattern, architecture and side. The answer to a query is sorted by
build and repository and names each build of a repository once.
-/

namespace Provision

/-- The two places that packages are known from. -/
inductive Side
  | installed
  | offered
  deriving DecidableEq, Repr

structure Filter where
  pattern : Option Pattern := none
  /-- Only packages known from this place. -/
  side : Option Side := none
  arch : Option String := none
  /-- Also offers that the index hides. -/
  withExcluded : Bool := false

namespace Filter

/-- Everything that a pattern selects. -/
def ofPattern (text : String) : Filter := { pattern := some (.ofText text) }

/-- Everything of a name, as a pattern. -/
def ofName (name : String) (side : Side) : Filter :=
  { pattern := some (.ofText name), side := some side }

def selects (f : Filter) (p : Package) : Bool :=
  f.arch.all (· == p.arch) && f.pattern.all (·.selects p.build)

end Filter

/-- `xs` without its elements that repeat the one kept before them, which at the start is `last`. -/
def dropRepeatsAfter {α : Type} (same : α → α → Bool) (last : α) : List α → List α
  | [] => []
  | x :: xs =>
    if same last x then dropRepeatsAfter same last xs else x :: dropRepeatsAfter same x xs

/-- Of neighbours that are the same, the first. -/
def dropRepeats {α : Type} (same : α → α → Bool) : List α → List α
  | [] => []
  | x :: xs => x :: dropRepeatsAfter same x xs

namespace Index

def query (ix : Index) (f : Filter) : List Package :=
  let installed :=
    if f.side = some .offered then [] else ix.installedPackages.filter f.selects
  let offered :=
    if f.side = some .installed then []
    else
      ix.offeredPackages.filter fun p =>
        f.selects p && (f.withExcluded || !ix.isExcluded p.build)
  dropRepeats (fun p q => p.SameOffer q)
    ((installed ++ offered).mergeSort fun p q => (p.compareListed q).isLE)

end Index

/--
The order of preference among candidates: the newest first, then those from the repository `origin`,
then by repository, architecture and name.
-/
def preference (origin : Option String) : Package → Package → Ordering :=
  compareLex (fun p q => compare q.evr p.evr) <|
  compareLex
    (fun p q => compare (origin == some q.repo).toNat (origin == some p.repo).toNat) <|
  compareLex (compareOn Package.repo) <|
  compareLex (compareOn Package.arch) (compareOn Package.name)

/-- The candidates, the preferred one first. -/
def sortByPreference (origin : Option String) (packages : List Package) : List Package :=
  packages.mergeSort fun p q => (preference origin p q).isLE

end Provision
