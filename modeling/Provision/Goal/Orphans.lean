import Provision.Change
import Provision.Index.Query
import Provision.Log

/-!
# Orphans

An orphan was installed on account of a package that is gone and is needed by none that stays. A
removal that cleans up takes orphans along, one after the other, since each may leave further ones.
Packages that the user asked for, protected ones and those that other changes touch are no orphans.
-/

namespace Provision.Goal

/-- The first package requires or recommends something that the second offers. -/
def dependsOn (ix : Index) (p q : Package) : Bool :=
  match ix.metadata? p, ix.metadata? q with
  | some m, some n => (m.requires ++ m.recommends).any (n.meets q)
  | _, _ => false

/-- The package was installed for another reason than that the user asked. -/
def isAuxiliary (ix : Index) (p : Package) : Bool :=
  ((ix.metadata? p).bind Metadata.reason).any (· ≠ .user)

/-- What a sweep knows: who is gone on account of its job, and who is still there. -/
structure Sweep where
  removed : List Package
  present : List Package
  deriving Repr

/-- The package lost one that depended on it and has none left. -/
def Sweep.isDeserted (ix : Index) (w : Sweep) (p : Package) : Bool :=
  w.removed.any (fun q => dependsOn ix q p) &&
    !w.present.any fun q => q.build ≠ p.build && dependsOn ix q p

/-- The position of the first orphan that may be taken. -/
def Sweep.findOrphan? (ix : Index) (touched : List Slot) (protectedNames : List String)
    (w : Sweep) : Option Nat :=
  w.present.findIdx? fun p =>
    !touched.contains p.slot && !protectedNames.contains p.name && isAuxiliary ix p &&
      w.isDeserted ix p

/-- Takes orphans as long as there is one; each makes the list of present packages shorter. -/
def Sweep.run (ix : Index) (touched : List Slot) (protectedNames : List String) :
    Nat → Sweep → Traced (List Package)
  | 0, _ => return []
  | bound + 1, w =>
    match (w.findOrphan? ix touched protectedNames).bind fun i => (w.present[i]?).map (i, ·) with
    | none => return []
    | some (i, p) => do
      Traced.debug s!"Sweeping orphaned dependency {p.nevra}"
      let rest ← Sweep.run ix touched protectedNames bound
        ⟨w.removed ++ [p], w.present.eraseIdx i⟩
      return p :: rest

/-- Removals by other jobs count as gone, but only those of `job` make orphans. -/
def Sweep.start (ix : Index) (changes : List Change) (job : Nat) : Sweep :=
  let gone := (changes.filter (·.action.isRemoval)).map Change.package
  let inbound := (changes.filter (·.action.isInbound)).map Change.package
  { removed :=
      (changes.filter fun c => c.action.isRemoval && c.job == some job).map Change.package
    present :=
      (ix.query { side := some .installed }).filter
        (fun p => !gone.any fun q => q.build = p.build) ++ inbound }

/-- The further removals that clean up after the removals of `job`. -/
def sweepOrphans (ix : Index) (changes : List Change) (protectedNames : List String)
    (job : Nat) : Traced (List Change) := do
  let w := Sweep.start ix changes job
  let swept ← Sweep.run ix (changes.map (·.package.slot)) protectedNames w.present.length w
  return swept.map fun p => { package := p, action := .remove, reason := .clean, job := some job }

/-- Cleans up after several jobs, each sweep knowing what the ones before it took. -/
def sweepAll (ix : Index) (protectedNames : List String) (changes : List Change) :
    List Nat → Traced (List Change)
  | [] => return changes
  | job :: rest => do
    let swept ← sweepOrphans ix changes protectedNames job
    Traced.debug s!"Orphan sweep for job {job + 1} removes {swept.length} packages"
    sweepAll ix protectedNames (changes ++ swept) rest

end Provision.Goal
