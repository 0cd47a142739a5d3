import Provision.Capability

/-!
# Packages

A build is a package at one version for one architecture, written
`name-[epoch:]version-release.arch`. A package is a build together with the repository that it was
seen in and perhaps a checksum. The same build may be offered by several repositories: it is the
build that decides whether two packages are the same. A slot is a name and an architecture, the
place that at most one installed build holds.
-/

namespace Provision

structure Slot where
  name : String
  arch : String
  deriving DecidableEq, Repr, Inhabited

namespace Slot

instance : Ord Slot where
  compare := compareLex (compareOn Slot.name) (compareOn Slot.arch)

instance : Std.TransOrd Slot :=
  inferInstanceAs (Std.TransCmp (compareLex (compareOn Slot.name) (compareOn Slot.arch)))

instance : Std.LawfulEqOrd Slot where
  eq_of_compare {s t} h := by
    obtain ⟨hname, harch⟩ := Ordering.then_eq_eq.1 h
    have hn : s.name = t.name := Std.LawfulEqOrd.eq_of_compare hname
    have ha : s.arch = t.arch := Std.LawfulEqOrd.eq_of_compare harch
    cases s
    cases t
    simp_all

def text (s : Slot) : String := s.name ++ "." ++ s.arch

end Slot

structure Build where
  name : String
  arch : String
  evr : Evr
  deriving DecidableEq, Repr, Inhabited

namespace Build

instance : Ord Build where
  compare :=
    compareLex (compareOn Build.name) <| compareLex (compareOn Build.arch) (compareOn Build.evr)

def slot (b : Build) : Slot := ⟨b.name, b.arch⟩

/-- The written form without the epoch when it is zero. -/
def nevra (b : Build) : String := b.name ++ "-" ++ b.evr.text ++ "." ++ b.arch

end Build

structure Package where
  build : Build
  repo : String
  checksum : Option String
  deriving DecidableEq, Repr, Inhabited

/-- The repository of packages that are only known because they are installed. -/
def systemRepo : String := "@System"

namespace Package

abbrev name (p : Package) : String := p.build.name
abbrev arch (p : Package) : String := p.build.arch
abbrev evr (p : Package) : Evr := p.build.evr
abbrev slot (p : Package) : Slot := p.build.slot
abbrev nevra (p : Package) : String := p.build.nevra

/-- The same build from the same repository; checksums do not matter. -/
def SameOffer (p q : Package) : Prop := p.build = q.build ∧ p.repo = q.repo

instance (p q : Package) : Decidable (p.SameOffer q) := inferInstanceAs (Decidable (_ ∧ _))

/-- The package as another repository offers it. -/
def inRepo (p : Package) (repo : String) : Package := { p with repo := repo }

/-- The repository after the last `@`, if it has a name, and the text before it. -/
def cutRepo (s : List Char) : List Char × String :=
  match Text.cutLast '@' s with
  | some (build, c :: repo) => (build, String.ofList (c :: repo))
  | _ => (s, systemRepo)

/--
Reads `name-[epoch:]version-release.arch`, perhaps with `@repo` behind it. The architecture follows
the last dot, release and version the last two dashes before it.
-/
def parse (s : String) : Except ParseError Package := do
  let (build, repo) := cutRepo s.toList
  let some (rest, arch) := Text.cutLast '.' build | .error (.missingArch s)
  let some (rest, release) := Text.cutLast '-' rest | .error (.missingRelease s)
  let some (name, version) := Text.cutLast '-' rest | .error (.missingVersion s)
  if name.isEmpty || arch.isEmpty then .error (.malformedName s)
  else
    let evr ← Evr.ofChars (version ++ '-' :: release)
    return ⟨⟨String.ofList name, String.ofList arch, evr⟩, repo, none⟩

/-- The package itself is an offer of its name at its version. -/
def meets (p : Package) (r : Requirement) : Bool := r.metBy p.name (some p.evr)

/-- The order of packages in listings: by build, then by repository. -/
def compareListed : Package → Package → Ordering :=
  compareLex (compareOn Package.build) (compareOn Package.repo)

end Package

end Provision
