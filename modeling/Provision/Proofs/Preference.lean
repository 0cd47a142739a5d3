import Mathlib.Data.List.Nodup
import Provision.Index.Query
import Provision.Proofs.Offers
import Provision.Solver.Search

/-!
# The orders in which packages are tried

Candidates are tried in the order of `preference`, the providers of a capability in that of
`Solver.Scope.providerOrder`. The former favours an origin; the latter favours in each slot the
origin of what is installed there, and is transitive since it only does so between packages of one
slot (`providerOrder_eq`). In both just those packages tie that are one build from one repository
(`preference_eq_iff`, `providerOrder_eq_iff`), so in what order packages are tried does not depend
on how they are listed (`OrdersUpTo.sortsAlike`). The orders of versions and of builds below them
are lawful as well (`orders_lawful`).
-/

namespace Provision

/--
The comparison is a total preorder, reversed when its sides are swapped and transitive, in which
just those tie that are the same.
-/
structure OrdersUpTo {α : Type} (same : α → α → Prop) (cmp : α → α → Ordering) : Prop
    extends Std.TransCmp cmp where
  tie : ∀ a b, cmp a b = .eq ↔ same a b

/-! ## The order of candidates -/

/-- The newest first, then the favoured ones, then by repository, architecture and name. -/
def rankedBy (favoured : Package → Bool) : Package → Package → Ordering :=
  compareLex (fun p q => compareOn Package.evr q p) <|
  compareLex (fun p q => compareOn (fun p => (favoured p).toNat) q p) <|
  compareLex (compareOn Package.repo) <|
  compareLex (compareOn Package.arch) (compareOn Package.name)

instance (favoured : Package → Bool) : Std.TransCmp (rankedBy favoured) := by
  unfold rankedBy
  infer_instance

theorem rankedBy_congr {favoured favoured' : Package → Bool} {p q : Package}
    (hp : favoured p = favoured' p) (hq : favoured q = favoured' q) :
    rankedBy favoured p q = rankedBy favoured' p q := by
  simp only [rankedBy, compareLex, compareOn, hp, hq]

theorem preference_eq (origin : Option String) :
    preference origin = rankedBy fun p => origin == some p.repo := rfl

instance (origin : Option String) : Std.TransCmp (preference origin) := by
  rw [preference_eq]
  infer_instance

theorem preference_eq_iff {origin : Option String} {p q : Package} :
    preference origin p q = .eq ↔ p.SameOffer q := by
  constructor
  · intro h
    obtain ⟨hevr, h⟩ := Ordering.then_eq_eq.1 h
    obtain ⟨-, h⟩ := Ordering.then_eq_eq.1 h
    obtain ⟨hrepo, h⟩ := Ordering.then_eq_eq.1 h
    obtain ⟨harch, hname⟩ := Ordering.then_eq_eq.1 h
    have he : q.evr = p.evr := Std.LawfulEqOrd.eq_of_compare hevr
    have hr : p.repo = q.repo := Std.LawfulEqOrd.eq_of_compare hrepo
    have ha : p.arch = q.arch := Std.LawfulEqOrd.eq_of_compare harch
    have hn : p.name = q.name := Std.LawfulEqOrd.eq_of_compare hname
    exact ⟨Build.eq_of_slot_of_evr (Build.slot_ext hn ha) he.symm, hr⟩
  · rcases p with ⟨build, repo, checksum⟩
    rintro ⟨rfl, rfl⟩
    -- The checksum is not compared.
    show preference origin ⟨q.build, q.repo, checksum⟩ ⟨q.build, q.repo, checksum⟩ = .eq
    exact Std.ReflCmp.compare_self

/-! ## The order of providers -/

namespace Solver.Scope

/-- The package comes from the repository that what stands in its slot was installed from. -/
def isFromOrigin (s : Scope) (p : Package) : Bool :=
  (s.installed[p.slot]?).map Package.repo == some p.repo

/-- In one slot there is one origin, so what a provider is can be said of it alone. -/
theorem providerOrder_eq (s : Scope) :
    s.providerOrder =
      compareLex (fun p q => compareOn (fun p => (s.installed.contains p.slot).toNat) q p)
        (compareLex (compareOn Package.name) (compareLex (compareOn Package.arch)
          (rankedBy s.isFromOrigin))) := by
  funext p q
  refine congrArg (Ordering.then _) ?_
  show (compare p.name q.name).then ((compare p.arch q.arch).then _) =
    (compare p.name q.name).then ((compare p.arch q.arch).then _)
  rcases hname : compare p.name q.name with _ | _ | _
  · rfl
  · rcases harch : compare p.arch q.arch with _ | _ | _
    · rfl
    · have hslot : p.slot = q.slot := Build.slot_ext (Std.LawfulEqOrd.eq_of_compare hname)
        (Std.LawfulEqOrd.eq_of_compare harch)
      exact rankedBy_congr rfl (by rw [isFromOrigin, hslot])
    · rfl
  · rfl

instance (s : Scope) : Std.TransCmp s.providerOrder := by
  rw [providerOrder_eq]
  infer_instance

theorem providerOrder_eq_iff {s : Scope} {p q : Package} :
    s.providerOrder p q = .eq ↔ p.SameOffer q := by
  constructor
  · intro h
    obtain ⟨-, h⟩ := Ordering.then_eq_eq.1 h
    obtain ⟨-, h⟩ := Ordering.then_eq_eq.1 h
    obtain ⟨-, h⟩ := Ordering.then_eq_eq.1 h
    exact preference_eq_iff.1 h
  · rcases p with ⟨build, repo, checksum⟩
    rintro ⟨rfl, rfl⟩
    show s.providerOrder ⟨q.build, q.repo, checksum⟩ ⟨q.build, q.repo, checksum⟩ = .eq
    exact Std.ReflCmp.compare_self

end Solver.Scope

/-! ## Sorting -/

/-- Packages of which no two are the same offer are sorted alike, however they are listed. -/
def SortsAlike (sort : List Package → List Package) : Prop :=
  ∀ packages packages' : List Package, packages.Perm packages' →
    (packages.map Package.offer).Nodup → sort packages = sort packages'

theorem OrdersUpTo.sortsAlike {cmp : Package → Package → Ordering}
    (h : OrdersUpTo Package.SameOffer cmp) :
    SortsAlike fun packages => packages.mergeSort fun p q => (cmp p q).isLE := by
  have htrans : Std.TransCmp cmp := h.toTransCmp
  intro packages packages' hperm hnodup
  have hsorted : packages.Perm (packages'.mergeSort fun p q => (cmp p q).isLE) :=
    hperm.trans (List.mergeSort_perm _ _).symm
  refine mergeSort_eq_of_perm cmp hsorted (pairwise_isLE_mergeSort cmp packages') ?_
  intro p hp q hq hequal
  have hp : p ∈ packages := hsorted.mem_iff.2 hp
  have hq : q ∈ packages := hsorted.mem_iff.2 hq
  obtain ⟨hbuild, hrepo⟩ := (h.tie p q).1 hequal
  refine List.inj_on_of_nodup_map hnodup hp hq ?_
  show (⟨p.build, p.repo⟩ : Offer) = ⟨q.build, q.repo⟩
  rw [hbuild, hrepo]

/-! ## All orders -/

theorem ordersUpTo_preference (origin : Option String) :
    OrdersUpTo Package.SameOffer (preference origin) where
  tie _ _ := preference_eq_iff

theorem Solver.Scope.ordersUpTo_providerOrder (s : Solver.Scope) :
    OrdersUpTo Package.SameOffer s.providerOrder where
  tie _ _ := providerOrder_eq_iff

theorem ordersUpTo_build :
    OrdersUpTo (fun p q => p.name = q.name ∧ p.arch = q.arch ∧ p.evr = q.evr)
      (compareOn Package.build) where
  tie p q := by
    rw [show compareOn Package.build p q = compare p.build q.build from rfl,
      Std.LawfulEqOrd.compare_eq_iff_eq]
    constructor
    · intro hbuild
      exact ⟨congrArg Build.name hbuild, congrArg Build.arch hbuild, congrArg Build.evr hbuild⟩
    · rintro ⟨hname, harch, hevr⟩
      exact Build.eq_of_slot_of_evr (Build.slot_ext hname harch) hevr

/--
Versions are ordered up to equality and packages up to their builds. Candidates, whatever their
origin, and providers, whatever is installed, are ordered up to build and repository, and therefore
sorted into one list however they are listed.
-/
theorem orders_lawful :
    OrdersUpTo (· = ·) (compare : Evr → Evr → Ordering) ∧
      OrdersUpTo (fun p q => p.name = q.name ∧ p.arch = q.arch ∧ p.evr = q.evr)
        (compareOn Package.build) ∧
      (∀ origin : Option String,
        OrdersUpTo Package.SameOffer (preference origin) ∧ SortsAlike (sortByPreference origin)) ∧
      ∀ s : Solver.Scope,
        OrdersUpTo Package.SameOffer s.providerOrder ∧
          SortsAlike fun packages => packages.mergeSort fun p q => (s.providerOrder p q).isLE :=
  ⟨{ tie := fun _ _ => Std.LawfulEqOrd.compare_eq_iff_eq }, ordersUpTo_build,
    fun origin => ⟨ordersUpTo_preference origin, (ordersUpTo_preference origin).sortsAlike⟩,
    fun s => ⟨s.ordersUpTo_providerOrder, s.ordersUpTo_providerOrder.sortsAlike⟩⟩

/-- Where everything else is equal, the architecture decides and not the listing. -/
theorem orders_lawful_reversed :
    sortByPreference none [⟨⟨"a", "i686", ⟨0, "1", none⟩⟩, "main", none⟩,
        ⟨⟨"a", "x86_64", ⟨0, "1", none⟩⟩, "main", none⟩] =
      sortByPreference none [⟨⟨"a", "x86_64", ⟨0, "1", none⟩⟩, "main", none⟩,
        ⟨⟨"a", "i686", ⟨0, "1", none⟩⟩, "main", none⟩] :=
  (orders_lawful.2.2.1 none).2 _ _ (List.Perm.swap _ _ _) (by decide)

end Provision
