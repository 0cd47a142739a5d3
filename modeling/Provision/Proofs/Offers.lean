import Provision.Index
import Provision.Proofs.Evr.Order

/-!
# The order of offers

Builds are ordered by name, architecture and EVR, offers by build and repository. Both orders are
transitive, and only equals compare as equal, so a sorted map of offers finds what was put under an
offer. A list is in order once it is sorted by a transitive comparison (`pairwise_isLE_mergeSort`).
-/

namespace Provision

theorem isLE_total {α : Type} (cmp : α → α → Ordering) [Std.OrientedCmp cmp] (a b : α) :
    (cmp a b).isLE || (cmp b a).isLE := by
  rw [Bool.or_eq_true]
  rcases hcompare : cmp a b with _ | _ | _
  · exact .inl rfl
  · exact .inl rfl
  · exact .inr (by rw [Std.OrientedCmp.lt_of_gt hcompare]; rfl)

theorem pairwise_isLE_mergeSort {α : Type} (cmp : α → α → Ordering) [Std.TransCmp cmp]
    (l : List α) :
    (l.mergeSort fun a b => (cmp a b).isLE).Pairwise fun a b => (cmp a b).isLE :=
  List.pairwise_mergeSort (fun _ _ _ => Std.TransCmp.isLE_trans) (isLE_total cmp) l

/-- What is in order is what sorting makes of any list of the same members. -/
theorem mergeSort_eq_of_perm {α : Type} (cmp : α → α → Ordering) [Std.TransCmp cmp] {l l' : List α}
    (hperm : l.Perm l') (hsorted : l'.Pairwise fun a b => (cmp a b).isLE)
    (hequal : ∀ a ∈ l', ∀ b ∈ l', cmp a b = .eq → a = b) :
    (l.mergeSort fun a b => (cmp a b).isLE) = l' := by
  have hsame := (List.mergeSort_perm l fun a b => (cmp a b).isLE).trans hperm
  refine hsame.eq_of_pairwise (fun a b ha hb hab hba => ?_) (pairwise_isLE_mergeSort cmp l) hsorted
  exact hequal a (hsame.mem_iff.1 ha) b hb (Std.OrientedCmp.isLE_antisymm hab hba)

/-- A slot is a name and an architecture. -/
theorem Build.slot_ext {b b' : Build} (hname : b.name = b'.name) (harch : b.arch = b'.arch) :
    b.slot = b'.slot := by
  unfold Build.slot
  rw [hname, harch]

/-- A build is its slot and its version. -/
theorem Build.eq_of_slot_of_evr {b b' : Build} (hslot : b.slot = b'.slot) (hevr : b.evr = b'.evr) :
    b = b' := by
  cases b
  cases b'
  cases hslot
  cases hevr
  rfl

instance : Std.TransOrd Build :=
  inferInstanceAs (Std.TransCmp
    (compareLex (compareOn Build.name) (compareLex (compareOn Build.arch) (compareOn Build.evr))))

instance : Std.LawfulEqOrd Build where
  eq_of_compare {a b} h := by
    obtain ⟨hname, hrest⟩ := Ordering.then_eq_eq.1 h
    obtain ⟨harch, hevr⟩ := Ordering.then_eq_eq.1 hrest
    have hn : a.name = b.name := Std.LawfulEqOrd.eq_of_compare hname
    have ha : a.arch = b.arch := Std.LawfulEqOrd.eq_of_compare harch
    have he : a.evr = b.evr := Std.LawfulEqOrd.eq_of_compare hevr
    cases a
    cases b
    simp_all

instance : Std.TransOrd Offer :=
  inferInstanceAs (Std.TransCmp (compareLex (compareOn Offer.build) (compareOn Offer.repo)))

instance : Std.LawfulEqOrd Offer where
  eq_of_compare {a b} h := by
    obtain ⟨hbuild, hrepo⟩ := Ordering.then_eq_eq.1 h
    have hb : a.build = b.build := Std.LawfulEqOrd.eq_of_compare hbuild
    have hr : a.repo = b.repo := Std.LawfulEqOrd.eq_of_compare hrepo
    cases a
    cases b
    simp_all

end Provision
