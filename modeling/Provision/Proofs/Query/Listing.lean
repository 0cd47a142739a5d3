import Provision.Proofs.Offers
import Provision.Proofs.Query

/-!
# What queries list

A query lists each build of a repository once, in the order of builds and repositories. Sorting puts
all that repeats one another side by side, so dropping what repeats its neighbour leaves a list that
goes up strictly (`pairwise_lt_dropRepeats`). Sorting is also stable (`filter_mergeSort`), and what is
installed stands before what is offered; so of an installed package and an offer of the same build by
the same repository it is the installed one that is kept (`mem_query_of_installed`).

Hence a query lists just what answers it (`query_exact`).
-/

namespace Provision

/-! ## Sorted lists without repetitions -/

section Sorted

variable {α : Type} {cmp : α → α → Ordering} [Std.TransCmp cmp]

/-- Sorting leaves elements that compare as equal in their order. -/
theorem filter_mergeSort (a : α) (xs : List α) :
    (xs.mergeSort fun x y => (cmp x y).isLE).filter (fun x => cmp x a = .eq) =
      xs.filter fun x => cmp x a = .eq := by
  have hequal : (xs.filter fun x => cmp x a = .eq).Pairwise fun x y => (cmp x y).isLE := by
    refine List.pairwise_of_forall_mem_list fun x hx y hy => ?_
    have hxa : cmp x a = .eq := of_decide_eq_true (List.mem_filter.1 hx).2
    have hya : cmp y a = .eq := of_decide_eq_true (List.mem_filter.1 hy).2
    rw [Std.TransCmp.eq_trans hxa (Std.OrientedCmp.eq_symm hya)]
    rfl
  have hsublist := List.sublist_mergeSort (fun x y z => Std.TransCmp.isLE_trans) (isLE_total cmp)
    hequal List.filter_sublist
  have hfilter := hsublist.filter fun x => decide (cmp x a = .eq)
  rw [List.filter_filter] at hfilter
  simp only [Bool.and_self] at hfilter
  refine (hfilter.eq_of_length ?_).symm
  exact ((List.mergeSort_perm xs _).filter _).length_eq.symm

variable {same : α → α → Bool} (hsame : ∀ x y, same x y ↔ cmp x y = .eq)

include hsame

/-- By induction on the list: what is kept after `last` goes up from it. -/
theorem pairwise_lt_dropRepeatsAfter {last : α} {xs : List α}
    (h : (last :: xs).Pairwise fun x y => (cmp x y).isLE) :
    (last :: dropRepeatsAfter same last xs).Pairwise fun x y => cmp x y = .lt := by
  induction xs generalizing last with
  | nil => exact List.pairwise_singleton _ last
  | cons x rest ih =>
    obtain ⟨hlast, hrest⟩ := List.pairwise_cons.1 h
    unfold dropRepeatsAfter
    split
    · exact ih (h.sublist ((List.sublist_cons_self x rest).cons_cons last))
    · rename_i hnew
      have hkept := ih hrest
      have hlt : cmp last x = .lt := by
        rcases hcompare : cmp last x with _ | _ | _
        · rfl
        · exact absurd ((hsame last x).2 hcompare) hnew
        · have hle := hlast x List.mem_cons_self
          rw [hcompare] at hle
          cases hle
      refine List.pairwise_cons.2 ⟨fun y hy => ?_, hkept⟩
      rcases List.mem_cons.1 hy with rfl | hy
      · exact hlt
      · exact Std.TransCmp.lt_trans hlt ((List.pairwise_cons.1 hkept).1 y hy)

theorem pairwise_lt_dropRepeats {xs : List α} (h : xs.Pairwise fun x y => (cmp x y).isLE) :
    (dropRepeats same xs).Pairwise fun x y => cmp x y = .lt := by
  cases xs with
  | nil => exact .nil
  | cons x rest => exact pairwise_lt_dropRepeatsAfter hsame h

end Sorted

section First

variable {α : Type} {same : α → α → Bool} {x : α} {before : List α}

/-- What nothing before it is the same as is kept. -/
theorem mem_dropRepeatsAfter_of_first {last : α} (hlast : ¬ same last x)
    (hbefore : ∀ y ∈ before, ¬ same y x) (rest : List α) :
    x ∈ dropRepeatsAfter same last (before ++ x :: rest) := by
  induction before generalizing last with
  | nil =>
    rw [List.nil_append, dropRepeatsAfter, if_neg hlast]
    exact List.mem_cons_self
  | cons y before ih =>
    rw [List.cons_append, dropRepeatsAfter]
    have hrest : ∀ z ∈ before, ¬ same z x := fun z hz => hbefore z (List.mem_cons_of_mem y hz)
    split
    · exact ih hlast hrest
    · exact List.mem_cons_of_mem y (ih (hbefore y List.mem_cons_self) hrest)

theorem mem_dropRepeats_of_first (hbefore : ∀ y ∈ before, ¬ same y x) (rest : List α) :
    x ∈ dropRepeats same (before ++ x :: rest) := by
  cases before with
  | nil => exact List.mem_cons_self
  | cons y before =>
    refine List.mem_cons_of_mem y (mem_dropRepeatsAfter_of_first (hbefore y List.mem_cons_self) ?_ rest)
    exact fun z hz => hbefore z (List.mem_cons_of_mem y hz)

end First

/-! ## The order of listings -/

instance : Std.TransCmp Package.compareListed :=
  inferInstanceAs (Std.TransCmp (compareLex (compareOn Package.build) (compareOn Package.repo)))

/-- Only a build of one repository is listed at its own place. -/
theorem Package.compareListed_eq_iff {p q : Package} : p.compareListed q = .eq ↔ p.SameOffer q := by
  show (compare p.build q.build).then (compare p.repo q.repo) = .eq ↔ _
  rw [Ordering.then_eq_eq, Std.LawfulEqCmp.compare_eq_iff_eq, Std.LawfulEqCmp.compare_eq_iff_eq]
  rfl

namespace Index

variable {ix : Index} {f : Filter} {p : Package}

theorem pairwise_lt_query (ix : Index) (f : Filter) :
    (ix.query f).Pairwise fun p q => p.compareListed q = .lt := by
  unfold query
  refine pairwise_lt_dropRepeats (fun p q => ?_) (pairwise_isLE_mergeSort _ _)
  rw [decide_eq_true_eq, Package.compareListed_eq_iff]

/-- What is installed and what is on offer, put in order and rid of repetitions, is all there is. -/
theorem query_all_of_perm {l : List Package}
    (hperm : (ix.installedPackages ++ ix.offeredPackages.filter fun p =>
      !ix.isExcluded p.build).Perm l)
    (hsorted : l.Pairwise fun p q => (p.compareListed q).isLE)
    (hequal : ∀ p ∈ l, ∀ q ∈ l, p.compareListed q = .eq → p = q) :
    ix.query {} = dropRepeats (fun p q => p.SameOffer q) l := by
  have hinstalled : ix.installedPackages.filter ({} : Filter).selects = ix.installedPackages :=
    List.filter_eq_self.2 fun _ _ => rfl
  rw [← mergeSort_eq_of_perm Package.compareListed hperm hsorted hequal]
  unfold query
  rw [if_neg (by decide), if_neg (by decide), hinstalled]
  rfl

/-- What is installed under the build and repository of an installed package is that package. -/
theorem exists_filter_installed (hp : p ∈ ix.installedPackages) (hselects : f.selects p) :
    ∃ rest, (ix.installedPackages.filter f.selects).filter (fun q => q.compareListed p = .eq) =
      p :: rest := by
  rcases hown : (ix.installedPackages.filter f.selects).filter
    (fun q => q.compareListed p = .eq) with _ | ⟨q, rest⟩
  · rw [List.filter_eq_nil_iff] at hown
    refine absurd (decide_eq_true ?_) (hown p (List.mem_filter.2 ⟨hp, hselects⟩))
    exact Std.ReflCmp.compare_self
  · have hq : q ∈ (ix.installedPackages.filter f.selects).filter
        (fun q => q.compareListed p = .eq) := hown ▸ List.mem_cons_self
    obtain ⟨hq, hequal⟩ := List.mem_filter.1 hq
    have hsame := Package.compareListed_eq_iff.1 (of_decide_eq_true hequal)
    have hslot : q.slot = p.slot := congrArg Build.slot hsame.1
    obtain rfl := installed_unique (List.mem_filter.1 hq).1 hp hslot
    exact ⟨rest, hown⟩

/-- An installed package is listed itself, even if it is offered as well, or hidden among the offers. -/
theorem mem_query_of_installed (hp : p ∈ ix.installedPackages) (hselects : f.selects p)
    (hside : f.side ≠ some .offered) : p ∈ ix.query f := by
  obtain ⟨rest, hfirst⟩ := exists_filter_installed hp hselects
  unfold query
  dsimp only
  rw [if_neg hside]
  generalize hsorted : List.mergeSort _ _ = sorted
  have hstable := congrArg (List.filter fun q => decide (q.compareListed p = .eq)) hsorted
  rw [filter_mergeSort, List.filter_append, hfirst, List.cons_append] at hstable
  obtain ⟨before, after, rfl, hbefore, -⟩ := List.filter_eq_cons_iff.1 hstable.symm
  refine mem_dropRepeats_of_first (fun q hq hsame => hbefore q hq ?_) after
  exact decide_eq_true (Package.compareListed_eq_iff.2 (of_decide_eq_true hsame))

/--
A query lists packages in strictly rising order, so without repetitions. A build of a repository is
listed just if a package of it answers the query, and then as a package that does. Installed packages
that answer are listed as they are.
-/
theorem query_exact (ix : Index) (f : Filter) :
    (ix.query f).Pairwise (fun p q => p.compareListed q = .lt) ∧
      (ix.query f).Nodup ∧
      (∀ o : Offer, o ∈ (ix.query f).map Package.offer ↔ ∃ p, ix.Answers f p ∧ p.offer = o) ∧
      (∀ p ∈ ix.query f, ix.Answers f p) ∧
      ∀ p ∈ ix.installedPackages, f.selects p → f.side ≠ some .offered → p ∈ ix.query f := by
  have hrises := pairwise_lt_query ix f
  refine ⟨hrises, hrises.imp fun {p q} hlt heq => ?_, fun o => ?_, fun p => mem_of_mem_query,
    fun p => mem_query_of_installed⟩
  · have hself : p.compareListed q = .eq := heq ▸ Std.ReflCmp.compare_self
    rw [hlt] at hself
    cases hself
  · rw [List.mem_map]
    constructor
    · rintro ⟨p, hp, rfl⟩
      exact ⟨p, mem_of_mem_query hp, rfl⟩
    · rintro ⟨p, hp, rfl⟩
      obtain ⟨q, hq, hbuild, hrepo⟩ := exists_mem_query hp
      exact ⟨q, hq, by rw [Package.offer, Package.offer, hbuild, hrepo]⟩

end Index

end Provision
