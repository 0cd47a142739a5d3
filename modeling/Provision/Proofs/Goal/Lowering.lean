import Provision.Proofs.Goal.Resolving
import Provision.Proofs.Goal.Selecting
import Provision.Proofs.Preference
import Provision.Proofs.Solver.Displacement

/-!
# Installing without lowering

An installation that may not lower versions leaves out candidates that are older than what stands in
their own slot. What else a candidate displaces, builds of its name for another architecture, is not
looked at. Still it is not newer than the candidate if the job selects it too: then it is a
candidate itself, the newest candidates are tried first, and one that is installed is not refused.

So an installation lowers a version in one case only: its candidate displaces a newer build for
another architecture which the job does not select (`resolve_lowersNone_iff`). That case occurs
(`not_all_lowersNone`).
-/

namespace Provision.Goal

open Numbered

variable {g : Goal} {ix : Index} {policy : Policy} {flags : Flags} {target : Target}

/-! ## The order of candidates -/

/-- No candidate is older than one that is tried after it. -/
theorem pairwise_sortByPreference (origin : Option String) (packages : List Package) :
    (sortByPreference origin packages).Pairwise fun p q => ¬ p.evr.Older q.evr := by
  have hsorted : (sortByPreference origin packages).Pairwise fun p q =>
      (preference origin p q).isLE := pairwise_isLE_mergeSort _ packages
  refine hsorted.imp fun {p q} hle holder => ?_
  have hnewer : compare q.evr p.evr = .gt := Std.OrientedCmp.gt_of_lt holder
  have hgt : preference origin p q = .gt := by
    change Ordering.then (compare q.evr p.evr) _ = .gt
    rw [hnewer]
    rfl
  rw [hgt] at hle
  cases hle

/-- The candidates are the eligible ones of the packages in the order of preference, or the first. -/
def Ranks (ix : Index) (flags : Flags) (packages candidates : List Package) : Prop :=
  ∃ origin rest,
    sortByPreference origin (packages.filter (isEligible ix flags)) = candidates ++ rest

section Ranks

variable {packages candidates refused rest : List Package} {p v : Package}

theorem Ranks.mem (h : Ranks ix flags packages candidates) (hp : p ∈ candidates) :
    p ∈ packages ∧ isEligible ix flags p := by
  obtain ⟨origin, rest, hsorted⟩ := h
  have hmem : p ∈ sortByPreference origin (packages.filter (isEligible ix flags)) := by
    rw [hsorted]
    exact List.mem_append_left rest hp
  exact List.mem_filter.1 (mem_sortByPreference_iff.1 hmem)

/-- A package that is eligible too is not newer than the one before which it was not tried. -/
theorem Ranks.not_older (h : Ranks ix flags packages (refused ++ p :: rest)) (hv : v ∈ packages)
    (heligible : isEligible ix flags v) (hrefused : ∀ q ∈ refused, q.build ≠ v.build) :
    ¬ p.evr.Older v.evr := by
  obtain ⟨origin, others, hsorted⟩ := h
  have hmem : v ∈ refused ++ p :: (rest ++ others) := by
    rw [← List.cons_append, ← List.append_assoc, ← hsorted, mem_sortByPreference_iff]
    exact List.mem_filter.2 ⟨hv, heligible⟩
  have hpairwise := pairwise_sortByPreference origin (packages.filter (isEligible ix flags))
  rw [hsorted, List.append_assoc, List.cons_append] at hpairwise
  have hlater := (List.pairwise_cons.1 (List.pairwise_append.1 hpairwise).2.1).1
  rcases List.mem_append.1 hmem with hmem | hmem
  · exact absurd rfl (hrefused v hmem)
  · rcases List.mem_cons.1 hmem with rfl | hmem
    · exact Evr.not_older_self _
    · exact hlater v hmem

end Ranks

/-- Beside what is installed, a candidate is eligible just if it is not older. -/
theorem not_older_of_isEligible (hflags : flags.allowDowngrade = false) {p old : Package}
    (h : isEligible ix flags p) (hold : ix.installedAt? p.slot = some old) :
    ¬ p.evr.Older old.evr := by
  unfold isEligible at h
  rw [hold] at h
  dsimp only at h
  rw [hflags, Bool.false_or, Bool.not_eq_true', decide_eq_false_iff_not] at h
  exact h

theorem isEligible_of_installed {p old : Package} (hold : old ∈ ix.installedPackages)
    (hbuild : p.build = old.build) : isEligible ix flags p := by
  have hslot : p.slot = old.slot := congrArg Build.slot hbuild
  have hevr : p.evr = old.evr := congrArg Build.evr hbuild
  unfold isEligible
  rw [hslot, Index.mem_installedPackages_iff.1 hold]
  dsimp only
  rw [hevr, decide_eq_false (Evr.not_older_self _), Bool.not_false, Bool.or_true]

/-! ## What an installation asks for -/

/-- To put an installed build in place once more, or one of the ranked packages of a name. -/
def AsksToInstall (ix : Index) (flags : Flags) (visible : List Package) (task : Solver.Task) :
    Prop :=
  (∃ copy, task = .reinstall copy) ∨
    ∃ name candidates, task = .install candidates ∧
      Ranks ix flags (visible.filter fun p => p.name = name) candidates

theorem not_mem_fail {n : Numbered} {problem : Problem} {request : Solver.Request} :
    .request request ∉ (n.fail problem).value := by
  unfold Numbered.fail
  split
  · exact List.not_mem_nil
  · exact fun h => nomatch List.mem_singleton.1 h

theorem not_mem_advise {kind : ProblemKind} {p : Package} {message : String}
    {request : Solver.Request} : .request request ∉ Numbered.advise kind p message :=
  fun h => nomatch List.mem_singleton.1 h

variable {n : Numbered} {request : Solver.Request}

theorem task_of_mem_request {task : Solver.Task} (h : .request request ∈ n.request task) :
    request.task = task := by
  cases List.mem_singleton.1 h
  rfl

theorem exists_copy_of_mem_selectInstalled {old : Package}
    (h : .request request ∈ (n.selectInstalled ix old).value) :
    ∃ copy, request.task = .reinstall copy := by
  unfold Numbered.selectInstalled at h
  split at h
  · split at h
    · exact ⟨_, task_of_mem_request h⟩
    · exact absurd h not_mem_fail
  · exact absurd h not_mem_advise

theorem ranks_requestAmong {origin : Option String} {packages : List Package}
    (h : .request request ∈ n.requestAmong policy
      (sortByPreference origin (packages.filter (isEligible ix flags)))) :
    ∃ candidates, request.task = .install candidates ∧ Ranks ix flags packages candidates := by
  refine ⟨_, task_of_mem_request h, origin, ?_⟩
  split
  · exact ⟨_, (List.take_append_drop 1 _).symm⟩
  · exact ⟨[], (List.append_nil _).symm⟩

theorem asksToInstall_of_mem_selectName {visible : List Package} {name : String}
    (h : .request request ∈
      (n.selectName ix policy (visible.filter fun p => p.name = name)).value) :
    AsksToInstall ix n.job.flags visible request.task := by
  unfold Numbered.selectName at h
  dsimp only at h
  split at h
  · split at h
    · cases h
    · exact absurd h not_mem_advise
  · split at h
    · exact .inl (exists_copy_of_mem_selectInstalled h)
    · obtain ⟨candidates, htask, hranks⟩ := ranks_requestAmong h
      exact .inr ⟨name, candidates, htask, hranks⟩

/-- What comes of one job that installs. -/
theorem asksToInstall_of_mem_requests
    (h : request ∈ (selectAll ix policy [⟨.install, target, flags⟩]).value.requests) :
    AsksToInstall ix flags (lookUp ix target).visible request.task := by
  obtain ⟨j, hj, h⟩ := mem_requests_iff.1 h
  rw [List.mem_singleton.1 hj] at h
  unfold Numbered.select at h
  rw [if_neg Verb.noConfusion] at h
  dsimp only at h
  split at h
  · exact absurd h not_mem_fail
  · rw [if_pos rfl] at h
    unfold Numbered.selectInstall at h
    rw [Traced.value_bind, Traced.value_mapM] at h
    obtain ⟨findings, hfindings, h⟩ := List.mem_flatten.1 h
    obtain ⟨name, -, rfl⟩ := List.mem_map.1 hfindings
    exact asksToInstall_of_mem_selectName h

theorem AsksToInstall.stays {visible : List Package} {task : Solver.Task}
    (h : AsksToInstall ix flags visible task) (targets : List Package) : task ≠ .remove targets := by
  rcases h with ⟨copy, rfl⟩ | ⟨name, candidates, rfl, -⟩
  · exact Solver.Task.noConfusion
  · exact Solver.Task.noConfusion

theorem AsksToInstall.ranks {visible candidates : List Package}
    (h : AsksToInstall ix flags visible (.install candidates)) :
    ∃ name, Ranks ix flags (visible.filter fun p => p.name = name) candidates := by
  rcases h with ⟨copy, hcopy⟩ | ⟨name, others, htask, hranks⟩
  · cases hcopy
  · cases htask
    exact ⟨name, hranks⟩

/-! ## Items that take the place of others -/

/-- The item brings in a candidate, and the user asked for that. -/
structure IsChosen (g : Goal) (ix : Index) (i : Item) : Prop where
  inbound : i.action.isInbound
  reason : i.reason = .user
  candidate : ∃ request ∈ (selectAll ix g.policy g.jobs).value.requests, ∃ candidates,
    request.task = .install candidates ∧ i.package ∈ candidates

/-- The first item takes a package off for the one that the second brings in. -/
structure MakesRoomFor (r i : Item) : Prop where
  action : r.action = .replaced
  cause : r.replacedBy = some i.package

/-- The item brings in what takes the place of the package, in its slot or in another. -/
def TakesPlaceOf (items : List Item) (i : Item) (old : Package) : Prop :=
  i.replaces = some old ∨ ∃ r ∈ items, MakesRoomFor r i ∧ r.package = old

/-- No candidate is older than a package whose place it takes. -/
def LowersNone (g : Goal) (ix : Index) (items : List Item) : Prop :=
  ∀ i ∈ items, IsChosen g ix i → ∀ old, TakesPlaceOf items i old → ¬ i.package.evr.Older old.evr

variable {items : List Item} {outcome : Solver.Outcome}

theorem Solves.installed_of_isRemoval (h : g.Solves ix items outcome) {i : Item} (hi : i ∈ items)
    (hremoval : i.action.isRemoval) : i.package ∈ ix.installedPackages :=
  h.soundChanges.installed _
    (h.orders.mem_takenOff_iff.1 (Item.mem_takenOff_iff.2 ⟨i, hi, hremoval, rfl⟩))

section Install

variable (h : g.Solves ix items outcome) (hjobs : g.jobs = [⟨.install, target, flags⟩])

include h hjobs

/-- Whatever makes room for a candidate bears its name and was tried after it, if it was at all. -/
theorem Solves.chosenOver {i r : Item} (hi : i ∈ items) (hchosen : IsChosen g ix i) (hr : r ∈ items)
    (hroom : MakesRoomFor r i) :
    r.package.name = i.package.name ∧
      Solver.ChosenOver (selectAll ix g.policy g.jobs).value.requests i.package r.package.build := by
  have hstays : ∀ request ∈ (selectAll ix g.policy g.jobs).value.requests,
      ∀ targets, request.task ≠ .remove targets := by
    intro request hrequest
    rw [hjobs] at hrequest
    exact (asksToInstall_of_mem_requests hrequest).stays
  rcases h.found_or_swept hi with ⟨d, hd, position, rfl⟩ | ⟨hswept, -⟩
  · rcases h.found_or_swept hr with ⟨c, hc, place, rfl⟩ | ⟨hswept, -⟩
    · exact Solver.solve_replaced hstays h.solve hc hroom.action hroom.cause hd hchosen.reason
    · cases hroom.action.symm.trans hswept
  · have hinbound := hchosen.inbound
    rw [hswept] at hinbound
    cases hinbound

/-- In its own slot a candidate is not older than what was there. -/
theorem Solves.not_older_of_replaces (hflags : flags.allowDowngrade = false) {i : Item}
    (hi : i ∈ items) (hchosen : IsChosen g ix i) {old : Package} (hold : i.replaces = some old) :
    ¬ i.package.evr.Older old.evr := by
  obtain ⟨request, hrequest, candidates, htask, hp⟩ := hchosen.candidate
  rw [hjobs] at hrequest
  obtain ⟨name, hranks⟩ := (htask ▸ asksToInstall_of_mem_requests hrequest).ranks
  rcases h.leads hi with ⟨-, hnone⟩ | ⟨hreplaces, -⟩
  · rw [hold] at hnone
    cases hnone
  · exact not_older_of_isEligible hflags (hranks.mem hp).2 (hreplaces.symm.trans hold)

/-- In another slot it is not older than what was there if the job selects that, too. -/
theorem Solves.not_older_of_selected {i r : Item} (hi : i ∈ items) (hchosen : IsChosen g ix i)
    (hr : r ∈ items) (hroom : MakesRoomFor r i) {v : Package}
    (hv : v ∈ (lookUp ix target).visible) (hbuild : v.build = r.package.build) :
    ¬ i.package.evr.Older r.package.evr := by
  obtain ⟨hname, request, hrequest, refused, rest, htask, hrefused⟩ :=
    h.chosenOver hjobs hi hchosen hr hroom
  rw [hjobs] at hrequest
  obtain ⟨name, hranks⟩ := (htask ▸ asksToInstall_of_mem_requests hrequest).ranks
  have hown : i.package.name = name := by
    have hmem := (hranks.mem (List.mem_append_right refused List.mem_cons_self)).1
    exact of_decide_eq_true (List.mem_filter.1 hmem).2
  have hvname : v.name = name := by
    rw [← hown, ← hname]
    exact congrArg Build.name hbuild
  have hremoval : r.action.isRemoval := by
    rw [hroom.action]
    rfl
  -- Being installed, what the job selects was not left out, so it was a candidate of its name.
  have heligible : isEligible ix flags v :=
    isEligible_of_installed (h.installed_of_isRemoval hr hremoval) hbuild
  have hnot := hranks.not_older (List.mem_filter.2 ⟨hv, decide_eq_true hvname⟩) heligible
    fun q hq hsame => hrefused q hq (hsame.trans hbuild)
  rw [show r.package.evr = v.evr from congrArg Build.evr hbuild.symm]
  exact hnot

end Install

/--
An installation that may not lower versions lowers one only by displacing a newer build for another
architecture, and only one that the job does not select.
-/
theorem resolve_lowersNone_iff {advisories : List Problem}
    (hjobs : g.jobs = [⟨.install, target, flags⟩]) (hflags : flags.allowDowngrade = false)
    (h : (g.resolve ix).value = .ok (.solved items advisories)) :
    LowersNone g ix items ↔
      ∀ i ∈ items, IsChosen g ix i → ∀ r ∈ items, MakesRoomFor r i →
        (∀ v ∈ (lookUp ix target).visible, v.build ≠ r.package.build) →
          ¬ i.package.evr.Older r.package.evr := by
  obtain ⟨outcome, hsolves⟩ := resolve_cases h
  constructor
  · intro hlowers i hi hchosen r hr hroom _
    exact hlowers i hi hchosen r.package (.inr ⟨r, hr, hroom, rfl⟩)
  · rintro hunselected i hi hchosen old (hold | ⟨r, hr, hroom, rfl⟩)
    · exact hsolves.not_older_of_replaces hjobs hflags hi hchosen hold
    · by_cases hselected : ∃ v ∈ (lookUp ix target).visible, v.build = r.package.build
      · obtain ⟨v, hv, hbuild⟩ := hselected
        exact hsolves.not_older_of_selected hjobs hi hchosen hr hroom hv hbuild
      · exact hunselected i hi hchosen r hr hroom fun v hv hbuild => hselected ⟨v, hv, hbuild⟩

/-! ### One offer beside what is installed -/

def narrowOffer : Package := ⟨⟨"app", "x", ⟨0, "2", none⟩⟩, "base", none⟩

def sameArchitecture : Package := ⟨⟨"app", "x", ⟨0, "1", none⟩⟩, systemRepo, none⟩

def everyArchitecture : Package := ⟨⟨"app", "noarch", ⟨0, "3", none⟩⟩, systemRepo, none⟩

def narrowIndex (old : Package) : Index :=
  (({} : Index).addInstalled old {}).addOffered narrowOffer {}

def narrowGoal : Goal where
  jobs := [⟨.install, .pattern "app.x", {}⟩]

/-- The offer is newer than what is installed for its architecture. -/
def raisedItem : Item where
  package := narrowOffer
  action := .upgrade
  reason := .user
  position := 0
  replaces := some sameArchitecture

theorem resolve_lowersNone_raised :
    (narrowGoal.resolve (narrowIndex sameArchitecture)).value = .ok (.solved [raisedItem] []) ∧
      LowersNone narrowGoal (narrowIndex sameArchitecture) [raisedItem] := by
  have hresolve : (narrowGoal.resolve (narrowIndex sameArchitecture)).value =
      .ok (.solved [raisedItem] []) := by cbv
  refine ⟨hresolve, (resolve_lowersNone_iff rfl rfl hresolve).2 ?_⟩
  intro i hi hchosen r hr hroom
  cases List.mem_singleton.1 hr
  cases hroom.action

/-- It is older than what is installed for every architecture, and chosen all the same. -/
def loweredItem : Item where
  package := narrowOffer
  action := .install
  reason := .user
  position := 0

def displacedItem : Item where
  package := everyArchitecture
  action := .replaced
  reason := .dependency
  position := 1
  replacedBy := some narrowOffer

theorem isChosen_loweredItem : IsChosen narrowGoal (narrowIndex everyArchitecture) loweredItem where
  inbound := rfl
  reason := rfl
  candidate := by
    have hrequests : (selectAll (narrowIndex everyArchitecture) {} narrowGoal.jobs).value.requests.map
        (·.task) = [.install [narrowOffer]] := by cbv
    obtain ⟨request, hrequest, htask⟩ := List.mem_map.1
      (hrequests ▸ List.mem_cons_self : Solver.Task.install [narrowOffer] ∈ List.map _ _)
    exact ⟨request, hrequest, _, htask, List.mem_cons_self⟩

theorem not_all_lowersNone :
    ¬ ∀ (ix : Index) (g : Goal) (target : Target) (flags : Flags) (items : List Item)
      (advisories : List Problem),
      g.jobs = [⟨.install, target, flags⟩] → flags.allowDowngrade = false →
        (g.resolve ix).value = .ok (.solved items advisories) → LowersNone g ix items := by
  intro hall
  have hresolve : (narrowGoal.resolve (narrowIndex everyArchitecture)).value =
      .ok (.solved [loweredItem, displacedItem] []) := by cbv
  have hplace : TakesPlaceOf [loweredItem, displacedItem] loweredItem everyArchitecture :=
    .inr ⟨displacedItem, List.mem_cons_of_mem _ List.mem_cons_self, ⟨rfl, rfl⟩, rfl⟩
  refine hall _ _ _ _ _ _ rfl rfl hresolve _ List.mem_cons_self isChosen_loweredItem _ hplace ?_
  cbv

end Provision.Goal
