import Provision.Proofs.Goal.Resolving
import Provision.Proofs.Goal.Selecting

/-!
# What is hidden is not brought in

Selection looks up hidden offers too, and lets those of an installed build be candidates; the search
may choose any installed package. Neither is ever brought in: a build is put into a slot only if the
slot held another one, so a build that is brought in is not installed, and all that may be named of
such a build is what a repository shows. What is put in place once more comes from an offer that is
shown as well (`Solves.shows`).
-/

namespace Provision.Goal

open Solver

variable {g : Goal} {ix : Index} {items : List Item} {outcome : Solver.Outcome} {p : Package}

/-- What is chosen comes from what may be named. -/
theorem admits_of_supply
    (h : (Scope.ofIndex ix g.policy.solver).Supply (selectAll ix g.policy g.jobs).value.requests
      p) : ix.Admits p := by
  rcases h with hchoice | ⟨request, hrequest, candidates, htask, hp⟩
  · exact Index.admits_of_mem_query rfl hchoice
  · have hadmitted := selectAll_admitted hrequest
    rw [htask] at hadmitted
    exact hadmitted p hp

/-- What a solved goal brings in is offered and not hidden. -/
theorem Solves.shows (h : g.Solves ix items outcome) (hp : p ∈ Change.broughtIn outcome.changes) :
    ix.Shows p := by
  obtain ⟨m, hchanges, hm⟩ := h.exists_model
  rw [hchanges, Scope.mem_broughtIn_changes_iff hm.disciplined.keyed] at hp
  obtain ⟨hpresent, hchanged⟩ := hp
  cases hm.disciplined.origin p.slot p hpresent with
  | left hold hunmarked =>
    rw [Scope.isChanged_of_left hpresent hold hunmarked] at hchanged
    cases hchanged
  | chosen hsupply hnew =>
    refine (admits_of_supply hsupply).shows fun hinstalled => ?_
    obtain ⟨old, hold, hbuild⟩ := Index.isInstalled_iff.1 hinstalled
    rw [Index.mem_installedPackages_iff, ← Scope.installed_ofIndex ix g.policy.solver,
      show old.slot = p.slot from congrArg Build.slot hbuild] at hold
    exact hnew old hold hbuild
  | again hrequest htask _ =>
    have hadmitted := selectAll_admitted hrequest
    rw [htask] at hadmitted
    exact hadmitted.1

/--
Whatever the index hides and the jobs ask for: each package that a transaction brings in, with
whichever action, is offered by a repository, and none of the globs hides it.
-/
theorem resolve_shows {advisories : List Problem}
    (h : (g.resolve ix).value = .ok (.solved items advisories)) {i : Item} (hi : i ∈ items)
    (hinbound : i.action.isInbound) :
    i.package ∈ ix.offeredPackages ∧ ix.isExcluded i.package.build = false := by
  obtain ⟨outcome, hsolves⟩ := resolve_cases h
  have hbrought : i.package ∈ Item.broughtIn items :=
    Item.mem_broughtIn_iff.2 ⟨i, hi, hinbound, rfl⟩
  have hshows := hsolves.shows (hsolves.mem_broughtIn_iff.1 hbrought)
  exact ⟨hshows.offered, hshows.visible⟩

/-! ### An upgrade past a hidden build -/

def versionOf (name version repo : String) : Package :=
  ⟨⟨name, "noarch", ⟨0, version, none⟩⟩, repo, none⟩

/-- Of the two offers that are newer than what is installed, the newest is hidden. -/
def hidingIndex : Index :=
  { (((({} : Index).addInstalled (versionOf "app" "1" systemRepo) {}).addOffered
    (versionOf "app" "1" "base") {}).addOffered (versionOf "app" "2" "base") {}).addOffered
    (versionOf "app" "3" "base") {} with excludes := [.ofText "app-1", .ofText "app-3"] }

def hidingGoal : Goal where
  jobs := [⟨.upgrade, .pattern "app", {}⟩]

def hidingItems : List Item :=
  [{ package := versionOf "app" "2" "base", action := .upgrade, reason := .user, position := 0,
     replaces := some (versionOf "app" "1" systemRepo) }]

theorem resolve_shows_hiding :
    (hidingGoal.resolve hidingIndex).value = .ok (.solved hidingItems []) ∧
      ∀ i ∈ hidingItems, i.action.isInbound →
        i.package ∈ hidingIndex.offeredPackages ∧
          hidingIndex.isExcluded i.package.build = false := by
  have hresolve : (hidingGoal.resolve hidingIndex).value = .ok (.solved hidingItems []) := by cbv
  exact ⟨hresolve, fun i hi hinbound => resolve_shows hresolve hi hinbound⟩

end Provision.Goal
