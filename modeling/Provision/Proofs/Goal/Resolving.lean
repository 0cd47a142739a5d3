import Mathlib
import Provision.Goal
import Provision.Proofs.Goal.Sweeping

/-!
# Resolution is sound

A goal is solved by the changes of an orderly model, with what sweeps take off besides, each carried
out by one item (`resolve_cases`). So the world after the transaction is sound towards what the
transaction brings in (`resolve_sound`).
-/

namespace Provision.Goal

open Solver

variable {g : Goal} {ix : Index}

theorem planChanges_cases {changes : List Change} {given advisories : List Problem}
    {items : List Item} (h : (planChanges ix changes given).value = .solved items advisories) :
    Plan.Orders items changes := by
  unfold planChanges at h
  split at h
  · cases h
  · rw [Traced.value_bind] at h
    rcases hplan : (Plan.ofChanges ix changes).value with problem | plan
    · rw [hplan] at h
      cases h
    · rw [hplan] at h
      cases h
      exact Plan.orders_of_ofChanges hplan

/-- Changes in different slots can be planned unless there is nothing to do but to say so. -/
theorem exists_planChanges (ix : Index) {changes : List Change} {given : List Problem}
    (hnodup : (changes.map (·.package.slot)).Nodup) (hidle : changes = [] → given = []) :
    ∃ items advisories, (planChanges ix changes given).value = .solved items advisories := by
  obtain ⟨plan, hplan⟩ := Plan.ofChanges_of_nodup ix hnodup
  unfold planChanges
  split
  · rename_i hempty
    rw [Bool.and_eq_true, List.isEmpty_iff, Bool.not_eq_true', List.isEmpty_eq_false_iff] at hempty
    exact absurd (hidle hempty.1) hempty.2
  · rw [Traced.value_bind, hplan]
    exact ⟨_, _, rfl⟩

/-! ## From the outcome of the search on -/

/-- The changes that a goal has planned when the search comes to an outcome. -/
def toBePlanned (g : Goal) (ix : Index) (outcome : Solver.Outcome) : List Change :=
  (sweepAll ix g.policy.protectedNames outcome.changes g.cleaningJobs).value

/-- The problems that keep a goal from being planned at all. -/
def obstacles (g : Goal) (ix : Index) (outcome : Solver.Outcome) : List Problem :=
  Problem.insertAll
    (Problem.insertAll (selectAll ix g.policy g.jobs).value.problems outcome.problems)
    (g.protectedProblems outcome.changes)

def SearchEnds (g : Goal) (ix : Index) (outcome : Solver.Outcome) : Prop :=
  (Solver.solve ix g.policy.solver (selectAll ix g.policy g.jobs).value.requests).value =
    .ok outcome

theorem obstacles_eq_nil_iff {outcome : Solver.Outcome} :
    g.obstacles ix outcome = [] ↔ ((selectAll ix g.policy g.jobs).value.problems = [] ∧
      outcome.problems = []) ∧ g.protectedProblems outcome.changes = [] := by
  unfold obstacles
  rw [Problem.insertAll_eq_nil_iff, Problem.insertAll_eq_nil_iff]

theorem exists_searchEnds {resolution : Resolution} (h : (g.resolve ix).value = .ok resolution) :
    ∃ outcome, g.SearchEnds ix outcome := by
  unfold resolve at h
  rw [Traced.value_bind, Traced.value_bind, Traced.value_bind] at h
  rcases hsolve : (Solver.solve ix g.policy.solver
    (selectAll ix g.policy g.jobs).value.requests).value with unfinished | outcome
  · rw [hsolve] at h
    cases h
  · exact ⟨outcome, hsolve⟩

/-- A goal that nothing keeps from being planned is planned. -/
theorem resolve_of_searchEnds {outcome : Solver.Outcome} (hends : g.SearchEnds ix outcome)
    (hobstacles : g.obstacles ix outcome = []) :
    (g.resolve ix).value = .ok (planChanges ix (g.toBePlanned ix outcome)
      (selectAll ix g.policy g.jobs).value.advisories).value := by
  unfold SearchEnds at hends
  unfold obstacles at hobstacles
  unfold resolve
  rw [Traced.value_bind, Traced.value_bind, Traced.value_bind, hends]
  dsimp only
  rw [hobstacles, List.isEmpty_nil, if_pos rfl]
  rfl

theorem resolve_of_obstacles {outcome : Solver.Outcome} (hends : g.SearchEnds ix outcome)
    (hobstacles : g.obstacles ix outcome ≠ []) :
    (g.resolve ix).value = .ok (.unsolved (g.obstacles ix outcome ++
      (selectAll ix g.policy g.jobs).value.advisories)) := by
  unfold SearchEnds at hends
  unfold obstacles at hobstacles
  unfold resolve
  rw [Traced.value_bind, Traced.value_bind, Traced.value_bind, hends]
  dsimp only
  rw [if_neg fun hempty => hobstacles (List.isEmpty_iff.1 hempty)]
  rfl

/-! ## Solved goals -/

/-- What a solved goal has come from. -/
structure Solves (g : Goal) (ix : Index) (items : List Item) (outcome : Solver.Outcome) : Prop where
  solve : (Solver.solve ix g.policy.solver (selectAll ix g.policy g.jobs).value.requests).value =
    .ok outcome
  selected : (selectAll ix g.policy g.jobs).value.problems = []
  accepted : outcome.problems = []
  unprotected : g.protectedProblems outcome.changes = []
  orders : Plan.Orders items
    (sweepAll ix g.policy.protectedNames outcome.changes g.cleaningJobs).value

theorem resolve_cases {items : List Item} {advisories : List Problem}
    (h : (g.resolve ix).value = .ok (.solved items advisories)) :
    ∃ outcome, g.Solves ix items outcome := by
  obtain ⟨outcome, hends⟩ := exists_searchEnds h
  by_cases hobstacles : g.obstacles ix outcome = []
  · rw [resolve_of_searchEnds hends hobstacles] at h
    obtain ⟨⟨hselected, haccepted⟩, hunprotected⟩ := obstacles_eq_nil_iff.1 hobstacles
    exact ⟨outcome, hends, hselected, haccepted, hunprotected, planChanges_cases (Except.ok.inj h)⟩
  · rw [resolve_of_obstacles hends hobstacles] at h
    cases h

namespace Solves

variable {items : List Item} {outcome : Solver.Outcome} (h : g.Solves ix items outcome)

include h

theorem exists_model :
    ∃ m, outcome.changes = (Scope.ofIndex ix g.policy.solver).changes m ∧
      (Scope.ofIndex ix g.policy.solver).Orderly (selectAll ix g.policy g.jobs).value.requests
        m := by
  obtain ⟨m, hrun, hchanges⟩ := solve_cases h.solve
  exact ⟨m, hchanges, (performAll_orderly hrun).1⟩

theorem soundChanges :
    SoundChanges ix
      (sweepAll ix g.policy.protectedNames outcome.changes g.cleaningJobs).value := by
  obtain ⟨m, hchanges, hm⟩ := h.exists_model
  refine sweepAll_sound ?_ _ _
  rw [hchanges]
  refine ⟨sound_changes hm, fun p hp => ?_⟩
  rw [Scope.mem_takenOff_changes_iff Scope.slot_installed_ofIndex, Scope.installed_ofIndex] at hp
  exact Index.mem_installedPackages_iff.2 hp.1

/-- Sweeps take off only, so what the items bring in is what the search has brought in. -/
theorem mem_broughtIn_iff {p : Package} :
    p ∈ Item.broughtIn items ↔ p ∈ Change.broughtIn outcome.changes := by
  rw [h.orders.mem_broughtIn_iff, broughtIn_sweepAll]

/-- The search has found the change that an item makes, or a sweep takes its package off. -/
theorem found_or_swept {i : Item} (hi : i ∈ items) :
    (∃ c ∈ outcome.changes, ∃ position, i = .ofChange position c) ∨
      i.action = .remove ∧ i.replaces = none := by
  obtain ⟨c, hc, position, rfl⟩ := h.orders.of_mem i hi
  rcases mem_sweepAll c hc with hc | ⟨job, p, rfl⟩
  · exact .inl ⟨c, hc, position, rfl⟩
  · exact .inr ⟨rfl, rfl⟩

/-- An item takes off, in the place of nothing, or it brings in, in the place of what is there. -/
theorem leads {i : Item} (hi : i ∈ items) :
    i.action.isRemoval ∧ i.replaces = none ∨
      i.replaces = ix.installedAt? i.package.slot ∧
        ∃ m, (Scope.ofIndex ix g.policy.solver).Arrival m i.package i.action := by
  obtain ⟨m, hchanges, -⟩ := h.exists_model
  rcases h.found_or_swept hi with ⟨c, hc, position, rfl⟩ | ⟨haction, hreplaces⟩
  · rw [hchanges] at hc
    rcases Scope.mem_changes_iff.1 hc with ⟨p, -, hchange⟩ | ⟨p, -, hchange⟩
    · obtain ⟨rfl, hreplaces, harrival⟩ := Scope.inbound?_eq_some hchange
      rw [Scope.installed_ofIndex] at hreplaces
      exact .inr ⟨hreplaces, m, harrival⟩
    · have hdeparture := Scope.removal?_eq_some hchange
      exact .inl ⟨hdeparture.isRemoval, hdeparture.replaces⟩
  · refine .inl ⟨?_, hreplaces⟩
    rw [haction]
    rfl

end Solves

/--
After a solved transaction everything brought in has what it requires, everything left alone keeps
what it had, and nothing brought in conflicts with or obsoletes what else is there.
-/
theorem resolve_sound {items : List Item} {advisories : List Problem}
    (h : (g.resolve ix).value = .ok (.solved items advisories)) :
    ix.Sound (Item.broughtIn items) (ix.worldAfter items) := by
  obtain ⟨outcome, hsolves⟩ := resolve_cases h
  exact hsolves.soundChanges.sound.congr (fun p => hsolves.orders.mem_broughtIn_iff)
    fun p => Index.mem_worldAfter_iff hsolves.orders

/-! ## An exchange -/

def samplePackage (name repo : String) : Package := ⟨⟨name, "noarch", ⟨0, "1", none⟩⟩, repo, none⟩

/-- A tool, a library, and an offer of an application that requires the library. -/
def sampleIndex : Index :=
  ((({} : Index).addInstalled (samplePackage "lib" systemRepo) {}).addInstalled
    (samplePackage "old" systemRepo) {}).addOffered (samplePackage "app" "base")
    { requires := [⟨"lib", .any⟩] }

def sampleGoal : Goal where
  jobs := [⟨.install, .pattern "app", {}⟩, ⟨.remove, .pattern "old", {}⟩]

def sampleItems : List Item :=
  [{ package := samplePackage "app" "base", action := .install, reason := .user, position := 0 },
    { package := samplePackage "old" systemRepo, action := .remove, reason := .user, position := 1 }]

theorem resolve_sample : (sampleGoal.resolve sampleIndex).value = .ok (.solved sampleItems []) := by
  cbv

theorem resolve_sound_sample :
    sampleIndex.Sound (Item.broughtIn sampleItems) (sampleIndex.worldAfter sampleItems) :=
  resolve_sound resolve_sample

end Provision.Goal
