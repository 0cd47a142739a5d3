import Mathlib
import Provision.Proofs.Goal.Resolving

/-!
# Protected packages stay

A package can be taken off because a job asks for it, because it depends on what goes, conflicts
with or is obsoleted by what comes, makes room for a build of its name, or is left as an orphan. All
these ways end in two places. Removals by the search are looked through before anything is planned, and
each one of a protected package is a problem of its own (`mem_protectedProblems`), which no other
problem hides (`exists_problem_of_removal`). Sweeps come later, but pass over protected names
(`name_of_mem_sweepAll`). So a plan removes nothing of a protected name, and what fills the slot of
a protected package has that name as well (`protected_stay`).
-/

namespace Provision.Goal

variable {g : Goal} {ix : Index}

/-! ## Removals by the search -/

theorem mem_protectedProblems {changes : List Change} {c : Change} (hc : c ∈ changes)
    (hremoval : c.action.isRemoval) (hname : c.package.name ∈ g.policy.protectedNames) :
    g.protectedProblem c ∈ g.protectedProblems changes := by
  refine List.mem_map_of_mem (List.mem_filter.2 ⟨hc, ?_⟩)
  rw [Bool.and_eq_true, List.contains_iff_mem]
  exact ⟨hremoval, hname⟩

/-- Changes without a problem about protected packages remove none. -/
theorem name_of_protectedProblems_eq_nil {changes : List Change}
    (h : g.protectedProblems changes = []) {c : Change} (hc : c ∈ changes)
    (hremoval : c.action.isRemoval) : c.package.name ∉ g.policy.protectedNames := by
  intro hname
  have hmem := mem_protectedProblems hc hremoval hname
  rw [h] at hmem
  cases hmem

/-- A goal whose search removes a protected package is not solved, and a problem says so. -/
theorem exists_problem_of_removal {outcome : Solver.Outcome}
    (hsolve : (Solver.solve ix g.policy.solver
      (selectAll ix g.policy g.jobs).value.requests).value = .ok outcome) {c : Change}
    (hc : c ∈ outcome.changes) (hremoval : c.action.isRemoval)
    (hname : c.package.name ∈ g.policy.protectedNames) :
    ∃ problems, (g.resolve ix).value = .ok (.unsolved problems) ∧
      ∃ problem ∈ problems, problem.Same (g.protectedProblem c) := by
  have hmem := mem_protectedProblems hc hremoval hname
  have hobstacles : g.obstacles ix outcome ≠ [] := by
    intro hnil
    rw [(obstacles_eq_nil_iff.1 hnil).2] at hmem
    cases hmem
  obtain ⟨problem, hproblem, hsame⟩ := Problem.exists_same_insertAll hmem
  exact ⟨_, resolve_of_obstacles hsolve hobstacles, problem, List.mem_append_left _ hproblem, hsame⟩

/-! ## Removals by sweeps -/

/-- Whatever it is that a sweep asks about, it takes nothing of a protected name. -/
theorem Sweep.Runs.unprotected {touched : List Slot} {names : List String} {w : Sweep}
    {swept : List Package} (h : w.Runs ix touched names swept) : ∀ p ∈ swept, p.name ∉ names := by
  induction h with
  | stop w => exact nofun
  | @take w next p rest htakes _ ih =>
    intro q hq
    rcases List.mem_cons.1 hq with rfl | hq
    · exact htakes.unprotected
    · exact ih q hq

/-- What the sweeps add to the changes is of no protected name. -/
theorem name_of_mem_sweepAll {names : List String} {changes : List Change} {jobs : List Nat} :
    ∀ c ∈ (sweepAll ix names changes jobs).value, c ∈ changes ∨ c.package.name ∉ names := by
  refine sweepAll_keeps (motive := fun cs => ∀ c ∈ cs, c ∈ changes ∨ c.package.name ∉ names)
    (fun c hc => .inl hc) fun before hbefore job _ swept hruns c hc => ?_
  rcases List.mem_append.1 hc with hc | hc
  · exact hbefore c hc
  · obtain ⟨p, hp, rfl⟩ := List.mem_map.1 hc
    exact .inr (hruns.unprotected p hp)

/-! ## Solved goals -/

namespace Solves

variable {items : List Item} {outcome : Solver.Outcome} (h : g.Solves ix items outcome)

include h

theorem name_of_isRemoval {i : Item} (hi : i ∈ items) (hremoval : i.action.isRemoval) :
    i.package.name ∉ g.policy.protectedNames := by
  obtain ⟨c, hc, position, rfl⟩ := h.orders.of_mem i hi
  rcases name_of_mem_sweepAll c hc with hc | hname
  · exact name_of_protectedProblems_eq_nil h.unprotected hc hremoval
  · exact hname

/-- An installed package that is not taken off stays or makes room for another of its slot. -/
theorem exists_mem_worldAfter {p : Package} (hp : p ∈ ix.installedPackages)
    (hname : p.name ∈ g.policy.protectedNames) : ∃ q ∈ ix.worldAfter items, q.slot = p.slot := by
  by_cases hfree : ∀ q ∈ Item.broughtIn items, q.slot ≠ p.slot
  · refine ⟨p, Index.mem_exchange_iff.2 (.inl ⟨hp, fun htaken => ?_, hfree⟩), rfl⟩
    obtain ⟨i, hi, hremoval, rfl⟩ := Item.mem_takenOff_iff.1 htaken
    exact h.name_of_isRemoval hi hremoval hname
  · push Not at hfree
    obtain ⟨q, hq, hslot⟩ := hfree
    exact ⟨q, Index.mem_exchange_iff.2 (.inr hq), hslot⟩

end Solves

/--
A plan removes no package of a protected name, and the slot of every such package stays taken. If
the search removes one all the same, there is no plan, and a problem names the build, whatever other
problems there are.
-/
theorem protected_stay (g : Goal) (ix : Index) :
    (∀ items advisories, (g.resolve ix).value = .ok (.solved items advisories) →
      (∀ i ∈ items, i.action.isRemoval → i.package.name ∉ g.policy.protectedNames) ∧
      ∀ p ∈ ix.installedPackages, p.name ∈ g.policy.protectedNames →
        ∃ q ∈ ix.worldAfter items, q.slot = p.slot) ∧
    ∀ outcome,
      (Solver.solve ix g.policy.solver (selectAll ix g.policy g.jobs).value.requests).value =
        .ok outcome →
      ∀ c ∈ outcome.changes, c.action.isRemoval → c.package.name ∈ g.policy.protectedNames →
        ∃ problems, (g.resolve ix).value = .ok (.unsolved problems) ∧
          ∃ problem ∈ problems, problem.kind = .protectedPackage ∧
            problem.implicated.map Package.build = [c.package.build] := by
  constructor
  · intro items advisories hresolve
    obtain ⟨outcome, hsolves⟩ := resolve_cases hresolve
    exact ⟨fun i hi => hsolves.name_of_isRemoval hi, fun p hp => hsolves.exists_mem_worldAfter hp⟩
  · intro outcome hsolve c hc hremoval hname
    obtain ⟨problems, hresolve, problem, hproblem, hkind, hbuilds, -⟩ :=
      exists_problem_of_removal hsolve hc hremoval hname
    exact ⟨problems, hresolve, problem, hproblem, hkind, hbuilds⟩

/-! ## A protected orphan -/

/-- An application and a library that was installed on its account. -/
def guardedIndex : Index :=
  (({} : Index).addInstalled (samplePackage "app" systemRepo)
    { requires := [⟨"lib", .any⟩] }).addInstalled (samplePackage "lib" systemRepo)
    { reason := some .dependency }

/-- The application is to go, and nobody else needs the library. -/
def tidyGoal : Goal where
  jobs := [⟨.remove, .pattern "app", { cleanDeps := true }⟩]
  policy := { protectedNames := ["lib"] }

def tidyItems : List Item :=
  [{ package := samplePackage "app" systemRepo, action := .remove, reason := .user, position := 0 }]

/-- The library is to go, beside a job that fails for another reason. -/
def carelessGoal : Goal where
  jobs := [⟨.install, .pattern "nope", {}⟩, ⟨.remove, .pattern "lib", {}⟩]
  policy := { protectedNames := ["lib"] }

def libraryRemoval : Change where
  package := samplePackage "lib" systemRepo
  action := .remove
  reason := .user
  job := some 1

def carelessOutcome : Solver.Outcome where
  changes :=
    [{ package := samplePackage "app" systemRepo, action := .remove, reason := .dependency
       job := some 1 }, libraryRemoval]
  problems := []

theorem resolve_tidy : (tidyGoal.resolve guardedIndex).value = .ok (.solved tidyItems []) := by
  cbv

theorem solve_careless :
    (Solver.solve guardedIndex carelessGoal.policy.solver
      (selectAll guardedIndex carelessGoal.policy carelessGoal.jobs).value.requests).value =
      .ok carelessOutcome := by
  cbv

theorem protected_stay_orphan :
    ("app" ∉ tidyGoal.policy.protectedNames ∧
      ∃ q ∈ guardedIndex.worldAfter tidyItems, q.slot = (samplePackage "lib" systemRepo).slot) ∧
    ∃ problems, (carelessGoal.resolve guardedIndex).value = .ok (.unsolved problems) ∧
      ∃ problem ∈ problems, problem.kind = .protectedPackage ∧
        problem.implicated.map Package.build = [libraryRemoval.package.build] := by
  have hplan := (protected_stay tidyGoal guardedIndex).1 tidyItems [] resolve_tidy
  have hinstalled : samplePackage "lib" systemRepo ∈ guardedIndex.installedPackages := by
    rw [Index.mem_installedPackages_iff]
    cbv
  refine ⟨⟨hplan.1 _ List.mem_cons_self rfl, hplan.2 _ hinstalled List.mem_cons_self⟩, ?_⟩
  exact (protected_stay carelessGoal guardedIndex).2 carelessOutcome solve_careless libraryRemoval
    (List.mem_cons_of_mem _ List.mem_cons_self) rfl List.mem_cons_self

end Provision.Goal
