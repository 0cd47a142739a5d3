import Mathlib
import Provision.Proofs.Goal.Resolving

/-!
# Changes keep out of each other's way

The search leaves one change in a slot at most. A sweep looks at what is installed and at what comes
in, where a slot that is about to change stands twice, with the old build and the new one; but it
passes over every slot that a change touches (`start_exclusive`). So what it takes off is in slots of
its own (`Sweep.Runs.exclusive`), and so is what the sweeps after it take off, to whom its removals are
changes like all others (`nodup_sweepAll`). A goal therefore never fails because changes are in one
slot, and no plan has two items for one (`resolve_exclusive`).
-/

namespace Provision.Goal

variable {g : Goal} {ix : Index}

/-! ## One sweep -/

/-- No slot stands twice among the packages that a sweep asks about unless a change touches it. -/
def Sweep.Exclusive (touched : List Slot) (w : Sweep) : Prop :=
  w.present.Pairwise fun p q => p.slot = q.slot → p.slot ∈ touched

/-- By induction on the sweep: each package taken leaves the others of the list behind. -/
theorem Sweep.Runs.exclusive {touched : List Slot} {names : List String} {w : Sweep}
    {swept : List Package} (h : w.Runs ix touched names swept) (hw : w.Exclusive touched) :
    (swept.map Package.slot).Nodup ∧ ∀ p ∈ swept, p ∈ w.present ∧ p.slot ∉ touched := by
  induction h with
  | stop w => exact ⟨List.nodup_nil, nofun⟩
  | @take w next p rest htakes _ ih =>
    have hsymm {p q : Package} (h : p.slot = q.slot → p.slot ∈ touched) (hslot : q.slot = p.slot) :
        q.slot ∈ touched := hslot ▸ h hslot.symm
    obtain ⟨hothers, hleft⟩ :=
      List.pairwise_cons.1 ((htakes.perm.pairwise_iff fun {_ _} => hsymm).2 hw)
    obtain ⟨hnodup, hrest⟩ := ih hleft
    constructor
    · rw [List.map_cons, List.nodup_cons, List.mem_map]
      refine ⟨?_, hnodup⟩
      rintro ⟨q, hq, hslot⟩
      exact htakes.untouched (hothers q (hrest q hq).1 hslot.symm)
    · intro q hq
      rcases List.mem_cons.1 hq with rfl | hq
      · exact ⟨htakes.perm.subset List.mem_cons_self, htakes.untouched⟩
      · exact ⟨htakes.perm.subset (List.mem_cons_of_mem p (hrest q hq).1), (hrest q hq).2⟩

/-- What is installed has a slot of its own, and what comes in is in a slot that a change touches. -/
theorem start_exclusive (changes : List Change) (job : Nat) :
    (Sweep.start ix changes job).Exclusive (changes.map (·.package.slot)) := by
  have hside : ({ side := some .installed } : Filter).side = some .installed := rfl
  have hinstalled : (ix.query { side := some .installed }).Pairwise fun p q =>
      p.slot = q.slot → p.slot ∈ changes.map (·.package.slot) := by
    refine (Index.nodup_query_installed hside).imp_of_mem fun hp hq hne hslot => ?_
    have hp := ((Index.mem_query_installed_iff hside).1 hp).2
    have hq := ((Index.mem_query_installed_iff hside).1 hq).2
    exact absurd (Index.installed_unique hp hq hslot) hne
  have hinbound (q : Package) (hq : q ∈ (changes.filter (·.action.isInbound)).map Change.package) :
      q.slot ∈ changes.map (·.package.slot) := by
    obtain ⟨c, hc, rfl⟩ := List.mem_map.1 hq
    exact List.mem_map_of_mem (List.mem_filter.1 hc).1
  unfold Sweep.Exclusive Sweep.start
  refine List.pairwise_append.2 ⟨hinstalled.filter _, ?_, fun p _ q hq hslot => ?_⟩
  · exact List.pairwise_of_forall_mem_list fun p hp q _ _ => hinbound p hp
  · rw [hslot]
    exact hinbound q hq

/-! ## All sweeps -/

theorem nodup_sweep {names : List String} {job : Nat} {changes : List Change}
    {swept : List Package} (h : (changes.map (·.package.slot)).Nodup)
    (hruns : (Sweep.start ix changes job).Runs ix (changes.map (·.package.slot)) names swept) :
    ((changes ++ swept.map (sweptChange job)).map (·.package.slot)).Nodup := by
  obtain ⟨hnodup, hfree⟩ := hruns.exclusive (start_exclusive changes job)
  have hslots : (swept.map (sweptChange job)).map (·.package.slot) = swept.map Package.slot := by
    rw [List.map_map]
    rfl
  rw [List.map_append, hslots, List.nodup_append]
  refine ⟨h, hnodup, fun slot hslot other hother heq => ?_⟩
  obtain ⟨p, hp, rfl⟩ := List.mem_map.1 hother
  exact (hfree p hp).2 (heq ▸ hslot)

/-- Sweeps leave one change in a slot if there was no more than that before them. -/
theorem nodup_sweepAll (names : List String) (jobs : List Nat) {changes : List Change}
    (h : (changes.map (·.package.slot)).Nodup) :
    ((sweepAll ix names changes jobs).value.map (·.package.slot)).Nodup :=
  sweepAll_keeps (motive := fun cs => (cs.map (·.package.slot)).Nodup) h
    fun _ hbefore _ _ _ hruns => nodup_sweep hbefore hruns

/-! ## Goals -/

theorem nodup_toBePlanned {outcome : Solver.Outcome} (h : g.SearchEnds ix outcome) :
    ((g.toBePlanned ix outcome).map (·.package.slot)).Nodup := by
  obtain ⟨m, hrun, hchanges⟩ := Solver.solve_cases h
  refine nodup_sweepAll _ _ ?_
  rw [hchanges]
  exact Solver.Scope.nodup_changes (Solver.performAll_orderly hrun).1.disciplined.keyed
    Solver.Scope.slot_installed_ofIndex

/-- Why a goal has no plan: what stood in its way before planning, or that there is nothing to do. -/
inductive Declines (g : Goal) (ix : Index) : List Problem → Prop
  | blocked {outcome : Solver.Outcome} (hends : g.SearchEnds ix outcome)
      (hobstacles : g.obstacles ix outcome ≠ []) :
      Declines g ix (g.obstacles ix outcome ++ (selectAll ix g.policy g.jobs).value.advisories)
  | idle {outcome : Solver.Outcome} (hends : g.SearchEnds ix outcome)
      (hobstacles : g.obstacles ix outcome = []) (hnothing : g.toBePlanned ix outcome = []) :
      Declines g ix (selectAll ix g.policy g.jobs).value.advisories

theorem declines_of_unsolved {problems : List Problem}
    (h : (g.resolve ix).value = .ok (.unsolved problems)) : g.Declines ix problems := by
  obtain ⟨outcome, hends⟩ := exists_searchEnds h
  by_cases hobstacles : g.obstacles ix outcome = []
  · rw [resolve_of_searchEnds hends hobstacles] at h
    have hplan := Except.ok.inj h
    by_cases hidle : g.toBePlanned ix outcome = [] →
        (selectAll ix g.policy g.jobs).value.advisories = []
    · obtain ⟨items, advisories, hsolved⟩ := exists_planChanges ix (nodup_toBePlanned hends) hidle
      rw [hsolved] at hplan
      cases hplan
    · obtain ⟨hnothing, hadvised⟩ := Classical.not_imp.1 hidle
      have hunsolved : planChanges ix (g.toBePlanned ix outcome)
          (selectAll ix g.policy g.jobs).value.advisories =
            pure (.unsolved (selectAll ix g.policy g.jobs).value.advisories) := by
        unfold planChanges
        rw [hnothing, List.isEmpty_nil, Bool.true_and, if_pos]
        simpa using hadvised
      rw [hunsolved] at hplan
      cases hplan
      exact .idle hends hobstacles hnothing
  · rw [resolve_of_obstacles hends hobstacles] at h
    cases h
    exact .blocked hends hobstacles

/--
The changes of a search and of all sweeps after it are in different slots, so they can be planned. A
goal without a plan was stopped before planning or has nothing to do, and the items of a plan are in
different slots.
-/
theorem resolve_exclusive (g : Goal) (ix : Index) :
    (∀ outcome, g.SearchEnds ix outcome →
      ((g.toBePlanned ix outcome).map (·.package.slot)).Nodup ∧
      ∃ plan, (Plan.ofChanges ix (g.toBePlanned ix outcome)).value = .ok plan) ∧
    (∀ problems, (g.resolve ix).value = .ok (.unsolved problems) → g.Declines ix problems) ∧
    ∀ items advisories, (g.resolve ix).value = .ok (.solved items advisories) →
      (items.map (·.package.slot)).Nodup := by
  refine ⟨fun outcome hends => ?_, fun problems => declines_of_unsolved, ?_⟩
  · have hnodup := nodup_toBePlanned hends
    exact ⟨hnodup, Plan.ofChanges_of_nodup ix hnodup⟩
  · intro items advisories hsolved
    obtain ⟨outcome, hsolves⟩ := resolve_cases hsolved
    exact hsolves.orders.nodup

/-! ## Two removals that clean up, and nothing to do -/

/-- An application and a library that was installed on its account. -/
def orphanIndex : Index :=
  (({} : Index).addInstalled (samplePackage "app" systemRepo)
    { requires := [⟨"lib", .any⟩] }).addInstalled (samplePackage "lib" systemRepo)
    { reason := some .dependency }

/-- Two jobs take the application off, and both would take the library along. -/
def clearingGoal : Goal where
  jobs := [⟨.remove, .pattern "app", { cleanDeps := true }⟩,
    ⟨.remove, .pattern "a*", { cleanDeps := true }⟩]

def clearingItems : List Item :=
  [{ package := samplePackage "app" systemRepo, action := .remove, reason := .user, position := 0 },
    { package := samplePackage "lib" systemRepo, action := .remove, reason := .clean, position := 1 }]

/-- The library is to be installed, as it is. -/
def idleGoal : Goal where
  jobs := [⟨.install, .pattern "lib", {}⟩]

def idleProblems : List Problem :=
  [⟨.alreadyInstalled, [samplePackage "lib" systemRepo], "Package lib-1.noarch is already installed."⟩]

theorem resolve_clearing :
    (clearingGoal.resolve orphanIndex).value = .ok (.solved clearingItems []) := by
  cbv

theorem resolve_idle : (idleGoal.resolve orphanIndex).value = .ok (.unsolved idleProblems) := by
  cbv

theorem resolve_exclusive_clearing :
    (clearingItems.map (·.package.slot)).Nodup ∧
    (∃ outcome, clearingGoal.SearchEnds orphanIndex outcome ∧
      ((clearingGoal.toBePlanned orphanIndex outcome).map (·.package.slot)).Nodup) ∧
    idleGoal.Declines orphanIndex idleProblems := by
  have hclearing := resolve_exclusive clearingGoal orphanIndex
  obtain ⟨outcome, hsolves⟩ := resolve_cases resolve_clearing
  refine ⟨hclearing.2.2 clearingItems [] resolve_clearing, ?_, ?_⟩
  · exact ⟨outcome, hsolves.solve, (hclearing.1 outcome hsolves.solve).1⟩
  · exact (resolve_exclusive idleGoal orphanIndex).2.1 idleProblems resolve_idle

end Provision.Goal
