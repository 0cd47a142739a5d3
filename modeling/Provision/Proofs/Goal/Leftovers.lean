import Provision.Proofs.Goal.Abandonment

/-!
# What sweeps leave behind

For a solved goal, what sweeps take to be present is the world after the transaction and, besides, the
builds that make room for others in their slots (`Solves.present_iff`). An orphan is thus taken just
if nothing of either kind needs it. So all orphans are gone in the end unless one of them is needed by
nothing but a build that another one of its slot replaces (`resolve_leavesNoOrphan_iff`). That
happens: an upgrade may need less than what it replaces (`not_all_leaveNoOrphan`).
-/

namespace Provision.Goal

variable {g : Goal} {ix : Index} {outcome : Solver.Outcome} {items : List Item} {p q : Package}

/-- The package could be taken by a sweep, and it has lost what needed it to a removal that cleans up
or to a sweep after it. -/
structure Stranded (g : Goal) (ix : Index) (outcome : Solver.Outcome) (p : Package) : Prop where
  sweepable : Sweepable ix g.policy.protectedNames outcome.changes p
  bereft : Bereft ix (g.toBePlanned ix outcome) g.cleaningJobs p

/-- The installed package makes room for what comes into its slot. -/
def Outgoing (ix : Index) (items : List Item) (old : Package) : Prop :=
  old ∈ ix.installedPackages ∧ ∃ i ∈ items, i.action.isInbound ∧ i.package.slot = old.slot

/-- Something else of the world after the transaction needs the package. -/
def NeededAfter (ix : Index) (items : List Item) (p : Package) : Prop :=
  ∃ q ∈ ix.worldAfter items, q.build ≠ p.build ∧ ix.Needs q p

/-- Of the packages that the removals that clean up leave stranded, those that are still there after
the transaction are needed there. -/
def LeavesNoOrphan (g : Goal) (ix : Index) (outcome : Solver.Outcome) (items : List Item) : Prop :=
  ∀ p ∈ ix.worldAfter items, Stranded g ix outcome p → NeededAfter ix items p

theorem Abandoned.others {names : List String} {changes : List Change} {jobs : List Nat}
    (h : Abandoned ix names changes jobs p) (hq : ix.Present changes q) (hbuild : q.build ≠ p.build)
    (hneeds : ix.Needs q p) : Abandoned ix names changes jobs q := by
  cases h with
  | bereft _ _ hothers => exact hothers q hq hbuild hneeds
  | further _ _ _ hothers => exact hothers q hq hbuild hneeds

namespace Solves

variable (h : g.Solves ix items outcome)

include h

/-- What sweeps take to be present is there after the transaction or makes room for what comes. -/
theorem present_iff :
    ix.Present (g.toBePlanned ix outcome) q ↔ q ∈ ix.worldAfter items ∨ Outgoing ix items q := by
  have hworld : q ∈ ix.worldAfter items ↔ _ := Index.mem_worldAfter_iff h.orders
  constructor
  · rintro (⟨hq, hkept⟩ | hq)
    · by_cases hroom : ∃ i ∈ items, i.action.isInbound ∧ i.package.slot = q.slot
      · exact .inr ⟨hq, hroom⟩
      · refine .inl (Index.mem_exchange_iff.2 (.inl ⟨hq, fun htaken => ?_, fun r hr hslot => ?_⟩))
        · obtain ⟨c, hc, hremoval, rfl⟩ := Change.mem_takenOff_iff.1 (h.orders.mem_takenOff_iff.1 htaken)
          exact hkept c hc hremoval rfl
        · obtain ⟨i, hi, hinbound, rfl⟩ := Item.mem_broughtIn_iff.1 hr
          exact hroom ⟨i, hi, hinbound, hslot⟩
    · exact .inl (Index.mem_exchange_iff.2 (.inr (h.orders.mem_broughtIn_iff.2 hq)))
  · rintro (hq | ⟨hq, i, hi, hinbound, hslot⟩)
    · exact mem_present_start_iff.1 ((start_watches h.soundChanges 0).present q (hworld.1 hq))
    · refine .inl ⟨hq, fun c hc hremoval hbuild => ?_⟩
      obtain ⟨d, hd, position, rfl⟩ := h.orders.of_mem i hi
      have hsame : c = d := List.inj_on_of_nodup_map (nodup_toBePlanned h.solve) hc hd
        ((congrArg Build.slot hbuild).trans hslot.symm)
      exact Solver.Scope.not_isInbound_of_isRemoval hremoval (hsame ▸ hinbound)

/-- A stranded package makes room for nothing. -/
theorem not_outgoing (hp : Stranded g ix outcome p) : ¬ Outgoing ix items p := by
  rintro ⟨-, i, hi, hinbound, hslot⟩
  obtain ⟨c, hc, position, rfl⟩ := h.orders.of_mem i hi
  rcases mem_sweepAll c hc with hc | ⟨job, t, rfl⟩
  · exact hp.sweepable.untouched c hc hslot
  · cases hinbound

/-- A stranded package stays just if something else that sweeps take to be present needs it. -/
theorem mem_worldAfter_iff_held (hp : Stranded g ix outcome p) :
    p ∈ ix.worldAfter items ↔ Held ix (g.toBePlanned ix outcome) p := by
  obtain ⟨swept, hvalue, hadds, hmem⟩ :=
    exists_swept_iff ix g.policy.protectedNames outcome.changes g.cleaningJobs
  have hplanned : g.toBePlanned ix outcome = outcome.changes ++ swept := hvalue
  have hremoves (c : Change) (hc : c ∈ swept) : c.action.isRemoval := hadds.isRemoval hc
  have hgone (c : Change) (hc : c ∈ swept) : ¬ ix.Present (g.toBePlanned ix outcome) c.package := by
    rw [hplanned]
    exact not_present_append hremoves hc (hadds.untouched c hc)
  constructor
  · intro hstays
    have huntouched (c : Change) (hc : c ∈ g.toBePlanned ix outcome) : c.package.slot ≠ p.slot := by
      intro hslot
      rw [hplanned] at hc
      rcases List.mem_append.1 hc with hc | hc
      · exact hp.sweepable.untouched c hc hslot
      · obtain rfl := Index.installed_unique (hadds.installed c hc) hp.sweepable.installed hslot
        exact hgone c hc (h.present_iff.2 (.inl hstays))
    exact held_of_bereft outcome.changes g.cleaningJobs
      { hp.sweepable with untouched := huntouched } hp.bereft
  · rintro ⟨q, hq, hbuild, hneeds⟩
    have hbefore : ix.Present outcome.changes q := present_of_append hremoves (hplanned ▸ hq)
    rcases present_append_or_mem hadds.installed hp.sweepable.present with hpresent | ⟨c, hc, rfl⟩
    · rw [← hplanned] at hpresent
      exact (h.present_iff.1 hpresent).resolve_right (h.not_outgoing hp)
    · -- If the package were taken, then so would be what needs it.
      have habandoned := (hmem c.package).1 (List.mem_map_of_mem hc)
      obtain ⟨d, hd, rfl⟩ := List.mem_map.1 ((hmem q).2 (habandoned.others hbefore hbuild hneeds))
      exact absurd hq (hgone d hd)

end Solves

/--
A package that the removals that clean up leave stranded stays just if something else needs it that
is there after the transaction or makes room in its slot. So no orphan is left behind just if all
that are needed by what makes room are needed after the transaction too.
-/
theorem resolve_leavesNoOrphan_iff {advisories : List Problem}
    (h : (g.resolve ix).value = .ok (.solved items advisories)) (hends : g.SearchEnds ix outcome) :
    (∀ p, Stranded g ix outcome p →
      (p ∈ ix.worldAfter items ↔ ∃ q, (q ∈ ix.worldAfter items ∨ Outgoing ix items q) ∧
        q.build ≠ p.build ∧ ix.Needs q p)) ∧
    (LeavesNoOrphan g ix outcome items ↔
      ∀ p, Stranded g ix outcome p →
        (∃ old, Outgoing ix items old ∧ old.build ≠ p.build ∧ ix.Needs old p) →
          NeededAfter ix items p) := by
  obtain ⟨found, hsolves⟩ := resolve_cases h
  obtain rfl : found = outcome := Except.ok.inj (hsolves.solve.symm.trans hends)
  have hstays (p : Package) (hp : Stranded g ix found p) :
      p ∈ ix.worldAfter items ↔ ∃ q, (q ∈ ix.worldAfter items ∨ Outgoing ix items q) ∧
        q.build ≠ p.build ∧ ix.Needs q p := by
    rw [hsolves.mem_worldAfter_iff_held hp]
    exact exists_congr fun q => and_congr_left fun _ => hsolves.present_iff
  refine ⟨hstays, fun hnone p hp => ?_, fun hneeded p hworld hp => ?_⟩
  · rintro ⟨old, hold, hbuild, hneeds⟩
    exact hnone p ((hstays p hp).2 ⟨old, .inr hold, hbuild, hneeds⟩) hp
  · obtain ⟨q, hq | hq, hbuild, hneeds⟩ := (hstays p hp).1 hworld
    · exact ⟨q, hq, hbuild, hneeds⟩
    · exact hneeded p hp ⟨q, hq, hbuild, hneeds⟩

/-! ### An upgrade, and a removal that cleans up -/

def appBuild (version repo : String) : Package := ⟨⟨"a", "noarch", ⟨0, version, none⟩⟩, repo, none⟩

def toolPackage : Package := samplePackage "t" systemRepo

def libraryPackage : Package := samplePackage "l" systemRepo

/-- An application and a tool that require a library, and an upgrade that may require less. -/
def lighterIndex (required : List Requirement) : Index :=
  (((({} : Index).addInstalled (appBuild "1" systemRepo)
    { requires := [⟨"l", .any⟩] }).addInstalled toolPackage
    { requires := [⟨"l", .any⟩] }).addInstalled libraryPackage
    { reason := some .dependency }).addOffered (appBuild "2" "base") { requires := required }

/-- The application is upgraded, and the tool goes with all that was installed on its account. -/
def lighterGoal : Goal where
  jobs := [⟨.upgrade, .pattern "a", {}⟩, ⟨.remove, .pattern "t", { cleanDeps := true }⟩]

def lighterOutcome : Solver.Outcome where
  changes :=
    [{ package := appBuild "2" "base", action := .upgrade, reason := .user
       replaces := some (appBuild "1" systemRepo), job := some 0 },
      { package := toolPackage, action := .remove, reason := .user, job := some 1 }]
  problems := []

def lighterItems : List Item :=
  [{ package := appBuild "2" "base", action := .upgrade, reason := .user, position := 0
     replaces := some (appBuild "1" systemRepo) },
    { package := toolPackage, action := .remove, reason := .user, position := 1 }]

theorem toBePlanned_lighter (required : List Requirement) :
    lighterGoal.toBePlanned (lighterIndex required) lighterOutcome = lighterOutcome.changes := by
  have hstart : Sweep.start (lighterIndex required) lighterOutcome.changes 1 =
      ⟨[toolPackage], [appBuild "1" systemRepo, libraryPackage, appBuild "2" "base"]⟩ := by cbv
  have hswept :
      (sweepOrphans (lighterIndex required) lighterOutcome.changes [] 1).value = [] := by
    refine sweepOrphans_of_findOrphan?_eq_none ?_
    rw [hstart]
    rfl
  have hcleaning : lighterGoal.cleaningJobs = [1] := rfl
  unfold toBePlanned
  rw [hcleaning, sweepAll, Traced.value_bind, Traced.value_bind]
  show (sweepAll _ _ (_ ++ (sweepOrphans (lighterIndex required) _ [] 1).value) []).value = _
  rw [hswept, List.append_nil]
  rfl

theorem resolve_lighter {required : List Requirement}
    (hends : lighterGoal.SearchEnds (lighterIndex required) lighterOutcome)
    (hplan : (planChanges (lighterIndex required) lighterOutcome.changes []).value =
      .solved lighterItems []) :
    (lighterGoal.resolve (lighterIndex required)).value = .ok (.solved lighterItems []) := by
  have hobstacles : lighterGoal.obstacles (lighterIndex required) lighterOutcome = [] := by cbv
  have hadvisories : (selectAll (lighterIndex required) lighterGoal.policy
      lighterGoal.jobs).value.advisories = [] := by cbv
  rw [resolve_of_searchEnds hends hobstacles, toBePlanned_lighter, hadvisories, hplan]

/-- The library is stranded, and nothing else is. -/
theorem stranded_lighter_iff {required : List Requirement} :
    Stranded lighterGoal (lighterIndex required) lighterOutcome p ↔ p = libraryPackage := by
  have hinstalled : (lighterIndex required).installedPackages =
      [appBuild "1" systemRepo, libraryPackage, toolPackage] := by cbv
  constructor
  · intro hp
    have hmem := hp.sweepable.installed
    rw [hinstalled] at hmem
    have huntouched := hp.sweepable.untouched
    simp only [List.mem_cons, List.not_mem_nil, or_false] at hmem
    rcases hmem with rfl | rfl | rfl
    · exact absurd rfl (huntouched _ List.mem_cons_self)
    · rfl
    · exact absurd rfl (huntouched _ (List.mem_cons_of_mem _ List.mem_cons_self))
  · rintro rfl
    refine ⟨⟨?_, ?_, List.not_mem_nil, .dependency, ?_, ?_⟩, ?_⟩
    · rw [hinstalled]
      simp
    · decide
    · cbv
    · decide
    · rw [Bereft, toBePlanned_lighter]
      refine ⟨_, List.mem_cons_of_mem _ List.mem_cons_self, rfl, ⟨1, List.mem_cons_self, rfl⟩, ?_⟩
      have hmetadata : (lighterIndex required).metadata? toolPackage =
        some { requires := [⟨"l", .any⟩], reason := some .user } := by cbv
      refine ⟨_, hmetadata, _, List.mem_cons_self, ?_⟩
      cbv

/-- The upgrade requires the library as well, so that nothing is left behind. -/
theorem resolve_leavesNoOrphan_iff_upgrade :
    (lighterGoal.resolve (lighterIndex [⟨"l", .any⟩])).value = .ok (.solved lighterItems []) ∧
      LeavesNoOrphan lighterGoal (lighterIndex [⟨"l", .any⟩]) lighterOutcome lighterItems := by
  have hends : lighterGoal.SearchEnds (lighterIndex [⟨"l", .any⟩]) lighterOutcome := by cbv
  have hresolve := resolve_lighter hends (by cbv)
  refine ⟨hresolve, (resolve_leavesNoOrphan_iff hresolve hends).2.2 fun p hp _ => ?_⟩
  obtain rfl := stranded_lighter_iff.1 hp
  have hworld : appBuild "2" "base" ∈ (lighterIndex [⟨"l", .any⟩]).worldAfter lighterItems :=
    Index.mem_exchange_iff.2 (.inr List.mem_cons_self)
  have hmetadata : (lighterIndex [⟨"l", .any⟩]).metadata? (appBuild "2" "base") =
    some { requires := [⟨"l", .any⟩] } := by cbv
  refine ⟨_, hworld, by decide, _, hmetadata, _, List.mem_cons_self, ?_⟩
  cbv

/-- The upgrade requires nothing, and the library is left behind though nothing needs it. -/
theorem not_all_leaveNoOrphan :
    ¬ ∀ (g : Goal) (ix : Index) (outcome : Solver.Outcome) (items : List Item)
      (advisories : List Problem),
      (g.resolve ix).value = .ok (.solved items advisories) → g.SearchEnds ix outcome →
        LeavesNoOrphan g ix outcome items := by
  intro hall
  have hends : lighterGoal.SearchEnds (lighterIndex []) lighterOutcome := by cbv
  have hnone := hall _ _ _ _ _ (resolve_lighter hends (by cbv)) hends
  have hworld : (lighterIndex []).worldAfter lighterItems =
      [libraryPackage, appBuild "2" "base"] := by cbv
  have hmetadata : (lighterIndex []).metadata? (appBuild "2" "base") = some {} := by cbv
  have hlibrary : libraryPackage ∈ (lighterIndex []).worldAfter lighterItems := by
    rw [hworld]
    exact List.mem_cons_self
  obtain ⟨q, hq, hbuild, metadata, hq', r, hr, -⟩ :=
    hnone libraryPackage hlibrary (stranded_lighter_iff.2 rfl)
  rw [hworld] at hq
  rcases List.mem_cons.1 hq with rfl | hq
  · exact hbuild rfl
  · obtain rfl := List.mem_singleton.1 hq
    rw [hmetadata] at hq'
    cases hq'
    exact List.not_mem_nil hr

end Provision.Goal
