import Provision.Proofs.Goal.Resolving
import Provision.Proofs.Solver.Completeness
import Provision.Proofs.Solver.Recommendations
import Provision.Proofs.Solver.Refusals

/-!
# When a goal is solved

A task can be met if some run of the search meets it (`Scope.CanMeet`), and the search meets each task
that can be met (`Scope.canMeet_iff`). So a goal that allows no job to fail has a plan just if selection
has nothing to object to, each request can be met from where those before it have led, and nothing that
is protected goes (`Goal.exists_resolve_iff`).
-/

namespace Provision

namespace Solver.Scope

/-! ## Requests that can be met -/

/-- Some run of the search meets the task. -/
def CanMeet (s : Scope) (m : Model) : Task → Prop
  | .install candidates => ∃ c ∈ candidates, s.CanTake m c
  | .reinstall p =>
    m.isDecided p.slot = false ∧ s.CanSettle (m.fill p ⟨.user, s.job, .reinstalled⟩)
  | .remove targets => s.CanSettle (s.eraseTargets { m with erasesDependents := true } targets)

/-- Each of the requests can be met from the model that those before it have led to. -/
def CanMeetAll (s : Scope) (m : Model) : List Request → Prop
  | [] => True
  | r :: rest => CanMeet { s with job := r.job } m r.task ∧
      ∀ after, (({ s with job := r.job } : Scope).perform m r.task).result = .ok after →
        s.CanMeetAll after rest

variable {s : Scope} {requests : List Request} {m : Model}

theorem canMeet_iff (hix : s.index.ProvidesAgree) (hm : s.Disciplined requests m) {r : Request}
    (hr : r ∈ requests) : s.CanMeet m r.task ↔ ∃ m', (s.perform m r.task).result = .ok m' := by
  cases htask : r.task with
  | install candidates =>
    have hcandidates (c : Package) (hc : c ∈ candidates) : s.Supply requests c :=
      .inr ⟨r, hr, candidates, htask, hc⟩
    have hrefused := install_refused_iff hix hm hcandidates []
    have hfinishes := install_finishes hix hm hcandidates []
    show (∃ c ∈ candidates, s.CanTake m c) ↔ ∃ m', (s.install m [] candidates).result = .ok m'
    rcases hresult : (s.install m [] candidates).result with (found | _) | m'
    · refine iff_of_false ?_ nofun
      rintro ⟨c, hc, hcan⟩
      exact hrefused.1 ⟨found, hresult⟩ c hc hcan
    · exact absurd hresult hfinishes
    · refine iff_of_true ?_ ⟨m', rfl⟩
      obtain ⟨before, c, after, rfl, -, hcan, -⟩ := (install_eq_ok_iff hix hm hcandidates []).1 hresult
      exact ⟨c, List.mem_append_right before List.mem_cons_self, hcan⟩
  | reinstall p =>
    have hfilled (hopen : m.isDecided p.slot = false) :
        s.Disciplined requests (m.fill p ⟨.user, s.job, .reinstalled⟩) :=
      hm.steps hr (.single (.again htask hopen))
    show (m.isDecided p.slot = false ∧ _) ↔ ∃ m', (s.reinstall m p).result = .ok m'
    constructor
    · rintro ⟨hopen, hcan⟩
      obtain ⟨m', hsettle⟩ := (exists_settle_iff hix (hfilled hopen)).2 hcan
      unfold reinstall
      rw [if_neg (Bool.eq_false_iff.1 hopen)]
      exact ⟨m', hsettle⟩
    · rintro ⟨m', h⟩
      obtain ⟨hopen, hsettle⟩ := reinstall_cases h
      exact ⟨hopen, (exists_settle_iff hix (hfilled hopen)).1 ⟨m', hsettle⟩⟩
  | remove targets =>
    have herased : s.Disciplined requests (s.eraseTargets { m with erasesDependents := true } targets) :=
      hm.steps hr (htask ▸ .head (.attitude true) eraseTargets_steps)
    show s.CanSettle _ ↔ ∃ m', (s.remove m targets).result = .ok m'
    rw [← exists_settle_iff hix herased]
    constructor
    · rintro ⟨settled, hsettle⟩
      exact ⟨_, Search.result_bind_eq_ok.2 ⟨settled, hsettle, rfl⟩⟩
    · rintro ⟨m', h⟩
      obtain ⟨settled, hsettle, -⟩ := remove_cases h
      exact ⟨settled, hsettle⟩

/-- By induction on the requests: they are met one by one just if each can be. -/
theorem canMeetAll_iff (hix : s.index.ProvidesAgree) (hm : s.Disciplined requests m)
    {rest : List Request}
    (hrest : ∀ r ∈ rest, r ∈ requests ∧ r.weak = false ∧ r.task ≠ .install []) :
    s.CanMeetAll m rest ↔ ∃ m', (s.performAll m [] rest).value = .ok (m', []) := by
  induction rest generalizing m with
  | nil => exact iff_of_true trivial ⟨m, rfl⟩
  | cons r rest ih =>
    obtain ⟨hr, hstrong, htask⟩ := hrest r List.mem_cons_self
    have hmeet := canMeet_iff (s := { s with job := r.job }) hix (hm.withJob r.job) hr
    unfold CanMeetAll
    rw [hmeet, performAll_cons]
    rcases hperform : (({ s with job := r.job } : Scope).perform m r.task).result with (found | _) | after
    · refine iff_of_false (fun h => nomatch h.1) ?_
      rintro ⟨m', hrun⟩
      dsimp only at hrun
      rw [hstrong, if_neg Bool.false_ne_true] at hrun
      have hnil := ((performAll_problems_eq_nil_iff hrun).1 rfl).1
      exact perform_explains htask found hperform (Problem.insertAll_eq_nil_iff.1 hnil).2
    · exact iff_of_false (fun h => nomatch h.1) nofun
    · have haccepts : s.Accepts ⟨m, r, after⟩ := hperform
      have hafter := ih (hm.steps hr (haccepts.steps hr hm.keyed).1) fun r' hr' =>
        hrest r' (List.mem_cons_of_mem r hr')
      dsimp only
      rw [performAll_withJob, ← hafter]
      refine ⟨fun h => h.2 after rfl, fun h => ⟨⟨after, rfl⟩, fun next hnext => ?_⟩⟩
      rw [← Except.ok.inj hnext]
      exact h

end Solver.Scope

namespace Goal

open Solver

variable {g : Goal} {ix : Index}

/-- Nothing keeps the goal from being planned. -/
structure Solvable (g : Goal) (ix : Index) : Prop where
  /-- Selection has nothing to object to. -/
  selected : (selectAll ix g.policy g.jobs).value.problems = []
  /-- Each request can be met after those before it. -/
  met : (Scope.ofIndex ix g.policy.solver).CanMeetAll (Scope.ofIndex ix g.policy.solver).start
    (selectAll ix g.policy g.jobs).value.requests
  /-- Nothing protected goes. -/
  unprotected : ∀ outcome, g.SearchEnds ix outcome →
    ∀ p ∈ Change.takenOff outcome.changes, p.name ∉ g.policy.protectedNames

theorem protectedProblems_eq_nil_iff {changes : List Change} :
    g.protectedProblems changes = [] ↔
      ∀ p ∈ Change.takenOff changes, p.name ∉ g.policy.protectedNames := by
  unfold protectedProblems
  rw [List.map_eq_nil_iff, List.filter_eq_nil_iff]
  simp only [Bool.and_eq_true, not_and, List.contains_iff_mem]
  constructor
  · intro h p hp
    obtain ⟨c, hc, hremoval, rfl⟩ := Change.mem_takenOff_iff.1 hp
    exact h c hc hremoval
  · intro h c hc hremoval
    exact h c.package (Change.mem_takenOff_iff.2 ⟨c, hc, hremoval, rfl⟩)

/-- The plan of a goal is that of the changes, if nothing speaks against them. -/
theorem resolve_of_planChanges {outcome : Solver.Outcome} (hends : g.SearchEnds ix outcome)
    (hselected : (selectAll ix g.policy g.jobs).value.problems = [])
    (hnone : outcome.problems = [])
    (hunprotected : ∀ p ∈ Change.takenOff outcome.changes, p.name ∉ g.policy.protectedNames)
    {items : List Item} {advisories : List Problem}
    (hplan : (planChanges ix (g.toBePlanned ix outcome)
      (selectAll ix g.policy g.jobs).value.advisories).value = .solved items advisories) :
    (g.resolve ix).value = .ok (.solved items advisories) := by
  rw [resolve_of_searchEnds hends, hplan]
  exact obstacles_eq_nil_iff.2
    ⟨⟨hselected, hnone⟩, protectedProblems_eq_nil_iff.2 hunprotected⟩

/-- A goal has a plan just if nothing keeps it from being planned. -/
theorem exists_resolve_iff (hix : ix.ProvidesAgree)
    (hrequests : ∀ r ∈ (selectAll ix g.policy g.jobs).value.requests,
      r.weak = false ∧ r.task ≠ .install [])
    (hplan : ∀ outcome, g.SearchEnds ix outcome → outcome.problems = [] → ∃ items advisories,
      (planChanges ix (g.toBePlanned ix outcome)
        (selectAll ix g.policy g.jobs).value.advisories).value = .solved items advisories) :
    (∃ items advisories, (g.resolve ix).value = .ok (.solved items advisories)) ↔
      g.Solvable ix := by
  have hmet := Scope.canMeetAll_iff (s := Scope.ofIndex ix g.policy.solver) hix
    (Scope.start_orderly Scope.slot_installed_ofIndex
      (selectAll ix g.policy g.jobs).value.requests).disciplined
    fun r hr => ⟨hr, hrequests r hr⟩
  constructor
  · rintro ⟨items, advisories, h⟩
    obtain ⟨outcome, hsolves⟩ := resolve_cases h
    obtain ⟨m, hrun, -⟩ := solve_cases hsolves.solve
    rw [hsolves.accepted] at hrun
    refine ⟨hsolves.selected, hmet.2 ⟨m, hrun⟩, fun outcome' hends => ?_⟩
    obtain rfl := Except.ok.inj (hends.symm.trans hsolves.solve)
    exact protectedProblems_eq_nil_iff.1 hsolves.unprotected
  · intro h
    obtain ⟨m, hrun⟩ := hmet.1 h.met
    have hends : g.SearchEnds ix ⟨(Scope.ofIndex ix g.policy.solver).changes m, []⟩ := by
      unfold SearchEnds solve
      rw [Traced.value_bind, hrun]
      rfl
    obtain ⟨items, advisories, hplanned⟩ := hplan _ hends rfl
    exact ⟨items, advisories,
      resolve_of_planChanges hends h.selected rfl (h.unprotected _ hends) hplanned⟩

end Goal

end Provision
