import Provision.Proofs.Goal.Resolving
import Provision.Proofs.Goal.Selecting
import Provision.Proofs.Solver.Permission

/-!
# No name is there for all architectures and for one

A `noarch` build displaces the builds of its name for particular architectures, and each of them
displaces a `noarch` build. However a package comes into a model, as a candidate, to meet a
requirement, in place of an older build or because it is recommended, it is placed, and what it
displaces goes first (`place_unmixed`); what is put in place once more stood there before. So every
turn of a job keeps a model free of such pairs (`Turn.unmixed`), and so does a whole transaction
(`resolve_unmixed`).
-/

namespace Provision

/-- No name is there both as a `noarch` build and as one for another architecture. -/
def Unmixed (packages : List Package) : Prop :=
  ∀ p ∈ packages, ∀ q ∈ packages, p.name = q.name → p.arch = "noarch" → q.arch = "noarch"

namespace Solver

open Scope (Displaces)

theorem Scope.Displaces.symm {slot other : Slot} (h : Displaces slot other) :
    Displaces other slot := ⟨h.1.symm, h.2.1.symm, h.2.2.symm⟩

/-- Nothing that is present displaces anything else. -/
theorem unmixed_iff {packages : List Package} :
    Unmixed packages ↔ ∀ p ∈ packages, ∀ q ∈ packages, ¬ Displaces p.slot q.slot := by
  constructor
  · rintro h p hp q hq ⟨hname, harch, hq' | hp'⟩
    · exact harch (hq'.trans (h q hq p hp hname hq').symm)
    · exact harch ((h p hp q hq hname.symm hp').trans hp'.symm)
  · intro h p hp q hq hname harch
    by_contra hother
    exact h p hp q hq ⟨hname.symm, fun heq => hother (heq.trans harch), .inr harch⟩

/-! ## Models -/

namespace Model

/-- No two slots that are taken displace each other. -/
def Unmixed (m : Model) : Prop :=
  ∀ ⦃slot other : Slot⦄ ⦃p q : Package⦄, m.present[slot]? = some p → m.present[other]? = some q →
    ¬ Displaces slot other

theorem Keyed.unmixed_iff {m : Model} (hm : m.Keyed) :
    m.Unmixed ↔ Provision.Unmixed m.packages := by
  rw [Solver.unmixed_iff]
  constructor
  · intro h p hp q hq
    exact h (hm.mem_packages_iff.1 hp) (hm.mem_packages_iff.1 hq)
  · intro h slot other p q hp hq
    obtain rfl := hm slot p hp
    obtain rfl := hm other q hq
    exact h p (hm.mem_packages_iff.2 hp) q (hm.mem_packages_iff.2 hq)

variable {m m' : Model}

/-- Emptying slots and exchanging what they hold mixes nothing. -/
theorem Unmixed.of_taken (hm : m.Unmixed)
    (htaken : ∀ (slot : Slot) (p : Package), m'.present[slot]? = some p →
      ∃ q, m.present[slot]? = some q) :
    m'.Unmixed := by
  intro slot other p q hp hq
  obtain ⟨_, hp⟩ := htaken slot p hp
  obtain ⟨_, hq⟩ := htaken other q hq
  exact hm hp hq

theorem Unmixed.clear (hm : m.Unmixed) (slot : Slot) (d : Decision) : (m.clear slot d).Unmixed := by
  refine hm.of_taken fun other p hp => ?_
  rw [present_clear] at hp
  split at hp
  · cases hp
  · exact ⟨p, hp⟩

/-- A package may come into a slot that nothing left over is displaced from. -/
theorem Unmixed.fill (hm : m.Unmixed) {p : Package} (d : Decision)
    (hfree : ∀ (slot : Slot) (q : Package), m.present[slot]? = some q →
      ¬ Displaces p.slot slot) :
    (m.fill p d).Unmixed := by
  intro slot other q r hq hr
  rw [present_fill] at hq hr
  split at hq <;> split at hr
  · subst slot other
    exact fun hdisplaces => hdisplaces.2.1 rfl
  · subst slot
    exact hfree other r hr
  · subst other
    exact fun hdisplaces => hfree slot q hq hdisplaces.symm
  · exact hm hq hr

end Model

namespace Scope

variable {s : Scope} {m m' : Model} {requests : List Request}

/-! ## Placing -/

/-- What has to go is gone, and the rest is still there. -/
theorem present_displaceAll {wanted : Package} {gone : List Package} (slot : Slot) :
    (gone.foldl (s.displace wanted) m).present[slot]? =
      if slot ∈ gone.map Package.slot then none else m.present[slot]? := by
  induction gone generalizing m with
  | nil => rfl
  | cons q rest ih =>
    have hdisplace : (s.displace wanted m q).present[slot]? =
        if q.slot = slot then none else m.present[slot]? := Model.present_clear m _ slot _
    rw [List.foldl_cons, ih, hdisplace]
    by_cases hslot : q.slot = slot
    · rw [if_pos hslot, ite_self, if_pos (hslot ▸ List.mem_cons_self)]
    · simp only [if_neg hslot, List.map_cons, List.mem_cons, Ne.symm hslot, false_or]

/-- Nothing that is left over would be displaced. -/
theorem not_displaces_of_displaceAll (hm : m.Keyed) {p q : Package} {slot : Slot}
    (hq : ((displaced m p).foldl (s.displace p) m).present[slot]? = some q) :
    m.present[slot]? = some q ∧ ¬ Displaces p.slot slot := by
  rw [present_displaceAll] at hq
  split at hq
  · cases hq
  · rename_i hkept
    refine ⟨hq, fun hdisplaces => hkept ?_⟩
    obtain rfl := hm slot q hq
    exact List.mem_map_of_mem
      (List.mem_filter.2 ⟨hm.mem_packages_iff.2 hq, decide_eq_true hdisplaces⟩)

theorem place_unmixed (hm : m.Keyed) (hunmixed : m.Unmixed) {p : Package} {reason : Reason}
    (h : s.place m p reason = .ok m') : m'.Unmixed := by
  rcases place_cases h with ⟨-, ⟨-, rfl⟩ | ⟨-, rfl⟩⟩ | ⟨-, -, -, rfl⟩
  · exact hunmixed
  · refine hunmixed.of_taken fun slot q hq => ?_
    rw [Model.present_decide] at hq
    exact ⟨q, hq⟩
  · have hrest : ((displaced m p).foldl (s.displace p) m).Unmixed :=
      hunmixed.of_taken fun slot q hq => ⟨q, (not_displaces_of_displaceAll hm hq).1⟩
    exact hrest.fill _ fun slot q hq => (not_displaces_of_displaceAll hm hq).2

/-! ## Turns -/

theorem Mends.unmixed (hm : m.Keyed) (hunmixed : m.Unmixed) (h : s.Mends m m') : m'.Unmixed := by
  cases h with
  | obsolete h =>
    obtain ⟨-, -, -, other, -, -, rfl⟩ := applyObsoletes_eq_some h
    exact hunmixed.clear _ _
  | conflict _ h =>
    obtain ⟨-, -, slot, -, rfl⟩ := resolveConflicts_eq_some h
    exact hunmixed.clear _ _
  | require _ _ _ h =>
    cases h with
    | goAlong => exact hunmixed.clear _ _
    | provide _ _ hplace => exact place_unmixed hm hunmixed hplace
    | upgrade _ _ _ _ _ hplace => exact place_unmixed hm hunmixed hplace
    | erase => exact hunmixed.clear _ _

/-- The build is installed that the task wants to be put in place once more, if it does. -/
def RepeatsInstalled (s : Scope) (task : Task) : Prop :=
  ∀ p, task = .reinstall p → ∃ q, s.installed[p.slot]? = some q

theorem Turn.unmixed {task : Task} (hinstalled : s.RepeatsInstalled task)
    (hm : s.Disciplined requests m) (hunmixed : m.Unmixed) (h : s.Turn task m m') : m'.Unmixed := by
  cases h with
  | mend h => exact h.unmixed hm.keyed hunmixed
  | candidate _ _ hplace => exact place_unmixed hm.keyed hunmixed hplace
  | recommended _ _ hplace => exact place_unmixed hm.keyed hunmixed hplace
  | @again p htask hopen =>
    obtain ⟨old, hold⟩ := hinstalled p htask
    rw [← hm.open_eq p.slot hopen] at hold
    exact hunmixed.fill _ fun slot q hq => hunmixed hold hq
  | drop => exact hunmixed.clear _ _
  | attitude => exact hunmixed

theorem Accepts.unmixed {c : Carried} (hrequest : c.request ∈ requests)
    (hinstalled : s.RepeatsInstalled c.request.task) (hm : s.Disciplined requests c.before)
    (hunmixed : c.before.Unmixed) (h : s.Accepts c) : c.after.Unmixed := by
  have hturns := perform_turns (s := { s with job := c.request.job }) h
  have hinstalled : ({ s with job := c.request.job } : Scope).RepeatsInstalled c.request.task :=
    hinstalled
  exact (Turns.keeps hrequest (fun _ _ hm hunmixed hturn => hturn.unmixed hinstalled hm hunmixed)
    hturns (hm.withJob _) hunmixed).2

end Scope

/-- If what is installed is not mixed, nor is the model that a run ends with. -/
theorem performAll_unmixed {ix : Index} {policy : Policy} {requests : List Request} {m : Model}
    {found : List Problem} (hinstalled : Unmixed ix.installedPackages)
    (hrepeats : ∀ request ∈ requests, (Scope.ofIndex ix policy).RepeatsInstalled request.task)
    (h : ((Scope.ofIndex ix policy).performAll (Scope.ofIndex ix policy).start []
      requests).value = .ok (m, found)) : m.Unmixed := by
  have hstart : (Scope.ofIndex ix policy).Orderly requests (Scope.ofIndex ix policy).start :=
    Scope.start_orderly Scope.slot_installed_ofIndex requests
  have hunmixed : (Scope.ofIndex ix policy).start.Unmixed := by
    rw [hstart.disciplined.keyed.unmixed_iff]
    intro p hp q hq
    have hmem {p : Package} (hp : p ∈ (Scope.ofIndex ix policy).start.packages) :
        p ∈ ix.installedPackages := by
      rw [Index.mem_installedPackages_iff, ← Scope.installed_ofIndex ix policy]
      exact hstart.disciplined.keyed.mem_packages_iff.1 hp
    exact hinstalled p (hmem hp) q (hmem hq)
  refine ((Scope.performAll_chained h).keeps
    (fun m => (Scope.ofIndex ix policy).Orderly requests m ∧ m.Unmixed) ?_ ⟨hstart, hunmixed⟩).2
  rintro c hc ⟨hbefore, hunmixed⟩
  obtain ⟨hrequest, haccepts⟩ := Scope.mem_carried hc
  exact ⟨haccepts.orderly hrequest hbefore,
    haccepts.unmixed hrequest (hrepeats _ hrequest) hbefore.disciplined hunmixed⟩

end Solver

/-! ## Worlds after transactions -/

namespace Goal

open Solver

variable {g : Goal} {ix : Index} {items : List Item} {advisories : List Problem}

/-- What is there after a transaction is in the model, since sweeps only take packages off. -/
theorem Solves.present_of_mem_worldAfter {outcome : Solver.Outcome}
    (h : g.Solves ix items outcome) {m : Model}
    (hchanges : outcome.changes = (Scope.ofIndex ix g.policy.solver).changes m)
    (hm : (Scope.ofIndex ix g.policy.solver).Disciplined
      (selectAll ix g.policy g.jobs).value.requests m) {p : Package}
    (hp : p ∈ ix.worldAfter items) : m.present[p.slot]? = some p := by
  rw [← mem_worldWith_changes_iff hm, ← hchanges, Index.worldWith, Index.mem_exchange_iff]
  rw [Index.mem_worldAfter_iff h.orders, Index.worldWith, Index.mem_exchange_iff,
    broughtIn_sweepAll] at hp
  have hswept {q : Package} (htaken : q ∈ Change.takenOff outcome.changes) :
      q ∈ Change.takenOff
        (sweepAll ix g.policy.protectedNames outcome.changes g.cleaningJobs).value := by
    obtain ⟨c, hc, hremoval⟩ := Change.mem_takenOff_iff.1 htaken
    exact Change.mem_takenOff_iff.2 ⟨c, mem_sweepAll_of_mem _ _ hc, hremoval⟩
  exact hp.imp_left (And.imp_right (And.imp_left (mt hswept)))

/--
If no name is installed both as a `noarch` build and as one for another architecture, none is after
a transaction.
-/
theorem resolve_unmixed (hinstalled : Unmixed ix.installedPackages)
    (h : (g.resolve ix).value = .ok (.solved items advisories)) :
    Unmixed (ix.worldAfter items) := by
  obtain ⟨outcome, hsolves⟩ := resolve_cases h
  obtain ⟨m, hrun, hchanges⟩ := solve_cases hsolves.solve
  have hm := (performAll_orderly hrun).1.disciplined
  have hunmixed : Unmixed m.packages := by
    rw [← hm.keyed.unmixed_iff]
    refine performAll_unmixed hinstalled (fun request hrequest p htask => ?_) hrun
    have hadmitted := selectAll_admitted hrequest
    rw [htask] at hadmitted
    obtain ⟨old, hold, hbuild⟩ := Index.isInstalled_iff.1 hadmitted.2
    have hslot : old.slot = p.slot := congrArg Build.slot hbuild
    refine ⟨old, ?_⟩
    rw [Scope.installed_ofIndex, ← hslot]
    exact Index.mem_installedPackages_iff.1 hold
  have hpresent {p : Package} (hp : p ∈ ix.worldAfter items) : p ∈ m.packages :=
    hm.keyed.mem_packages_iff.2 (hsolves.present_of_mem_worldAfter hchanges hm hp)
  exact fun p hp q hq => hunmixed p (hpresent hp) q (hpresent hq)

/-! ### A build for an architecture in the place of a noarch one -/

def portable (name arch repo : String) : Package := ⟨⟨name, arch, ⟨0, "1", none⟩⟩, repo, none⟩

/-- A `noarch` build of `a` is installed, and one for the architecture `x` is offered. -/
def portableIndex : Index :=
  (({} : Index).addInstalled (portable "a" "noarch" "s") {}).addOffered (portable "a" "x" "r") {}

def portableGoal : Goal where
  jobs := [⟨.install, .exactly [portable "a" "x" "r"], {}⟩]

def portableItems : List Item :=
  [{ package := portable "a" "x" "r", action := .install, reason := .user, position := 0 },
    { package := portable "a" "noarch" "s", action := .replaced, reason := .dependency,
      position := 1, replacedBy := some (portable "a" "x" "r") }]

/-- The build that is asked for displaces the `noarch` one. -/
theorem resolve_unmixed_portable :
    Unmixed portableIndex.installedPackages ∧
      (portableGoal.resolve portableIndex).value = .ok (.solved portableItems []) ∧
      Unmixed (portableIndex.worldAfter portableItems) := by
  have hinstalled : Unmixed portableIndex.installedPackages := by
    have hlist : portableIndex.installedPackages = [portable "a" "noarch" "s"] := by cbv
    intro p _ q hq _ _
    rw [hlist, List.mem_singleton] at hq
    rw [hq]
    rfl
  have hresolve : (portableGoal.resolve portableIndex).value = .ok (.solved portableItems []) := by
    cbv
  exact ⟨hinstalled, hresolve, resolve_unmixed hinstalled hresolve⟩

end Goal

end Provision
