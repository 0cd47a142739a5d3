import Mathlib.Order.Bounds.Basic
import Provision.Proofs.Solver.Mending
import Provision.Proofs.Solver.Sound
import Provision.Proofs.Solver.Termination

/-!
# Removals take off a closure

Removing packages takes off the installed targets and, with what goes, every package that loses
something it requires (`Index.ClosedUnderRemoval`). As long as all jobs are removals a model is a
remnant of what is installed: nothing in it is changed, so nothing is obsoleted and no conflict is
looked at, and a broken requirement is always mended by taking its package off too.

1. Each package that goes is a target or has lost a requirement (`Sheds`), so it is in every closed
   set (`Shedding.within`).
2. A removal is always carried out; in the end no target is left and nothing is lost
   (`Remnant.remove`). So what went is closed.
3. Together: what is taken off is the least closed set. It depends on which packages are targets, not
   on the order of the jobs or of the targets in them (`solve_removes_least`).
-/

namespace Provision

/-! ## Closed sets -/

/-- The package requires something that is installed, but only among what goes. -/
def Index.Loses (ix : Index) (gone : Set Package) (p : Package) : Prop :=
  ∃ metadata, ix.metadata? p = some metadata ∧ ∃ r ∈ metadata.requires,
    (∃ q ∈ ix.installedPackages, ix.meets q r) ∧
      ∀ q ∈ ix.installedPackages, ix.meets q r → q ∈ gone

/-- The installed targets are among what goes, and all that loses by it. -/
structure Index.ClosedUnderRemoval (ix : Index) (targets : List Package) (gone : Set Package) :
    Prop where
  targets : ∀ p ∈ ix.installedPackages, ∀ t ∈ targets, t.build = p.build → p ∈ gone
  dependents : ∀ p ∈ ix.installedPackages, ix.Loses gone p → p ∈ gone

/-- Only which packages are targets matters. -/
theorem Index.ClosedUnderRemoval.congr {ix : Index} {targets others : List Package}
    {gone : Set Package} (h : ix.ClosedUnderRemoval targets gone)
    (hothers : ∀ t, t ∈ others ↔ t ∈ targets) : ix.ClosedUnderRemoval others gone :=
  ⟨fun p hp t ht => h.targets p hp t ((hothers t).1 ht), h.dependents⟩

namespace Solver

open Model (SameAt)

/-- The packages that a task removes. -/
def Task.targets : Task → List Package
  | .install _ | .reinstall _ => []
  | .remove targets => targets

/-- The packages that requests remove. -/
def targetsOf (requests : List Request) : List Package := requests.flatMap (·.task.targets)

namespace Scope

variable {s : Scope} {ix : Index} {targets : List Package} {m m' : Model}

/-! ## Remnants -/

/-- The model holds what is installed, except where a slot was decided: there it holds nothing. -/
def Remnant (s : Scope) (m : Model) : Prop :=
  ∀ slot, m.present[slot]? = if m.isDecided slot then none else s.installed[slot]?

theorem remnant_start : s.Remnant s.start := by
  intro slot
  rw [isDecided_start]
  rfl

theorem Remnant.present_cases (hm : s.Remnant m) {slot : Slot} {p : Package}
    (hp : m.present[slot]? = some p) :
    m.isDecided slot = false ∧ s.installed[slot]? = some p := by
  rw [hm slot] at hp
  split at hp
  · cases hp
  · exact ⟨Bool.eq_false_iff.2 ‹_›, hp⟩

theorem Remnant.keyed (hs : s.Views ix) (hm : s.Remnant m) : m.Keyed := by
  intro slot p hp
  have hold := (hm.present_cases hp).2
  rw [hs.installed] at hold
  exact Index.slot_installedAt? hold

theorem Remnant.unchanged (hs : s.Views ix) (hm : s.Remnant m) :
    ∀ p ∈ m.packages, s.isChanged m p.slot = false := by
  intro p hp
  have hpresent := (hm.keyed hs).mem_packages_iff.1 hp
  obtain ⟨hopen, hold⟩ := hm.present_cases hpresent
  exact isChanged_of_left hpresent hold (isReinstalled_of_open hopen)

theorem Remnant.mem_installedPackages (hs : s.Views ix) (hm : s.Remnant m) {p : Package}
    (hp : p ∈ m.packages) : p ∈ ix.installedPackages := by
  have hold := (hm.present_cases ((hm.keyed hs).mem_packages_iff.1 hp)).2
  rw [hs.installed] at hold
  exact Index.mem_installedPackages_iff.2 hold

theorem Remnant.disciplined (hs : s.Views ix) (hm : s.Remnant m) (requests : List Request) :
    s.Disciplined requests m := by
  refine ⟨hm.keyed hs, fun slot hopen => ?_, fun slot p hp => ?_⟩
  · rw [hm slot, if_neg (Bool.eq_false_iff.1 hopen)]
  · obtain ⟨hopen, hold⟩ := hm.present_cases hp
    exact .left hold (isReinstalled_of_open hopen)

theorem Remnant.clear (hm : s.Remnant m) (slot : Slot) (d : Decision) :
    s.Remnant (m.clear slot d) := by
  intro other
  by_cases hother : other = slot
  · subst hother
    have hdecided : (m.clear other d).isDecided other := Model.isDecided_decide_self _ _ _
    rw [Model.present_clear, if_pos rfl, if_pos hdecided]
  · have hsame := Model.sameAt_clear m d hother
    rw [hsame.present, hsame.isDecided, hm other]

/-! ## What removals do to a remnant -/

/-- A package goes that is a target or has lost what it requires, or the attitude changes. -/
inductive Sheds (s : Scope) (targets : List Package) (m : Model) : Model → Prop
  | target {t : Package} {d : Decision} (ht : t ∈ targets) (hholds : m.Holds t.build) :
      Sheds s targets m (m.clear t.slot d)
  | dependent {p : Package} {r : Requirement} {d : Decision} (hp : p ∈ m.packages)
      (hr : r ∈ (s.metadataOf p).requires) (hbroken : s.isBroken m p r) :
      Sheds s targets m (m.clear p.slot d)
  | attitude (erases : Bool) : Sheds s targets m { m with erasesDependents := erases }

abbrev Shedding (s : Scope) (targets : List Package) : Model → Model → Prop :=
  Relation.ReflTransGen (s.Sheds targets)

theorem Sheds.remnant (hm : s.Remnant m) (h : s.Sheds targets m m') : s.Remnant m' := by
  cases h with
  | target => exact hm.clear _ _
  | dependent => exact hm.clear _ _
  | attitude => exact hm

theorem Remnant.shedding (hm : s.Remnant m) (h : s.Shedding targets m m') : s.Remnant m' := by
  induction h with
  | refl => exact hm
  | tail _ hsheds ih => exact hsheds.remnant ih

theorem Sheds.mono {others : List Package} (hsub : targets ⊆ others) (h : s.Sheds targets m m') :
    s.Sheds others m m' := by
  cases h with
  | target ht hholds => exact .target (hsub ht) hholds
  | dependent hp hr hbroken => exact .dependent hp hr hbroken
  | attitude erases => exact .attitude erases

theorem Sheds.withJob {job : Nat} (h : ({ s with job := job } : Scope).Sheds targets m m') :
    s.Sheds targets m m' := by
  cases h with
  | target ht hholds => exact .target ht hholds
  | dependent hp hr hbroken => exact .dependent hp hr hbroken
  | attitude erases => exact .attitude erases

theorem Sheds.not_holds {b : Build} (hb : ¬ m.Holds b) (h : s.Sheds targets m m') :
    ¬ m'.Holds b := by
  have hclear (slot : Slot) (d : Decision) : ¬ (m.clear slot d).Holds b := by
    rintro ⟨p, hp, hbuild⟩
    rw [Model.present_clear] at hp
    split at hp
    · cases hp
    · exact hb ⟨p, hp, hbuild⟩
  cases h with
  | target => exact hclear _ _
  | dependent => exact hclear _ _
  | attitude => exact hb

theorem Shedding.not_holds {b : Build} (hb : ¬ m.Holds b) (h : s.Shedding targets m m') :
    ¬ m'.Holds b := by
  induction h with
  | refl => exact hb
  | tail _ hsheds ih => exact hsheds.not_holds ih

/-- What is installed in a slot that was decided is among what goes. -/
def Within (s : Scope) (gone : Set Package) (m : Model) : Prop :=
  ∀ p, s.installed[p.slot]? = some p → m.isDecided p.slot → p ∈ gone

theorem Within.clear {gone : Set Package} (hw : s.Within gone m) {p : Package} (d : Decision)
    (hp : s.installed[p.slot]? = some p) (hgone : p ∈ gone) : s.Within gone (m.clear p.slot d) := by
  intro q hq hdecided
  rcases (Model.isDecided_decide_iff d).1 hdecided with hslot | hdecided
  · rw [hslot, hp] at hq
    cases hq
    exact hgone
  · exact hw q hq hdecided

/-- A requirement is broken only if all that met it went. -/
theorem loses_of_isBroken {gone : Set Package} (hs : s.Views ix) (hm : s.Remnant m)
    (hw : s.Within gone m) {p : Package} {r : Requirement} (hp : p ∈ m.packages)
    (hr : r ∈ (s.metadataOf p).requires) (hbroken : s.isBroken m p r) : ix.Loses gone p := by
  unfold isBroken at hbroken
  rw [hm.unchanged hs p hp, Bool.false_or, Bool.and_eq_true, Bool.not_eq_true'] at hbroken
  obtain ⟨hunmet, hbefore⟩ := hbroken
  obtain ⟨metadata, hmetadata, hr⟩ := (mem_metadataOf_iff Metadata.requires rfl).1 hr
  rw [hs.index] at hmetadata
  refine ⟨metadata, hmetadata, r, hr, ?_, fun q hq hmeets => ?_⟩
  · obtain ⟨q, hq, hmeets⟩ := satisfied_iff.1 hbefore
    exact ⟨q, (mem_values_installed_iff hs).1 hq, hs.index ▸ hmeets⟩
  · have hold := Index.mem_installedPackages_iff.1 hq
    rw [← hs.installed] at hold
    refine hw q hold ?_
    by_contra hopen
    have hpresent := hm q.slot
    rw [if_neg hopen, hold] at hpresent
    have hmet : s.satisfied m.packages r :=
      satisfied_iff.2 ⟨q, (hm.keyed hs).mem_packages_iff.2 hpresent, hs.index.symm ▸ hmeets⟩
    rw [hmet] at hunmet
    cases hunmet

theorem Sheds.within {gone : Set Package} (hs : s.Views ix)
    (hclosed : ix.ClosedUnderRemoval targets gone) (hm : s.Remnant m) (hw : s.Within gone m)
    (h : s.Sheds targets m m') : s.Within gone m' := by
  have hinstalled {p : Package} (hp : p ∈ m.packages) : s.installed[p.slot]? = some p :=
    (hm.present_cases ((hm.keyed hs).mem_packages_iff.1 hp)).2
  cases h with
  | @target t d ht hholds =>
    obtain ⟨p, hp, hbuild⟩ := hholds
    have hslot : p.slot = t.slot := congrArg Build.slot hbuild
    have hpresent : m.present[p.slot]? = some p := by rw [hslot]; exact hp
    have hp := (hm.keyed hs).mem_packages_iff.2 hpresent
    rw [← hslot]
    exact hw.clear _ (hinstalled hp)
      (hclosed.targets p (hm.mem_installedPackages hs hp) _ ht hbuild.symm)
  | dependent hp hr hbroken =>
    have hloses := loses_of_isBroken hs hm hw hp hr hbroken
    exact hw.clear _ (hinstalled hp)
      (hclosed.dependents _ (hm.mem_installedPackages hs hp) hloses)
  | attitude => exact hw

/-- What goes in a run is within every closed set. -/
theorem Shedding.within {gone : Set Package} (hs : s.Views ix)
    (hclosed : ix.ClosedUnderRemoval targets gone) (hm : s.Remnant m) (hw : s.Within gone m)
    (h : s.Shedding targets m m') : s.Within gone m' := by
  induction h with
  | refl => exact hw
  | tail hbefore hsheds ih => exact hsheds.within hs hclosed (hm.shedding hbefore) ih

/-! ## Removals are carried out -/

theorem attitude_eraseTargets (erased : List Package) :
    (s.eraseTargets m erased).erasesDependents = m.erasesDependents := by
  induction erased generalizing m with
  | nil => rfl
  | cons t rest ih =>
    rw [eraseTargets_cons, ih]
    by_cases hholds : m.Holds t.build
    · rw [eraseTarget_of_holds hholds]
      exact Model.erasesDependents_decide _ _ _
    · rw [eraseTarget_of_not_holds hholds]

/-- A package of a remnant whose requirement is broken goes along. -/
theorem Remnant.repair (hs : s.Views ix) (hm : s.Remnant m) (hattitude : m.erasesDependents)
    {need : Need} (hneed : need.package ∈ m.packages) (settle : Model → Search Model) :
    (s.repair settle m need).result = .ok (s.erase m need.package.slot .dependency) := by
  have hopen := (hm.present_cases ((hm.keyed hs).mem_packages_iff.1 hneed)).1
  have hgoes : s.goesAlong m need := by
    unfold goesAlong isUntouched
    rw [hm.unchanged hs _ hneed, hopen, hattitude]
    rfl
  rw [repair_eq, if_pos hgoes]
  exact Search.result_debug_bind _ _

/-- By induction on the steps: each takes off one package, until no requirement is broken. -/
theorem Remnant.settle (hs : s.Views ix) (hm : s.Remnant m) (targets : List Package)
    (hattitude : m.erasesDependents) {steps : Nat} (hsteps : s.openSlots m < steps) :
    ∃ m', (s.settle steps m).result = .ok m' ∧ s.Shedding targets m m' := by
  induction steps generalizing m with
  | zero => exact absurd hsteps (Nat.not_lt_zero _)
  | succ steps ih =>
    have hobsoletes : (s.applyObsoletes m).result = .ok none := by
      rw [applyObsoletes_eq_none_iff, changed_eq_nil (hm.unchanged hs)]
      exact nofun
    have hconflicts : (s.resolveConflicts m).result = .ok none :=
      resolveConflicts_eq_none_iff.2 (clashes_eq_nil (hm.unchanged hs))
    rcases hbroken : s.firstBroken? m with _ | need
    · have hsettled : s.Settled m := (settled_iff (s.settle steps)).2 ⟨hobsoletes, hconflicts,
        (repairRequires_eq_none_iff (s.settle steps)).2 hbroken⟩
      exact ⟨m, settle_of_settled hsettled steps, .refl⟩
    · obtain ⟨p, hp, hfind⟩ := List.exists_of_findSome?_eq_some hbroken
      obtain ⟨r, hr, rfl⟩ := Option.map_eq_some_iff.1 hfind
      have hopen := (hm.present_cases ((hm.keyed hs).mem_packages_iff.1 hp)).1
      have hsheds : s.Sheds targets m (s.erase m p.slot .dependency) :=
        .dependent hp (List.mem_of_find?_eq_some hr) (List.find?_some hr)
      have hrequires : (s.repairRequires (s.settle steps) m).result =
          .ok (some (s.erase m p.slot .dependency)) := by
        unfold repairRequires
        rw [hbroken]
        exact Search.result_bind_eq_ok.2 ⟨_, hm.repair hs hattitude hp _, rfl⟩
      have hless : s.openSlots (s.erase m p.slot .dependency) < s.openSlots m :=
        openSlots_lt_of_decides
          (.single (.clear hopen Fate.noConfusion) : Model.Reaches (fun _ => True) _ _)
          ((hm.disciplined hs []).decides hp hopen (Model.isDecided_decide_self _ _ _))
      obtain ⟨m', hsettle, hrest⟩ := ih (hsheds.remnant hm)
        ((Model.erasesDependents_decide _ _ _).trans hattitude) (by omega)
      exact ⟨m', settle_succ_eq_ok_iff.2 (.require hobsoletes hconflicts hrequires hsettle),
        .head hsheds hrest⟩

/-- A removal is carried out; then no target is left, and nothing lacks what it had. -/
theorem Remnant.remove (hs : s.Views ix) (hm : s.Remnant m) (targets : List Package) :
    ∃ m', (s.remove m targets).result = .ok m' ∧ s.Shedding targets m m' ∧ s.Settled m' ∧
      ∀ t ∈ targets, ¬ m'.Holds t.build := by
  have herase : s.Shedding targets { m with erasesDependents := true }
      (s.eraseTargets { m with erasesDependents := true } targets) :=
    eraseTargets_relates fun _ _ ht hholds => .target ht hholds
  have hbefore : s.Shedding targets m
      (s.eraseTargets { m with erasesDependents := true } targets) := .head (.attitude true) herase
  have hremnant := hm.shedding hbefore
  have hattitude : (s.eraseTargets { m with erasesDependents := true } targets).erasesDependents :=
    attitude_eraseTargets targets
  obtain ⟨settled, hsettle, hafter⟩ :=
    hremnant.settle hs targets hattitude (openSlots_lt_steps _)
  refine ⟨{ settled with erasesDependents := false }, ?_, ?_, ?_, fun t ht => ?_⟩
  · unfold Scope.remove
    exact Search.result_bind_eq_ok.2 ⟨settled, hsettle, rfl⟩
  · exact (hbefore.trans hafter).tail (.attitude false)
  · have hsettles : s.Settles (fun _ => True) (s.settle s.steps) :=
      settle_reaches (fun _ _ => trivial) s.steps
    exact (hsettles (hremnant.keyed hs) hsettle).2.attitude
  · exact Shedding.not_holds (not_holds_eraseTargets ht) (hafter.tail (.attitude false))

/-- By induction on the requests: each of them is carried out on what the others have left. -/
theorem Remnant.performAll (hs : s.Views ix) (hm : s.Remnant m) (hsettled : s.Settled m)
    {requests : List Request}
    (hremove : ∀ request ∈ requests, ∃ targets, request.task = .remove targets)
    (problems : List Problem) :
    ∃ m', (s.performAll m problems requests).value = .ok (m', problems) ∧
      s.Shedding (targetsOf requests) m m' ∧ s.Settled m' ∧
      ∀ t ∈ targetsOf requests, ¬ m'.Holds t.build := by
  induction requests generalizing s m with
  | nil => exact ⟨m, rfl, .refl, hsettled, nofun⟩
  | cons request rest ih =>
    obtain ⟨⟨targets, htask⟩, hrest⟩ := List.forall_mem_cons.1 hremove
    have hsplit : targetsOf (request :: rest) = targets ++ targetsOf rest := by
      unfold targetsOf
      rw [List.flatMap_cons, htask]
      rfl
    obtain ⟨after, hperform, hshedding, hafter, hgone⟩ :=
      Remnant.remove (s := { s with job := request.job }) (hs.withJob _) hm targets
    have hfirst : ({ s with job := request.job } : Scope).Shedding (targetsOf (request :: rest))
        m after :=
      Relation.ReflTransGen.mono (fun _ _ => .mono (hsplit ▸ List.subset_append_left _ _)) _ _
        hshedding
    have hremnant : ({ s with job := request.job } : Scope).Remnant after :=
      Remnant.shedding hm hshedding
    obtain ⟨m', hrun, hlater, hlast, hrestGone⟩ := ih (hs.withJob _) hremnant hafter hrest
    have hlater : ({ s with job := request.job } : Scope).Shedding (targetsOf (request :: rest))
        after m' :=
      Relation.ReflTransGen.mono (fun _ _ => .mono (hsplit ▸ List.subset_append_right _ _)) _ _
        hlater
    refine ⟨m', ?_, ?_, hlast.withJob, fun t ht => ?_⟩
    · rw [performAll_cons, htask, show (({ s with job := request.job } : Scope).perform m
        (.remove targets)).result = .ok after from hperform]
      exact hrun
    · exact Relation.ReflTransGen.mono (fun _ _ => .withJob) _ _ (hfirst.trans hlater)
    · rw [hsplit] at ht
      rcases List.mem_append.1 ht with ht | ht
      · exact Shedding.not_holds (hgone t ht) hlater
      · exact hrestGone t ht

/-! ## What is taken off -/

theorem Remnant.mem_takenOff_iff (hs : s.Views ix) (hm : s.Remnant m) {p : Package} :
    p ∈ Change.takenOff (s.changes m) ↔ p ∈ ix.installedPackages ∧ m.isDecided p.slot := by
  have hinstalled (slot : Slot) (p : Package) (hp : s.installed[slot]? = some p) :
      p.slot = slot := by
    rw [hs.installed] at hp
    exact Index.slot_installedAt? hp
  rw [mem_takenOff_changes_iff hinstalled, Index.mem_installedPackages_iff, ← hs.installed,
    hm p.slot]
  refine and_congr_right fun hold => ?_
  rw [hold, ite_eq_left_iff]
  constructor
  · intro h
    by_contra hopen
    cases h hopen
  · exact fun hdecided hopen => absurd hdecided hopen

/-- What is left takes nothing that it requires from what went, and no target is left. -/
theorem Remnant.closed (hs : s.Views ix) (hm : s.Remnant m) (hsettled : s.Settled m)
    (hgone : ∀ t ∈ targets, ¬ m.Holds t.build) :
    ix.ClosedUnderRemoval targets {p | p ∈ Change.takenOff (s.changes m)} := by
  have hpresent {p : Package} (hp : p ∈ ix.installedPackages) :
      p ∈ Change.takenOff (s.changes m) ∨ p ∈ m.packages := by
    by_cases hdecided : m.isDecided p.slot
    · exact .inl ((hm.mem_takenOff_iff hs).2 ⟨hp, hdecided⟩)
    · refine .inr ((hm.keyed hs).mem_packages_iff.2 ?_)
      rw [hm p.slot, if_neg hdecided, hs.installed]
      exact Index.mem_installedPackages_iff.1 hp
  constructor
  · intro p hp t ht hbuild
    refine (hpresent hp).resolve_right fun hp => hgone t ht ?_
    rw [hbuild]
    exact ⟨p, (hm.keyed hs).mem_packages_iff.1 hp, rfl⟩
  · rintro p hp ⟨metadata, hmetadata, r, hr, ⟨q, hq, hmeets⟩, hlost⟩
    refine (hpresent hp).resolve_right fun hp => ?_
    have hmet := (firstBroken?_eq_none_iff hs).1 hsettled.requires
    obtain ⟨q, hq, hmeets⟩ := hmet p hp metadata hmetadata r hr (.inr ⟨q, hq, hmeets⟩)
    have hqgone := hlost q (hm.mem_installedPackages hs hq) hmeets
    have hdecided := ((hm.mem_takenOff_iff hs).1 hqgone).2
    rw [(hm.present_cases ((hm.keyed hs).mem_packages_iff.1 hq)).1] at hdecided
    cases hdecided

theorem Remnant.not_isInbound (hs : s.Views ix) (hm : s.Remnant m) :
    ∀ c ∈ s.changes m, c.action.isInbound = false := by
  intro c hc
  by_contra hinbound
  have hbrought : c.package ∈ Change.broughtIn (s.changes m) :=
    Change.mem_broughtIn_iff.2 ⟨c, hc, Bool.of_not_eq_false hinbound, rfl⟩
  obtain ⟨hpresent, hchanged⟩ := (mem_broughtIn_changes_iff (hm.keyed hs)).1 hbrought
  rw [hm.unchanged hs _ ((hm.keyed hs).mem_packages_iff.2 hpresent)] at hchanged
  cases hchanged

end Scope

/-! ## Solving -/

variable {ix : Index} {policy : Policy} {requests : List Request}

/-- Requests that remove are all met, and the least closed set is taken off. -/
theorem solve_of_removals (ix : Index) (policy : Policy)
    (hremove : ∀ request ∈ requests, ∃ targets, request.task = .remove targets) :
    ∃ outcome, (solve ix policy requests).value = .ok outcome ∧ outcome.problems = [] ∧
      (∀ c ∈ outcome.changes, c.action.isInbound = false) ∧
      IsLeast {gone | ix.ClosedUnderRemoval (targetsOf requests) gone}
        {p | p ∈ Change.takenOff outcome.changes} := by
  have hs := Scope.views_ofIndex ix policy
  have hstart := Scope.remnant_start (s := Scope.ofIndex ix policy)
  have hsettled := (Scope.start_orderly (s := Scope.ofIndex ix policy)
    Scope.slot_installed_ofIndex requests).settled
  obtain ⟨m, hrun, hshedding, hlast, hgone⟩ := hstart.performAll hs hsettled hremove []
  have hm := hstart.shedding hshedding
  refine ⟨⟨(Scope.ofIndex ix policy).changes m, []⟩, ?_, rfl, hm.not_isInbound hs,
    hm.closed hs hlast hgone, fun gone hclosed p hp => ?_⟩
  · unfold solve
    rw [Traced.value_bind, hrun]
    rfl
  · have hwithin : (Scope.ofIndex ix policy).Within gone (Scope.ofIndex ix policy).start := by
      intro q _ hdecided
      rw [Scope.isDecided_start] at hdecided
      cases hdecided
    obtain ⟨hp, hdecided⟩ := (hm.mem_takenOff_iff hs).1 hp
    refine hshedding.within hs hclosed hstart hwithin p ?_ hdecided
    rw [hs.installed]
    exact Index.mem_installedPackages_iff.1 hp

/--
Requests that remove are all met, and bring nothing in. What they take off is the least set that
holds the installed targets and every package that loses something it requires. Other requests with
the same targets, in whatever order, take off the same.
-/
theorem solve_removes_least (ix : Index) (policy : Policy)
    (hremove : ∀ request ∈ requests, ∃ targets, request.task = .remove targets) :
    ∃ outcome, (solve ix policy requests).value = .ok outcome ∧ outcome.problems = [] ∧
      (∀ c ∈ outcome.changes, c.action.isInbound = false) ∧
      IsLeast {gone | ix.ClosedUnderRemoval (targetsOf requests) gone}
        {p | p ∈ Change.takenOff outcome.changes} ∧
      ∀ others : List Request, (∀ request ∈ others, ∃ targets, request.task = .remove targets) →
        (∀ t, t ∈ targetsOf others ↔ t ∈ targetsOf requests) →
        ∃ other, (solve ix policy others).value = .ok other ∧
          ∀ p, p ∈ Change.takenOff other.changes ↔ p ∈ Change.takenOff outcome.changes := by
  obtain ⟨outcome, hsolve, hproblems, hinbound, hleast⟩ := solve_of_removals ix policy hremove
  refine ⟨outcome, hsolve, hproblems, hinbound, hleast, fun others hothers htargets => ?_⟩
  obtain ⟨other, hother, -, -, hotherLeast⟩ := solve_of_removals ix policy hothers
  have hsame : {gone | ix.ClosedUnderRemoval (targetsOf others) gone} =
      {gone | ix.ClosedUnderRemoval (targetsOf requests) gone} :=
    Set.ext fun gone => ⟨fun h => h.congr fun t => (htargets t).symm, fun h => h.congr htargets⟩
  rw [hsame] at hotherLeast
  exact ⟨other, hother, fun p => Set.ext_iff.1 (hotherLeast.unique hleast) p⟩

/-! ### A chain of requirements -/

def link (name : String) : Package := ⟨⟨name, "x", ⟨0, "1", none⟩⟩, "s", none⟩

/-- `c` requires `b`, which requires `a`; `d` stands alone. -/
def linkIndex : Index :=
  (((({} : Index).addInstalled (link "a") {}).addInstalled
    (link "b") { requires := [⟨"a", .any⟩] }).addInstalled
    (link "c") { requires := [⟨"b", .any⟩] }).addInstalled (link "d") {}

def linkRequests : List Request := [⟨0, .remove [link "a"], false⟩, ⟨1, .remove [link "c"], false⟩]

/-- With `a` and `c` goes what is between them. -/
theorem solve_removes_least_link :
    (∀ request ∈ linkRequests, ∃ targets, request.task = .remove targets) ∧
      IsLeast {gone | linkIndex.ClosedUnderRemoval [link "a", link "c"] gone}
        {p | p ∈ [link "a", link "b", link "c"]} := by
  have hremove : ∀ request ∈ linkRequests, ∃ targets, request.task = .remove targets := by
    intro request hrequest
    rcases List.mem_cons.1 hrequest with rfl | hrequest
    · exact ⟨_, rfl⟩
    · rw [List.mem_singleton.1 hrequest]
      exact ⟨_, rfl⟩
  obtain ⟨outcome, hsolve, -, -, hleast, -⟩ := solve_removes_least linkIndex {} hremove
  have htaken : ((solve linkIndex {} linkRequests).value.map fun outcome =>
      Change.takenOff outcome.changes) = .ok [link "a", link "b", link "c"] := by cbv
  rw [hsolve] at htaken
  have htaken : Change.takenOff outcome.changes = [link "a", link "b", link "c"] :=
    Except.ok.inj htaken
  rw [htaken] at hleast
  exact ⟨hremove, hleast⟩

end Solver

end Provision
