import Provision.Proofs.Solver.Accepted
import Provision.Proofs.Solver.Completeness
import Provision.Proofs.Solver.Permission

/-!
# Who asked for a change

The first job that decides a slot says whether the user asked for that. Of the jobs after it only a
removal that takes out what the slot holds says it anew (`Accepts.isUsers_iff`). So whether a change
counts as the user's depends on the order of the jobs: a package that a job names keeps the reason
that an earlier job gave it when it brought the package in, or took it off, on account of another
one. As long as only what is installed is to be removed, there is no other way for it not to be the
user's (`reason_eq_user_iff_of_names`).
-/

namespace Provision.Solver

open Model (Reaches SameAt)

/-! ## Slots decided for the user -/

namespace Model

/-- What was decided about the slot, if anything, the user asked for. -/
def IsUsers (m : Model) (slot : Slot) : Prop := ∀ d, m.decided[slot]? = some d → d.reason = .user

variable {m m' : Model} {slot : Slot}

theorem SameAt.isUsers_iff (h : SameAt slot m m') : m'.IsUsers slot ↔ m.IsUsers slot := by
  unfold IsUsers
  rw [h.decided]

theorem isUsers_of_open (h : m.isDecided slot = false) : m.IsUsers slot := by
  intro d hd
  rw [decided?_eq_none h] at hd
  cases hd

theorem isUsers_of_decided? {d : Decision} (h : m.decided[slot]? = some d)
    (huser : d.reason = .user) : m.IsUsers slot := by
  intro e he
  rw [h] at he
  exact Option.some.inj he ▸ huser

/-- That the user asks for a slot is noted whether it was decided before or not. -/
theorem isUsers_decide_self (m : Model) {slot : Slot} {d : Decision} (huser : d.reason = .user) :
    (m.decide slot d).IsUsers slot := by
  unfold decide
  split
  · exact isUsers_of_decided? Std.TreeMap.getElem?_insert_self huser
  · rw [if_pos huser]
    exact isUsers_of_decided? Std.TreeMap.getElem?_insert_self rfl

end Model

/-! ## What jobs decide -/

namespace Carried

/-- The job is the first to decide the slot, and it does so on account of another package. -/
def BringsAlong (c : Carried) (slot : Slot) : Prop :=
  c.before.isDecided slot = false ∧ ¬ c.after.IsUsers slot

/-- The job removes what the slot holds. -/
def TakesOut (c : Carried) (slot : Slot) : Prop :=
  ∃ targets, c.request.task = .remove targets ∧
    ∃ t ∈ targets, t.slot = slot ∧ c.before.Holds t.build

theorem spares_of_not_takesOut {c : Carried} {slot : Slot} (h : ¬ c.TakesOut slot) :
    c.request.task.Spares slot c.before :=
  fun targets htask t ht hslot hholds => h ⟨targets, htask, t, ht, hslot, hholds⟩

end Carried

namespace Scope

variable {s : Scope} {requests : List Request} {m m' : Model} {c : Carried} {slot : Slot}

/-- The job names the build: as the candidate that it takes, or as what is to be put or to go. -/
def Names (s : Scope) (c : Carried) (b : Build) : Prop :=
  match c.request.task with
  | .install candidates =>
    ∃ p, ({ s with job := c.request.job } : Scope).Selects c.before c.after candidates p ∧
      p.build = b
  | .reinstall package => package.build = b
  | .remove targets => ∃ t ∈ targets, t.build = b

/-! ### Installations -/

theorem place_isUsers {p : Package} (hopen : m.isDecided p.slot = false)
    (h : s.place m p .user = .ok m') : m'.IsUsers p.slot := by
  rcases place_cases h with ⟨-, ⟨hdecided, -⟩ | ⟨-, rfl⟩⟩ | ⟨-, -, -, rfl⟩
  · rw [hopen] at hdecided
    cases hdecided
  · exact Model.isUsers_decide_self m rfl
  · exact Model.isUsers_decide_self _ rfl

/-- The slot of a candidate is the user's unless it was decided before. -/
theorem take_isUsers (hm : m.Keyed) {p : Package} (h : (s.take m p).result = .ok m') :
    m'.isDecided p.slot ∧ (m.isDecided p.slot = false → m'.IsUsers p.slot) := by
  have hall : ∀ p ∈ s.choices, (fun _ : Package => True) p := fun _ _ => trivial
  obtain ⟨placed, hplace, hreaches, -⟩ := exists_place_of_take hall hm trivial h
  have hdecided := (place_holds hplace).2
  have hsame := hreaches.sameAt hdecided
  exact ⟨hsame.isDecided.trans hdecided,
    fun hopen => hsame.isUsers_iff.2 (place_isUsers hopen hplace)⟩

/-! ### Removals -/

theorem eraseTarget_isUsers (t : Package) (h : m.isDecided slot ∧ m.IsUsers slot) :
    (s.eraseTarget m t).isDecided slot ∧ (s.eraseTarget m t).IsUsers slot := by
  by_cases hholds : m.Holds t.build
  · rw [eraseTarget_of_holds hholds]
    by_cases hslot : slot = t.slot
    · subst hslot
      exact ⟨Model.isDecided_decide_self _ _ _, Model.isUsers_decide_self _ rfl⟩
    · have hsame := Model.sameAt_clear m ⟨.user, s.job, .plain⟩ hslot
      exact ⟨hsame.isDecided.trans h.1, hsame.isUsers_iff.2 h.2⟩
  · rw [eraseTarget_of_not_holds hholds]
    exact h

theorem eraseTargets_isUsers (targets : List Package) (h : m.isDecided slot ∧ m.IsUsers slot) :
    (s.eraseTargets m targets).isDecided slot ∧ (s.eraseTargets m targets).IsUsers slot := by
  induction targets generalizing m with
  | nil => exact h
  | cons t rest ih =>
    rw [eraseTargets_cons]
    exact ih (eraseTarget_isUsers t h)

/-- A target that is there is taken out, by itself or by an earlier target in its slot. -/
theorem eraseTargets_isUsers_of_holds {targets : List Package} {t : Package} (ht : t ∈ targets)
    (hholds : m.Holds t.build) :
    (s.eraseTargets m targets).isDecided t.slot ∧ (s.eraseTargets m targets).IsUsers t.slot := by
  induction targets generalizing m with
  | nil => cases ht
  | cons u rest ih =>
    rw [eraseTargets_cons]
    by_cases hu : m.Holds u.build
    · rw [eraseTarget_of_holds hu]
      by_cases hslot : t.slot = u.slot
      · rw [hslot]
        exact eraseTargets_isUsers rest
          ⟨Model.isDecided_decide_self _ _ _, Model.isUsers_decide_self _ rfl⟩
      · have hsame := Model.sameAt_clear m ⟨.user, s.job, .plain⟩ hslot
        refine ih ((List.mem_cons.1 ht).resolve_left ?_) (hsame.holds hholds)
        rintro rfl
        exact hslot rfl
    · rw [eraseTarget_of_not_holds hu]
      refine ih ((List.mem_cons.1 ht).resolve_left ?_) hholds
      rintro rfl
      exact hu hholds

theorem Accepts.takesOut (hm : c.before.Keyed) (h : s.Accepts c) (htakes : c.TakesOut slot) :
    c.after.isDecided slot ∧ c.after.IsUsers slot := by
  obtain ⟨targets, htask, t, ht, rfl, hholds⟩ := htakes
  unfold Accepts at h
  rw [htask] at h
  obtain ⟨settled, hsettle, hafter⟩ := remove_cases h
  obtain ⟨hdecided, husers⟩ := eraseTargets_isUsers_of_holds
    (s := { s with job := c.request.job }) (m := { c.before with erasesDependents := true }) ht
    hholds
  have hsteps : Model.Steps (fun _ => True) (.remove targets) c.before
      (eraseTargets { s with job := c.request.job } { c.before with erasesDependents := true }
        targets) := .head (.attitude true) eraseTargets_steps
  obtain ⟨hreaches, -⟩ := settle_reaches (s := { s with job := c.request.job })
    (fun p hp => hp) _ (hm.steps hsteps) hsettle
  have hsame := hreaches.sameAt hdecided
  rw [hafter]
  exact ⟨hsame.isDecided.trans hdecided, hsame.isUsers_iff.2 husers⟩

/-! ### All jobs -/

/-- A job changes nothing about whether a slot is the user's but by deciding or emptying it. -/
theorem Accepts.isUsers_iff (hrequest : c.request ∈ requests) (hm : c.before.Keyed)
    (h : s.Accepts c) :
    c.after.IsUsers slot ↔
      (c.before.IsUsers slot ∧ ¬ c.BringsAlong slot) ∨ c.TakesOut slot := by
  by_cases htakes : c.TakesOut slot
  · exact iff_of_true (h.takesOut hm htakes).2 (.inr htakes)
  · rw [or_iff_left htakes]
    rcases hslot : c.before.isDecided slot
    · have hbrings : c.BringsAlong slot ↔ ¬ c.after.IsUsers slot := and_iff_right hslot
      rw [hbrings, not_not, and_iff_right (Model.isUsers_of_open hslot)]
    · have hsame := steps_sameAt hslot (Carried.spares_of_not_takesOut htakes)
        (h.steps hrequest hm).1
      rw [hsame.isUsers_iff, iff_self_and]
      rintro - ⟨hopen, -⟩
      rw [hslot] at hopen
      cases hopen

/-- The slot of a package that a job names is decided after it, and not on account of another. -/
theorem Accepts.not_bringsAlong (hrequest : c.request ∈ requests)
    (hm : s.Disciplined requests c.before) (h : s.Accepts c) {b : Build} (hnames : s.Names c b)
    (hknown : (∀ targets, c.request.task ≠ .remove targets) ∨
      ∃ p, s.installed[b.slot]? = some p ∧ p.build = b) :
    c.after.isDecided b.slot ∧ ¬ c.BringsAlong b.slot := by
  unfold Names at hnames
  split at hnames
  · obtain ⟨p, ⟨-, -, -, -, htake⟩, rfl⟩ := hnames
    obtain ⟨hdecided, husers⟩ := take_isUsers hm.keyed htake
    exact ⟨hdecided, fun hbrings => hbrings.2 (husers hbrings.1)⟩
  · rename_i package htask
    subst hnames
    unfold Accepts at h
    rw [htask] at h
    obtain ⟨hopen, hsettle⟩ := reinstall_cases h
    obtain ⟨hreaches, -⟩ := settle_reaches (s := { s with job := c.request.job })
      (fun q hq => hq) _ (hm.keyed.fill package _) hsettle
    have hdecided : (c.before.fill package ⟨.user, c.request.job, .reinstalled⟩).isDecided
        package.slot := Model.isDecided_decide_self _ _ _
    have hsame := hreaches.sameAt hdecided
    exact ⟨hsame.isDecided.trans hdecided,
      fun hbrings => hbrings.2 (hsame.isUsers_iff.2 (Model.isUsers_decide_self _ rfl))⟩
  · rename_i targets htask
    obtain ⟨t, ht, rfl⟩ := hnames
    obtain ⟨p, hp, hbuild⟩ := hknown.resolve_left fun hother => hother targets htask
    by_cases hholds : c.before.Holds t.build
    · obtain ⟨hdecided, husers⟩ := h.takesOut hm.keyed ⟨targets, htask, t, ht, rfl, hholds⟩
      exact ⟨hdecided, fun hbrings => hbrings.2 husers⟩
    · have hslot : c.before.isDecided t.slot := by
        by_contra hopen
        have hpresent := hm.open_eq t.slot (Bool.eq_false_iff.2 hopen)
        exact hholds ⟨p, hpresent.trans hp, hbuild⟩
      refine ⟨(h.steps hrequest hm.keyed).1.isDecided hslot, fun hbrings => ?_⟩
      have hopen := hbrings.1
      rw [hslot] at hopen
      cases hopen

/-! ## Chains of jobs -/

/-- Nothing that is decided already is brought along later. -/
theorem not_bringsAlong_of_chained {cs : List Carried}
    (haccepts : ∀ c ∈ cs, c.request ∈ requests ∧ s.Accepts c) (hm : m.Keyed)
    (h : Chained m cs m') (hslot : m.isDecided slot) : ∀ c ∈ cs, ¬ c.BringsAlong slot := by
  induction cs generalizing m with
  | nil => exact fun _ hc => absurd hc List.not_mem_nil
  | cons c rest ih =>
    obtain ⟨rfl, h⟩ := h
    obtain ⟨hrequest, hc⟩ := haccepts c List.mem_cons_self
    obtain ⟨hsteps, -⟩ := hc.steps hrequest hm
    have hrest := ih (fun d hd => haccepts d (List.mem_cons_of_mem c hd)) (hm.steps hsteps) h
      (hsteps.isDecided hslot)
    rintro d hd hbrings
    rcases List.mem_cons.1 hd with rfl | hd
    · have hopen := hbrings.1
      rw [hslot] at hopen
      cases hopen
    · exact hrest d hd hbrings

/-- By induction along the chain: what one job does not change, all of them together do not. -/
theorem isUsers_of_chained {cs : List Carried}
    (haccepts : ∀ c ∈ cs, c.request ∈ requests ∧ s.Accepts c) (hm : m.Keyed)
    (h : Chained m cs m') :
    m'.IsUsers slot ↔
      (m.IsUsers slot ∧ ∀ c ∈ cs, ¬ c.BringsAlong slot) ∨ ∃ c ∈ cs, c.TakesOut slot := by
  induction cs generalizing m with
  | nil =>
    cases h
    simp
  | cons c rest ih =>
    obtain ⟨rfl, h⟩ := h
    have hrest (d : Carried) (hd : d ∈ rest) := haccepts d (List.mem_cons_of_mem c hd)
    obtain ⟨hrequest, hc⟩ := haccepts c List.mem_cons_self
    have hafter := hm.steps (hc.steps hrequest hm).1
    have hlater (htakes : c.TakesOut slot) : ∀ d ∈ rest, ¬ d.BringsAlong slot :=
      not_bringsAlong_of_chained hrest hafter h (hc.takesOut hm htakes).1
    rw [ih hrest hafter h, hc.isUsers_iff hrequest hm, List.forall_mem_cons,
      List.exists_mem_cons_iff, or_and_right, and_assoc, and_iff_left_of_imp hlater, or_assoc]

/-! ## Reasons of changes -/

theorem inbound?_reason {p : Package} {change : Change} (h : s.inbound? m p = some change) :
    change.reason = ((m.decided[p.slot]?).map Decision.reason).getD .dependency := by
  unfold inbound? at h
  dsimp only at h
  split at h
  · cases h
    rfl
  · split at h
    · split at h
      · cases h
        rfl
      · cases h
    · split at h <;>
      · cases h
        rfl

/-- A slot in which something changes is decided. -/
theorem Disciplined.isDecided_of_mem_changes
    (hinstalled : ∀ (slot : Slot) (p : Package), s.installed[slot]? = some p → p.slot = slot)
    (hm : s.Disciplined requests m) {change : Change} (hchange : change ∈ s.changes m) :
    m.isDecided change.package.slot := by
  rcases mem_changes_iff.1 hchange with ⟨p, hp, h⟩ | ⟨p, hp, h⟩
  · obtain ⟨rfl, -⟩ := inbound?_eq_some h
    have hchanged : s.isChanged m change.package.slot := by
      by_contra hunchanged
      rw [(inbound?_eq_none_iff (hm.keyed.mem_packages_iff.1 hp)).2
        (Bool.eq_false_iff.2 hunchanged)] at h
      cases h
    exact (hm.entered (List.mem_filter.2 ⟨hp, hchanged⟩)).decided
  · obtain rfl := (removal?_eq_some h).package
    obtain ⟨slot, hold⟩ := mem_values_iff.1 hp
    obtain rfl := hinstalled slot _ hold
    by_contra hopen
    have hpresent := (hm.open_eq _ (Bool.eq_false_iff.2 hopen)).trans hold
    rw [(removal?_eq_some h).gone] at hpresent
    cases hpresent

theorem Disciplined.reason_eq_user_iff
    (hinstalled : ∀ (slot : Slot) (p : Package), s.installed[slot]? = some p → p.slot = slot)
    (hm : s.Disciplined requests m) {change : Change} (hchange : change ∈ s.changes m) :
    change.reason = .user ↔ m.IsUsers change.package.slot := by
  have hdecided := hm.isDecided_of_mem_changes hinstalled hchange
  rw [Model.isDecided_eq] at hdecided
  obtain ⟨d, hd⟩ := Option.isSome_iff_exists.1 hdecided
  have hreason : change.reason =
      ((m.decided[change.package.slot]?).map Decision.reason).getD .dependency := by
    rcases mem_changes_iff.1 hchange with ⟨p, -, h⟩ | ⟨p, -, h⟩
    · rw [(inbound?_eq_some h).1]
      exact inbound?_reason h
    · rw [(removal?_eq_some h).package]
      exact (removal?_eq_some h).reason
  rw [hreason, hd]
  constructor
  · exact fun huser => Model.isUsers_of_decided? hd huser
  · exact fun husers => husers d hd

end Scope

/-! ## Packages that jobs name -/

variable {ix : Index} {policy : Policy} {requests : List Request} {outcome : Outcome}

/--
A change of a package that a job names has the reason that the user asks for it, just if no job
brings its slot along or one takes it out. Only jobs before the one that names the package can bring
it along, unless that one is a removal of what is not installed.
-/
theorem reason_eq_user_iff_of_names (h : (solve ix policy requests).value = .ok outcome)
    {earlier later : List Carried} {c : Carried}
    (hsplit : carriedOut ix policy requests = earlier ++ c :: later) {change : Change}
    (hchange : change ∈ outcome.changes)
    (hnames : (Scope.ofIndex ix policy).Names c change.package.build) :
    (change.reason = .user ↔
      (∀ d ∈ earlier ++ c :: later, ¬ d.BringsAlong change.package.slot) ∨
        ∃ d ∈ earlier ++ c :: later, d.TakesOut change.package.slot) ∧
    ((∀ targets, c.request.task ≠ .remove targets) ∨ ix.isInstalled change.package.build →
      ∀ d ∈ c :: later, ¬ d.BringsAlong change.package.slot) := by
  obtain ⟨m, hrun, hchanges⟩ := solve_cases h
  obtain ⟨horderly, halong⟩ := performAll_orderly hrun
  have hchained : Chained _ (carriedOut ix policy requests) m := Scope.performAll_chained hrun
  have hmem (d : Carried) (hd : d ∈ c :: later) : d ∈ carriedOut ix policy requests := by
    rw [hsplit]
    exact List.mem_append_right earlier hd
  have hstart : (Scope.ofIndex ix policy).start.Keyed :=
    @Scope.slot_installed_ofIndex ix policy
  constructor
  · rw [horderly.disciplined.reason_eq_user_iff Scope.slot_installed_ofIndex (hchanges ▸ hchange),
      ← hsplit, Scope.isUsers_of_chained (fun d hd => mem_carriedOut hd) hstart hchained,
      and_iff_right (Model.isUsers_of_open (Scope.isDecided_start _))]
  · intro hknown
    have hc := hmem c List.mem_cons_self
    obtain ⟨hrequest, haccepts⟩ := mem_carriedOut hc
    obtain ⟨hdecided, hnot⟩ := haccepts.not_bringsAlong hrequest (halong c hc).1.disciplined hnames
      (hknown.imp_right (exists_installed policy))
    rw [hsplit] at hchained
    obtain ⟨n, -, -, hlater⟩ := Chained.append_iff.1 hchained
    have hrest := Scope.not_bringsAlong_of_chained
      (fun d hd => mem_carriedOut (hmem d (List.mem_cons_of_mem c hd)))
      (halong c hc).2.disciplined.keyed hlater hdecided
    exact List.forall_mem_cons.2 ⟨hnot, hrest⟩

/-! ### A package that is brought along and then named -/

def helper (name : String) : Package := ⟨⟨name, "x", ⟨0, "1", none⟩⟩, "r", none⟩

/-- `a` and `b` are offered, and `a` requires `b`. -/
def helperIndex : Index :=
  (({} : Index).addOffered (helper "a") { requires := [⟨"b", .any⟩] }).addOffered (helper "b") {}

def helperRequests : List Request :=
  [⟨0, .install [helper "a"], false⟩, ⟨1, .install [helper "b"], false⟩]

def helperOutcome : Outcome where
  changes := [
    { package := helper "a", action := .install, reason := .user, job := some 0 },
    { package := helper "b", action := .install, reason := .dependency, job := some 0 }]
  problems := []

theorem solve_helper : (solve helperIndex {} helperRequests).value = .ok helperOutcome := by cbv

/-- Both jobs are carried out, and the second one takes its candidate. -/
theorem carriedOut_helper :
    ∃ c d, carriedOut helperIndex {} helperRequests = [c, d] ∧
      d.request = ⟨1, .install [helper "b"], false⟩ ∧
      (Scope.ofIndex helperIndex {}).Names d (helper "b").build := by
  have hrequests : (carriedOut helperIndex {} helperRequests).map Carried.request =
      helperRequests := by cbv
  obtain ⟨c, rest, hcarried, -, hrest⟩ := List.map_eq_cons_iff.1 hrequests
  obtain ⟨d, rest, rfl, hd, hnil⟩ := List.map_eq_cons_iff.1 hrest
  obtain rfl := List.map_eq_nil_iff.1 hnil
  have hmem : d ∈ carriedOut helperIndex {} helperRequests := by
    rw [hcarried]
    exact List.mem_cons_of_mem c List.mem_cons_self
  have haccepts := (mem_carriedOut hmem).2
  unfold Scope.Accepts at haccepts
  rw [hd] at haccepts
  obtain ⟨p, hselects⟩ := Scope.exists_selects haccepts
  refine ⟨c, d, hcarried, hd, ?_⟩
  unfold Scope.Names
  rw [hd]
  refine ⟨p, hselects, ?_⟩
  obtain ⟨refused, rest, hcandidates, -⟩ := hselects
  have hp : p ∈ [helper "b"] := by
    rw [hcandidates]
    exact List.mem_append_right refused List.mem_cons_self
  rw [List.mem_singleton.1 hp]

theorem reason_eq_user_iff_of_names_helper :
    (solve helperIndex {} helperRequests).value = .ok helperOutcome ∧
      ∃ c d, carriedOut helperIndex {} helperRequests = [c, d] ∧
        (Scope.ofIndex helperIndex {}).Names d (helper "b").build ∧
        c.BringsAlong (helper "b").slot := by
  obtain ⟨c, d, hcarried, hrequest, hnames⟩ := carriedOut_helper
  refine ⟨solve_helper, c, d, hcarried, hnames, ?_⟩
  have hsplit : carriedOut helperIndex {} helperRequests = [c] ++ d :: [] := hcarried
  obtain ⟨hiff, hlater⟩ := reason_eq_user_iff_of_names solve_helper hsplit
    (List.mem_cons_of_mem _ List.mem_cons_self) hnames
  have hinstall (targets : List Package) : d.request.task ≠ .remove targets := by
    rw [hrequest]
    exact Task.noConfusion
  by_contra hnot
  have husers := hiff.2 (.inl (List.forall_mem_cons.2 ⟨hnot, hlater (.inl hinstall)⟩))
  cases husers

/-- A package that a job names may count as brought in for another one. -/
theorem not_all_named_users :
    ¬ ∀ (ix : Index) (policy : Policy) (requests : List Request) (outcome : Outcome),
      (solve ix policy requests).value = .ok outcome →
      ∀ c ∈ carriedOut ix policy requests, ∀ change ∈ outcome.changes,
        (Scope.ofIndex ix policy).Names c change.package.build → change.reason = .user := by
  intro h
  obtain ⟨c, d, hcarried, -, hnames⟩ := carriedOut_helper
  have hmem : d ∈ carriedOut helperIndex {} helperRequests := by
    rw [hcarried]
    exact List.mem_cons_of_mem c List.mem_cons_self
  have hreason := h helperIndex {} helperRequests helperOutcome solve_helper d hmem _
    (List.mem_cons_of_mem _ List.mem_cons_self) hnames
  cases hreason

end Provision.Solver
