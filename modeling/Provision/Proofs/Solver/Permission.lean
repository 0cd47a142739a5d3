import Provision.Proofs.Solver.Changes
import Provision.Proofs.Solver.Mending
import Provision.Proofs.Solver.Termination

/-!
# Nothing goes without permission

Unless a job removes it, an installed package goes on one of two grounds. Either a package that is
brought in obsoletes it or takes its place, and then the decision about its slot names that package;
or the policy allows erasing.

1. Every decision of a model rests on such a ground (`Warranted`), and every turn of a job that is
   not a removal keeps it so (`Turn.warranted`). What a decision names is never taken back, since its
   slot is decided as well.
2. So every change that takes off a package on account of another one names a package that the same
   solution brings in, and there is no other removal unless erasing is allowed (`solve_warranted`).
-/

namespace Provision.Solver

open Model (SameAt)

namespace Scope

variable {s : Scope} {requests : List Request} {m m' : Model}

/-! ## Grounds -/

/-- The package was brought in or put in place once more, and that will not be undone. -/
structure Entered (s : Scope) (m : Model) (p : Package) : Prop where
  decided : m.isDecided p.slot
  present : m.present[p.slot]? = some p
  changed : s.isChanged m p.slot

/-- The decision names a package that was brought in, or leaves the slot taken, or may erase. -/
structure Grounded (s : Scope) (m : Model) (slot : Slot) (d : Decision) : Prop where
  cause : ∀ p, d.fate.cause? = some p → s.Entered m p
  emptied : d.fate.cause? = none → m.present[slot]? = none → s.policy.allowErasing

/-- Every decision has a ground, and no package goes along with what it requires. -/
structure Warranted (s : Scope) (m : Model) : Prop where
  attitude : m.erasesDependents = false
  grounded : ∀ slot d, m.decided[slot]? = some d → s.Grounded m slot d

theorem Entered.sameAt {p : Package} (h : s.Entered m p) (hsame : SameAt p.slot m m') :
    s.Entered m' p :=
  ⟨hsame.isDecided.trans h.decided, hsame.present.trans h.present,
    (isChanged_sameAt hsame).trans h.changed⟩

/-- An open slot holds what is installed, so a slot that is changed is decided. -/
theorem Disciplined.entered (hm : s.Disciplined requests m) {p : Package} (hp : p ∈ s.changed m) :
    s.Entered m p := by
  obtain ⟨hp, hchanged⟩ := List.mem_filter.1 hp
  have hpresent := hm.keyed.mem_packages_iff.1 hp
  refine ⟨?_, hpresent, hchanged⟩
  by_contra hopen
  have hopen := Bool.eq_false_iff.2 hopen
  have hold := (hm.open_eq p.slot hopen).symm.trans hpresent
  rw [isChanged_of_left hpresent hold (isReinstalled_of_open hopen)] at hchanged
  cases hchanged

theorem Grounded.of_present {slot : Slot} {d : Decision} {p : Package}
    (hcause : d.fate.cause? = none) (hp : m.present[slot]? = some p) : s.Grounded m slot d := by
  refine ⟨fun q hq => ?_, fun _ hnone => ?_⟩
  · rw [hcause] at hq
    cases hq
  · rw [hp] at hnone
    cases hnone

theorem Grounded.of_cause {slot : Slot} {d : Decision} {p : Package}
    (hcause : d.fate.cause? = some p) (hp : s.Entered m p) : s.Grounded m slot d := by
  refine ⟨fun q hq => ?_, fun hnone => ?_⟩
  · rw [hcause] at hq
    cases hq
    exact hp
  · rw [hcause] at hnone
    cases hnone

/-! ## Turns keep grounds -/

theorem warranted_start : s.Warranted s.start := by
  refine ⟨rfl, fun slot d hd => ?_⟩
  rw [decided?_start] at hd
  cases hd

/-- Decided slots stay as they are, so only those that were open need a look. -/
theorem Warranted.of_sameAt (hw : s.Warranted m)
    (hattitude : m'.erasesDependents = m.erasesDependents)
    (hsame : ∀ slot, m.isDecided slot → SameAt slot m m')
    (hnew : ∀ slot d, m.isDecided slot = false → m'.decided[slot]? = some d →
      s.Grounded m' slot d) : s.Warranted m' := by
  refine ⟨hattitude.trans hw.attitude, fun slot d hd => ?_⟩
  rcases hdecided : m.isDecided slot
  · exact hnew slot d hdecided hd
  · have hslot := hsame slot hdecided
    rw [hslot.decided] at hd
    obtain ⟨hcause, hemptied⟩ := hw.grounded slot d hd
    refine ⟨fun p hp => ?_, fun hnone hgone => hemptied hnone (hslot.present ▸ hgone)⟩
    have hentered := hcause p hp
    exact hentered.sameAt (hsame p.slot hentered.decided)

/-- Only the slot of a step needs a look. -/
theorem Warranted.of_step (hw : s.Warranted m)
    (hattitude : m'.erasesDependents = m.erasesDependents) {slot : Slot} {d : Decision}
    (hopen : m.isDecided slot = false) (hsame : ∀ other, other ≠ slot → SameAt other m m')
    (hdecided : m'.decided[slot]? = some d) (hground : s.Grounded m' slot d) : s.Warranted m' := by
  refine hw.of_sameAt hattitude (fun other hother => ?_) fun other e hother he => ?_
  · exact hsame other (Model.ne_of_isDecided hother hopen)
  · by_cases heq : other = slot
    · subst heq
      rw [hdecided] at he
      cases he
      exact hground
    · rw [(hsame other heq).decided, Model.decided?_eq_none hother] at he
      cases he

theorem Warranted.clear (hw : s.Warranted m) {slot : Slot} {d : Decision}
    (hopen : m.isDecided slot = false) (hground : s.Grounded (m.clear slot d) slot d) :
    s.Warranted (m.clear slot d) :=
  hw.of_step (Model.erasesDependents_decide _ _ _) hopen (fun _ hne => Model.sameAt_clear m d hne)
    (Model.decided?_clear_self hopen d) hground

theorem Warranted.erase (hw : s.Warranted m) {slot : Slot} {reason : Reason}
    (hopen : m.isDecided slot = false) (hallowed : s.policy.allowErasing) :
    s.Warranted (s.erase m slot reason) :=
  hw.clear hopen ⟨nofun, fun _ _ => hallowed⟩

theorem Warranted.fill (hw : s.Warranted m) {p : Package} {d : Decision}
    (hopen : m.isDecided p.slot = false) (hcause : d.fate.cause? = none) :
    s.Warranted (m.fill p d) := by
  refine hw.of_step (Model.erasesDependents_decide _ _ _) hopen
    (fun _ hne => Model.sameAt_fill m d hne) (Model.decided?_fill_self hopen d)
    (.of_present hcause (p := p) ?_)
  rw [Model.present_fill, if_pos rfl]

/-- By induction on the displaced packages: what they are displaced by is all that is decided. -/
theorem fate_displaceAll {wanted : Package} {gone : List Package} {slot : Slot}
    (hm : ∀ d, m.decided[slot]? = some d → d.fate = .replacedBy wanted) {d : Decision}
    (hd : (gone.foldl (s.displace wanted) m).decided[slot]? = some d) :
    d.fate = .replacedBy wanted := by
  induction gone generalizing m with
  | nil => exact hm d hd
  | cons q rest ih =>
    refine ih (fun e he => ?_) hd
    rcases Model.fate_decide_cases he with hfate | ⟨old, hold, hfate⟩
    · exact hfate
    · exact hfate.symm.trans (hm old hold)

theorem Warranted.place (hm : s.Disciplined requests m) (hw : s.Warranted m) {p : Package}
    {reason : Reason} (h : s.place m p reason = .ok m') : s.Warranted m' := by
  have hreaches : Model.Reaches (fun _ => True) m m' := place_reaches hm.keyed trivial h
  rcases place_cases h with ⟨⟨q, hq, -⟩, ⟨-, rfl⟩ | ⟨hopen, rfl⟩⟩ | ⟨hopen, hnew, -, rfl⟩
  · exact hw
  · refine hw.of_step (Model.erasesDependents_decide _ _ _) hopen
      (fun _ hne => Model.sameAt_decide m _ hne) (Model.decided?_decide_self hopen _)
      (.of_present rfl (p := q) ?_)
    rw [Model.present_decide]
    exact hq
  · have hentered : s.Entered
        (((displaced m p).foldl (s.displace p) m).fill p ⟨reason, s.job, .plain⟩) p := by
      have hpresent := Model.present_fill ((displaced m p).foldl (s.displace p) m) p p.slot
        ⟨reason, s.job, .plain⟩
      rw [if_pos rfl] at hpresent
      refine ⟨Model.isDecided_decide_self _ _ _, hpresent, isChanged_of_ne hpresent fun q hq => ?_⟩
      exact hnew q ((hm.open_eq p.slot hopen).trans hq)
    -- What is decided anew is the slot of `p`, which it fills, and those of what it displaces.
    refine hw.of_sameAt hreaches.attitude (fun slot hslot => hreaches.sameAt hslot)
      fun slot d hslot hd => ?_
    by_cases heq : slot = p.slot
    · subst heq
      have hsame : SameAt p.slot m ((displaced m p).foldl (s.displace p) m) :=
        displaceAll_sameAt fun q hq => ne_of_mem_displaced hq
      rw [Model.decided?_fill_self (hsame.isDecided.trans hopen)] at hd
      cases hd
      exact .of_present rfl hentered.present
    · rw [(Model.sameAt_fill _ _ heq).decided] at hd
      have hfate : d.fate = .replacedBy p := by
        refine fate_displaceAll (fun e he => ?_) hd
        rw [Model.decided?_eq_none hslot] at he
        cases he
      exact .of_cause (by rw [hfate]; rfl) hentered

theorem Remedy.warranted (hm : s.Disciplined requests m) (hw : s.Warranted m) {need : Need}
    (h : s.Remedy m need m') : s.Warranted m' := by
  cases h with
  | goAlong hgoes =>
    have hattitude := (Bool.and_eq_true_iff.1 hgoes).2
    rw [hw.attitude] at hattitude
    cases hattitude
  | provide _ _ hplace => exact hw.place hm hplace
  | upgrade _ _ _ _ _ hplace => exact hw.place hm hplace
  | erase _ huntouched hallowed => exact hw.erase (open_of_isUntouched huntouched) hallowed

theorem Mends.warranted (hm : s.Disciplined requests m) (hw : s.Warranted m)
    (h : s.Mends m m') : s.Warranted m' := by
  cases h with
  | obsolete h =>
    obtain ⟨p, hp, obsolete, other, -, hopen, rfl⟩ := applyObsoletes_eq_some h
    have hentered := hm.entered hp
    refine hw.clear hopen (.of_cause rfl (hentered.sameAt ?_))
    exact Model.sameAt_clear m _ (Model.ne_of_isDecided hentered.decided hopen)
  | conflict _ h =>
    obtain ⟨c, -, slot, hside, rfl⟩ := resolveConflicts_eq_some h
    obtain ⟨hopen, hallowed | hattitude⟩ := isErasable_cases (erasableSide?_cases hside).1
    · exact hw.erase hopen hallowed
    · rw [hw.attitude] at hattitude
      cases hattitude
  | require _ _ _ h => exact h.warranted hm hw

/-- A turn of a job that is not a removal keeps every decision grounded. -/
theorem Turn.warranted (hm : s.Disciplined requests m) (hw : s.Warranted m) {task : Task}
    (hstays : ∀ targets, task ≠ .remove targets) (h : s.Turn task m m') : s.Warranted m' := by
  cases h with
  | mend h => exact h.warranted hm hw
  | candidate _ _ hplace => exact hw.place hm hplace
  | recommended _ _ hplace => exact hw.place hm hplace
  | again _ hopen => exact hw.fill hopen rfl
  | drop htask => exact absurd htask (hstays _)
  | attitude htask => exact absurd htask (hstays _)

/-! ## Runs -/

theorem Warranted.withJob (hw : s.Warranted m) (job : Nat) :
    ({ s with job := job } : Scope).Warranted m := by
  refine ⟨hw.attitude, fun slot d hd => ?_⟩
  obtain ⟨hcause, hemptied⟩ := hw.grounded slot d hd
  refine ⟨fun p hp => ?_, hemptied⟩
  obtain ⟨hdecided, hpresent, hchanged⟩ := hcause p hp
  exact ⟨hdecided, hpresent, hchanged⟩

theorem Accepts.warranted {c : Carried} (hrequest : c.request ∈ requests)
    (hstays : ∀ targets, c.request.task ≠ .remove targets) (hm : s.Disciplined requests c.before)
    (hw : s.Warranted c.before) (h : s.Accepts c) : s.Warranted c.after := by
  have hturns := perform_turns (s := { s with job := c.request.job }) h
  have hafter := Turns.keeps hrequest (fun _ _ hm hw hturn => hturn.warranted hm hw hstays) hturns
    (hm.withJob _) (hw.withJob _)
  exact hafter.2.withJob s.job

/-- No job of a chain takes a ground away. -/
theorem warranted_of_chained {cs : List Carried}
    (haccepts : ∀ c ∈ cs, c.request ∈ requests ∧ s.Accepts c)
    (hstays : ∀ request ∈ requests, ∀ targets, request.task ≠ .remove targets)
    (hm : s.Orderly requests m) (hw : s.Warranted m) (h : Chained m cs m') : s.Warranted m' := by
  refine (h.keeps (fun m => s.Orderly requests m ∧ s.Warranted m) ?_ ⟨hm, hw⟩).2
  rintro c hc ⟨hbefore, hwarranted⟩
  obtain ⟨hrequest, haccepts⟩ := haccepts c hc
  exact ⟨haccepts.orderly hrequest hbefore,
    haccepts.warranted hrequest (hstays _ hrequest) hbefore.disciplined hwarranted⟩

/-! ## Removals of a solution -/

theorem isRemoval_cases {a : Action} (h : a.isRemoval) :
    a = .remove ∨ a = .obsolete ∨ a = .replaced := by
  cases a with
  | remove => exact .inl rfl
  | obsolete => exact .inr (.inl rfl)
  | replaced => exact .inr (.inr rfl)
  | install | upgrade | downgrade | reinstall => cases h

/-- A removal without a cause is one that erasing allows, and a cause comes in with the changes. -/
theorem Warranted.removal
    (hinstalled : ∀ (slot : Slot) (p : Package), s.installed[slot]? = some p → p.slot = slot)
    (hm : s.Disciplined requests m) (hw : s.Warranted m) {c : Change} (hc : c ∈ s.changes m)
    (hremoval : c.action.isRemoval) :
    (c.action = .remove ∧ s.policy.allowErasing) ∨
      (c.action ≠ .remove ∧
        ∃ d ∈ s.changes m, d.action.isInbound ∧ c.replacedBy = some d.package) := by
  rcases mem_changes_iff.1 hc with ⟨q, -, hchange⟩ | ⟨q, hq, hchange⟩
  · have harrival := (inbound?_eq_some hchange).2.2
    exact absurd harrival.isInbound (not_isInbound_of_isRemoval hremoval)
  · have hdeparture := removal?_eq_some hchange
    have hcause := hdeparture.cause
    have hgone := hdeparture.gone
    obtain ⟨slot, hold⟩ := mem_values_iff.1 hq
    obtain rfl := hinstalled slot q hold
    rcases hdecided : m.decided[q.slot]? with _ | d
    · have hopen : m.isDecided q.slot = false := by rw [Model.isDecided_eq, hdecided]; rfl
      rw [hm.open_eq _ hopen, hold] at hgone
      cases hgone
    · have hground := hw.grounded _ d hdecided
      rw [hdecided] at hcause
      rcases hfate : d.fate.cause? with _ | p
      · exact .inl ⟨hdeparture.cause_eq_none_iff.1 (hcause.trans hfate), hground.emptied hfate hgone⟩
      · have hp : c.replacedBy = some p := hcause.trans hfate
        refine .inr ⟨fun hremove => ?_, ?_⟩
        · rw [hdeparture.cause_eq_none_iff.2 hremove] at hp
          cases hp
        · have hentered := hground.cause p hfate
          obtain ⟨d, hd, hinbound, rfl⟩ := Change.mem_broughtIn_iff.1
            ((mem_broughtIn_changes_iff hm.keyed).2 ⟨hentered.present, hentered.changed⟩)
          exact ⟨d, hd, hinbound, hp⟩

end Scope

variable {ix : Index} {policy : Policy} {requests : List Request} {outcome : Outcome}

/--
If no job removes, every package that is obsoleted or replaced is so by a package that comes in with
the same solution, and without the permission to erase no other package is removed.
-/
theorem solve_warranted (hstays : ∀ request ∈ requests, ∀ targets, request.task ≠ .remove targets)
    (h : (solve ix policy requests).value = .ok outcome) :
    (∀ c ∈ outcome.changes, c.action = .obsolete ∨ c.action = .replaced →
      ∃ d ∈ outcome.changes, d.action.isInbound ∧ c.replacedBy = some d.package) ∧
    (policy.allowErasing = false → ∀ c ∈ outcome.changes, c.action.isRemoval →
      c.action = .obsolete ∨ c.action = .replaced) := by
  obtain ⟨m, hrun, hchanges⟩ := solve_cases h
  have hstart := Scope.start_orderly (s := Scope.ofIndex ix policy) Scope.slot_installed_ofIndex
    requests
  have hm := (performAll_orderly hrun).1.disciplined
  have hw := Scope.warranted_of_chained (fun c hc => mem_carriedOut hc) hstays hstart
    Scope.warranted_start (Scope.performAll_chained hrun)
  have hground {c : Change} (hc : c ∈ outcome.changes) (hremoval : c.action.isRemoval) :=
    hw.removal Scope.slot_installed_ofIndex hm (hchanges ▸ hc) hremoval
  constructor
  · intro c hc haction
    have hremoval : c.action.isRemoval := by rcases haction with h | h <;> rw [h] <;> rfl
    rcases hground hc hremoval with ⟨hremove, -⟩ | ⟨-, d, hd, hcause⟩
    · rw [hremove] at haction
      rcases haction with h | h <;> cases h
    · exact ⟨d, hchanges ▸ hd, hcause⟩
  · intro hforbidden c hc hremoval
    rcases hground hc hremoval with ⟨-, hallowed⟩ | ⟨hremove, -⟩
    · rw [show (Scope.ofIndex ix policy).policy = policy from rfl, hforbidden] at hallowed
      cases hallowed
    · exact (Scope.isRemoval_cases hremoval).resolve_left hremove

/-! ### A package that is obsoleted -/

def successor (name repo : String) : Package := ⟨⟨name, "x", ⟨0, "1", none⟩⟩, repo, none⟩

/-- `b` is offered and obsoletes `a`, which is installed. -/
def successorIndex : Index :=
  (({} : Index).addInstalled (successor "a" "s") {}).addOffered
    (successor "b" "r") { obsoletes := [⟨"a", .any⟩] }

def successorRequests : List Request := [⟨0, .install [successor "b" "r"], false⟩]

def successorOutcome : Outcome where
  changes := [
    { package := successor "b" "r", action := .install, reason := .user, job := some 0 },
    { package := successor "a" "s", action := .obsolete, reason := .dependency,
      replacedBy := some (successor "b" "r"), job := some 0 }]
  problems := []

theorem solve_warranted_successor :
    (∀ request ∈ successorRequests, ∀ targets, request.task ≠ .remove targets) ∧
      (solve successorIndex {} successorRequests).value = .ok successorOutcome ∧
      ∀ c ∈ successorOutcome.changes, c.action.isRemoval →
        c.action = .obsolete ∨ c.action = .replaced := by
  have hstays : ∀ request ∈ successorRequests, ∀ targets, request.task ≠ .remove targets := by
    intro request hrequest targets
    rw [List.mem_singleton.1 hrequest]
    exact Task.noConfusion
  have hsolve : (solve successorIndex {} successorRequests).value = .ok successorOutcome := by cbv
  exact ⟨hstays, hsolve, (solve_warranted hstays hsolve).2 rfl⟩

end Provision.Solver
