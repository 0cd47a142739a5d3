import Provision.Proofs.Solver.Reasons

/-!
# Making room

A package that enters its slot makes room for itself: builds of its name that cannot stay beside it
are displaced, as long as nothing was decided about them, so what is displaced is installed.

1. When a job tries its candidates, one that is installed, in a slot that is still open, is not
   refused: placing it decides the slot and changes nothing else (`not_refused_of_present`).
2. So a candidate that displaces an installed build was tried before that build, if the build is a
   candidate at all (`MadeRoom`). Every turn keeps that so of all displacements for which the user
   asked (`Fair`), since what comes in on account of another package does not count as the user's.
-/

namespace Provision.Solver

open Model (Reaches SameAt)

/-- The package is a candidate of a request, and no candidate before it is of the build. -/
def ChosenOver (requests : List Request) (p : Package) (b : Build) : Prop :=
  ∃ request ∈ requests, ∃ refused rest, request.task = .install (refused ++ p :: rest) ∧
    ∀ q ∈ refused, q.build ≠ b

namespace Scope

variable {s : Scope} {requests : List Request} {m m' : Model} {slot : Slot} {p : Package}

/-! ## Candidates that are installed -/

theorem isChanged_decide {d : Decision} (hopen : m.isDecided slot = false)
    (hfate : d.fate ≠ .reinstalled) (other : Slot) :
    s.isChanged (m.decide slot d) other = s.isChanged m other := by
  by_cases hslot : other = slot
  · subst hslot
    unfold isChanged
    rw [Model.present_decide, isReinstalled_decide hopen, isReinstalled_of_open hopen,
      decide_eq_false hfate]
  · exact isChanged_sameAt (Model.sameAt_decide m d hslot)

/-- That the package of an open slot is to stay makes no flaw. -/
theorem Settled.decide (hm : s.Settled m) {d : Decision} (hopen : m.isDecided slot = false)
    (hfate : d.fate ≠ .reinstalled) : s.Settled (m.decide slot d) := by
  have hpackages : (m.decide slot d).packages = m.packages :=
    congrArg Std.TreeMap.values (Model.present_decide m slot d)
  have hchanged := isChanged_decide (s := s) hopen hfate
  obtain ⟨hobsoletes, hconflicts, hrequires⟩ := hm
  constructor
  · unfold changed victimOf? at hobsoletes ⊢
    simp only [hpackages, hchanged]
    exact hobsoletes
  · unfold clashes at hconflicts ⊢
    simp only [hpackages, hchanged]
    exact hconflicts
  · unfold firstBroken? isBroken at hrequires ⊢
    simp only [hpackages, hchanged]
    exact hrequires

/-- A candidate of a build that is there, with nothing decided about it, is not refused. -/
theorem not_refused_of_present (hm : s.Settled m) {q r : Package}
    (hq : m.present[q.slot]? = some q) (hopen : m.isDecided q.slot = false)
    (hbuild : r.build = q.build) (found : List Problem) :
    (s.take m r).result ≠ .error (.problems found) := by
  have hslot : r.slot = q.slot := congrArg Build.slot hbuild
  have hplace : s.place m r .user = .ok (m.decide r.slot ⟨.user, s.job, .plain⟩) := by
    unfold place
    rw [hslot, hq]
    dsimp only
    rw [if_pos hbuild.symm, hopen]
    rfl
  have hsettled : s.Settled (m.decide r.slot ⟨.user, s.job, .plain⟩) :=
    hm.decide (hslot ▸ hopen) Fate.noConfusion
  have hattempt : (s.attempt (s.settle s.steps) m .user r).result =
      .ok (m.decide r.slot ⟨.user, s.job, .plain⟩) := by
    unfold attempt
    rw [hplace]
    exact settle_of_settled hsettled _
  intro hrefused
  unfold take at hrefused
  rw [Search.result_bind, hattempt] at hrefused
  exact followRecommends_grants _ _ _ found hrefused

/-! ## Displacements -/

/-- The slot was emptied for the package; if that is the user's choice, it was chosen over the old. -/
structure MadeRoom (s : Scope) (requests : List Request) (m : Model) (slot : Slot) (p : Package) :
    Prop where
  decided : m.isDecided p.slot
  displaces : Displaces p.slot slot
  chosen : ∀ old, s.installed[slot]? = some old → m.IsUsers p.slot →
    ChosenOver requests p old.build

/-- Whenever a package is displaced, there was room to be made. -/
def Fair (s : Scope) (requests : List Request) (m : Model) : Prop :=
  ∀ slot d p, m.decided[slot]? = some d → d.fate = .replacedBy p → s.MadeRoom requests m slot p

theorem MadeRoom.sameAt (h : s.MadeRoom requests m slot p) (hsame : SameAt p.slot m m') :
    s.MadeRoom requests m' slot p :=
  ⟨hsame.isDecided.trans h.decided, h.displaces,
    fun old hold husers => h.chosen old hold (hsame.isUsers_iff.1 husers)⟩

theorem fair_start : s.Fair requests s.start := by
  intro slot d p hd
  rw [decided?_start] at hd
  cases hd

/-- Decided slots stay as they are, so only those that were open need a look. -/
theorem Fair.of_sameAt (hf : s.Fair requests m)
    (hsame : ∀ slot, m.isDecided slot → SameAt slot m m')
    (hnew : ∀ slot d p, m.isDecided slot = false → m'.decided[slot]? = some d →
      d.fate = .replacedBy p → s.MadeRoom requests m' slot p) : s.Fair requests m' := by
  intro slot d p hd hfate
  rcases hdecided : m.isDecided slot
  · exact hnew slot d p hdecided hd hfate
  · rw [(hsame slot hdecided).decided] at hd
    have hroom := hf slot d p hd hfate
    exact hroom.sameAt (hsame p.slot hroom.decided)

/-- A step that decides one slot, and not to make room, displaces nothing. -/
theorem Fair.of_step (hf : s.Fair requests m) {d : Decision} (hopen : m.isDecided slot = false)
    (hsame : ∀ other, other ≠ slot → SameAt other m m') (hdecided : m'.decided[slot]? = some d)
    (hfate : ∀ p, d.fate ≠ .replacedBy p) : s.Fair requests m' := by
  refine hf.of_sameAt (fun other hother => hsame other (Model.ne_of_isDecided hother hopen)) ?_
  intro other e p hother he hreplaced
  by_cases heq : other = slot
  · subst heq
    rw [hdecided] at he
    cases he
    exact absurd hreplaced (hfate p)
  · rw [(hsame other heq).decided, Model.decided?_eq_none hother] at he
    cases he

theorem Fair.clear (hf : s.Fair requests m) {d : Decision} (hopen : m.isDecided slot = false)
    (hfate : ∀ p, d.fate ≠ .replacedBy p) : s.Fair requests (m.clear slot d) :=
  hf.of_step hopen (fun _ hne => Model.sameAt_clear m d hne) (Model.decided?_clear_self hopen d) hfate

theorem Fair.fill (hf : s.Fair requests m) {d : Decision} (hopen : m.isDecided p.slot = false)
    (hfate : ∀ q, d.fate ≠ .replacedBy q) : s.Fair requests (m.fill p d) :=
  hf.of_step hopen (fun _ hne => Model.sameAt_fill m d hne) (Model.decided?_fill_self hopen d) hfate

/-- A slot that making room decides is that of something displaced. -/
theorem exists_displaced_of_decided {wanted : Package} {gone : List Package} {d : Decision}
    (hopen : m.isDecided slot = false)
    (hd : (gone.foldl (s.displace wanted) m).decided[slot]? = some d) :
    ∃ q ∈ gone, q.slot = slot := by
  by_contra hnone
  have hsame : SameAt slot m (gone.foldl (s.displace wanted) m) :=
    displaceAll_sameAt fun q hq hslot => hnone ⟨q, hq, hslot⟩
  rw [hsame.decided, Model.decided?_eq_none hopen] at hd
  cases hd

/-- A placement is fair if it is not for the user, or if it was preferred to what it displaces. -/
theorem Fair.place (hm : s.Disciplined requests m) (hf : s.Fair requests m) {reason : Reason}
    (hchosen : reason = .user → ∀ q ∈ displaced m p, m.isDecided q.slot = false →
      ChosenOver requests p q.build)
    (h : s.place m p reason = .ok m') : s.Fair requests m' := by
  have hreaches : Reaches (fun _ => True) m m' := place_reaches hm.keyed trivial h
  rcases place_cases h with ⟨-, ⟨-, rfl⟩ | ⟨hopen, rfl⟩⟩ | ⟨hopen, -, hgone, rfl⟩
  · exact hf
  · exact hf.of_step hopen (fun _ hne => Model.sameAt_decide m _ hne)
      (Model.decided?_decide_self hopen _) fun _ => Fate.noConfusion
  · -- Only here something is displaced, and its slot was open, so what it held is installed.
    have hsame : SameAt p.slot m ((displaced m p).foldl (s.displace p) m) :=
      displaceAll_sameAt fun q hq => ne_of_mem_displaced hq
    have hown := Model.decided?_fill_self (hsame.isDecided.trans hopen) ⟨reason, s.job, .plain⟩
    refine hf.of_sameAt (fun slot hslot => hreaches.sameAt hslot) fun slot d q hslot hd hfate => ?_
    by_cases heq : slot = p.slot
    · subst heq
      rw [hown] at hd
      cases hd
      cases hfate
    · rw [(Model.sameAt_fill _ _ heq).decided] at hd
      obtain ⟨old, hold, rfl⟩ := exists_displaced_of_decided hslot hd
      have hreplaced : d.fate = .replacedBy p := by
        refine fate_displaceAll (fun e he => ?_) hd
        rw [Model.decided?_eq_none hslot] at he
        cases he
      cases hreplaced.symm.trans hfate
      obtain ⟨hpresent, hdisplaces⟩ := List.mem_filter.1 hold
      refine ⟨Model.isDecided_decide_self _ _ _, of_decide_eq_true hdisplaces, ?_⟩
      intro other hother husers
      rw [← hm.open_eq old.slot hslot, hm.keyed.mem_packages_iff.1 hpresent] at hother
      cases hother
      exact hchosen (husers _ hown) old hold hslot

/-! ## Turns without candidates -/

theorem Remedy.fair (hm : s.Disciplined requests m) (hf : s.Fair requests m) {need : Need}
    (h : s.Remedy m need m') : s.Fair requests m' := by
  cases h with
  | goAlong hgoes =>
    exact hf.clear (open_of_isUntouched (isUntouched_of_goesAlong hgoes)) fun _ => Fate.noConfusion
  | provide _ _ hplace => exact hf.place hm Reason.noConfusion hplace
  | upgrade _ _ _ _ _ hplace => exact hf.place hm Reason.noConfusion hplace
  | erase _ huntouched => exact hf.clear (open_of_isUntouched huntouched) fun _ => Fate.noConfusion

theorem Mends.fair (hm : s.Disciplined requests m) (hf : s.Fair requests m) (h : s.Mends m m') :
    s.Fair requests m' := by
  cases h with
  | obsolete h =>
    obtain ⟨p, -, obsolete, other, -, hopen, rfl⟩ := applyObsoletes_eq_some h
    exact hf.clear hopen fun _ => Fate.noConfusion
  | conflict _ h =>
    obtain ⟨c, -, slot, hside, rfl⟩ := resolveConflicts_eq_some h
    exact hf.clear (isErasable_cases (erasableSide?_cases hside).1).1 fun _ => Fate.noConfusion
  | require _ _ _ h => exact h.fair hm hf

/-- Without candidates, an installation mends flaws and follows recommendations. -/
theorem Turn.fair (hm : s.Disciplined requests m) (hf : s.Fair requests m)
    (h : s.Turn (.install []) m m') : s.Disciplined requests m' ∧ s.Fair requests m' := by
  cases h with
  | mend h => exact ⟨hm.reaches (h.reaches (fun _ hp => .inl hp) hm.keyed), h.fair hm hf⟩
  | candidate htask hp =>
    cases htask
    cases hp
  | recommended _ hp hplace =>
    exact ⟨hm.reaches (place_reaches hm.keyed (.inl hp) hplace),
      hf.place hm Reason.noConfusion hplace⟩
  | again htask => cases htask
  | drop htask => cases htask
  | attitude htask => cases htask

theorem Turns.fair (hm : s.Disciplined requests m) (hf : s.Fair requests m)
    (h : s.Turns (.install []) m m') : s.Fair requests m' := by
  suffices hboth : s.Disciplined requests m' ∧ s.Fair requests m' from hboth.2
  induction h with
  | refl => exact ⟨hm, hf⟩
  | tail _ hturn ih => exact hturn.fair ih.1 ih.2

/-! ## Jobs -/

theorem take_fair (hm : s.Disciplined requests m) (hf : s.Fair requests m)
    (hp : s.Supply requests p)
    (hchosen : ∀ q ∈ displaced m p, m.isDecided q.slot = false → ChosenOver requests p q.build)
    (h : (s.take m p).result = .ok m') : s.Fair requests m' := by
  obtain ⟨placed, settled, hplace, hsettled, hfollow⟩ := take_eq_ok h
  have hplaced := hm.reaches (place_reaches hm.keyed hp hplace)
  exact Turns.fair hplaced (hf.place hm (fun _ => hchosen) hplace)
    ((Run.turns (settle_run hsettled)).trans (followRecommends_turns hfollow))

theorem install_fair {request : Request} (hrequest : request ∈ requests) {candidates : List Package}
    (htask : request.task = .install candidates) (hm : s.Orderly requests m)
    (hf : s.Fair requests m) (h : (s.install m [] candidates).result = .ok m') :
    s.Fair requests m' := by
  obtain ⟨p, refused, rest, rfl, hrefused, htake⟩ := exists_selects h
  refine take_fair hm.disciplined hf ?_ (fun q hq hopen => ?_) htake
  · exact .inr ⟨request, hrequest, _, htask, List.mem_append_right refused List.mem_cons_self⟩
  · -- Had what is displaced been tried before, it would not have been refused.
    refine ⟨request, hrequest, refused, rest, htask, fun r hr hbuild => ?_⟩
    obtain ⟨found, hfound⟩ := hrefused r hr
    have hpresent := hm.disciplined.keyed.mem_packages_iff.1 (List.mem_filter.1 hq).1
    exact not_refused_of_present hm.settled hpresent hopen hbuild found hfound

theorem reinstall_fair {request : Request} (hrequest : request ∈ requests)
    (htask : request.task = .reinstall p) (hm : s.Disciplined requests m)
    (hf : s.Fair requests m) (h : (s.reinstall m p).result = .ok m') : s.Fair requests m' := by
  obtain ⟨hopen, hsettle⟩ := reinstall_cases h
  exact Turns.fair (hm.step hrequest (.again htask hopen))
    (hf.fill hopen fun _ => Fate.noConfusion) (Run.turns (settle_run hsettle))

theorem Orderly.withJob (hm : s.Orderly requests m) (job : Nat) :
    ({ s with job := job } : Scope).Orderly requests m :=
  ⟨hm.disciplined.withJob job, hm.settled.obsoletes, hm.settled.conflicts, hm.settled.requires⟩

theorem Fair.withJob (hf : s.Fair requests m) (job : Nat) :
    ({ s with job := job } : Scope).Fair requests m := by
  intro slot d p hd hfate
  obtain ⟨hdecided, hdisplaces, hchosen⟩ := hf slot d p hd hfate
  exact ⟨hdecided, hdisplaces, hchosen⟩

/-- A job that removes nothing keeps displacements fair. -/
theorem Accepts.fair {c : Carried} (hrequest : c.request ∈ requests)
    (hstays : ∀ targets, c.request.task ≠ .remove targets) (hm : s.Orderly requests c.before)
    (hf : s.Fair requests c.before) (h : s.Accepts c) : s.Fair requests c.after := by
  have hm := hm.withJob c.request.job
  have hf := hf.withJob c.request.job
  unfold Accepts at h
  rcases htask : c.request.task with candidates | package | targets
  · rw [htask] at h
    exact (install_fair hrequest htask hm hf h).withJob s.job
  · rw [htask] at h
    exact (reinstall_fair hrequest htask hm.disciplined hf h).withJob s.job
  · exact absurd htask (hstays targets)

theorem fair_of_chained {cs : List Carried}
    (haccepts : ∀ c ∈ cs, c.request ∈ requests ∧ s.Accepts c)
    (hstays : ∀ request ∈ requests, ∀ targets, request.task ≠ .remove targets)
    (hm : s.Orderly requests m) (hf : s.Fair requests m) (h : Chained m cs m') :
    s.Fair requests m' := by
  refine (h.keeps (fun m => s.Orderly requests m ∧ s.Fair requests m) ?_ ⟨hm, hf⟩).2
  rintro c hc ⟨hbefore, hfair⟩
  obtain ⟨hrequest, haccepts⟩ := haccepts c hc
  exact ⟨haccepts.orderly hrequest hbefore,
    haccepts.fair hrequest (hstays _ hrequest) hbefore hfair⟩

/-! ## Replaced packages -/

/-- What is reported as replaced was decided to make room. -/
theorem Departure.exists_replacedBy {q : Package} {c : Change} (h : Departure m q c)
    (haction : c.action = .replaced) (hcause : c.replacedBy = some p) :
    ∃ d, m.decided[q.slot]? = some d ∧ d.fate = .replacedBy p := by
  rw [h.action] at haction
  rw [h.cause] at hcause
  generalize m.decided[q.slot]? = decision at haction hcause ⊢
  rcases decision with _ | ⟨reason, job, fate⟩
  · cases haction
  · cases fate <;> cases haction
    cases hcause
    exact ⟨_, rfl, rfl⟩

end Scope

variable {ix : Index} {policy : Policy} {requests : List Request} {outcome : Outcome}

/--
If no job removes, what a package has replaced bears its name, and a package that the user asked for
was among the candidates of a request and tried before what it has replaced.
-/
theorem solve_replaced (hstays : ∀ request ∈ requests, ∀ targets, request.task ≠ .remove targets)
    (h : (solve ix policy requests).value = .ok outcome) {c d : Change}
    (hc : c ∈ outcome.changes) (haction : c.action = .replaced)
    (hcause : c.replacedBy = some d.package) (hd : d ∈ outcome.changes) (huser : d.reason = .user) :
    c.package.name = d.package.name ∧ ChosenOver requests d.package c.package.build := by
  obtain ⟨m, hrun, hchanges⟩ := solve_cases h
  have hinstalled := @Scope.slot_installed_ofIndex ix policy
  have hstart := Scope.start_orderly (s := Scope.ofIndex ix policy) hinstalled requests
  have hm := (performAll_orderly hrun).1.disciplined
  have hfair := Scope.fair_of_chained (fun c hc => mem_carriedOut hc) hstays hstart
    Scope.fair_start (Scope.performAll_chained hrun)
  have husers := (hm.reason_eq_user_iff hinstalled (hchanges ▸ hd)).1 huser
  rw [hchanges] at hc
  rcases Scope.mem_changes_iff.1 hc with ⟨q, -, hchange⟩ | ⟨q, hq, hchange⟩
  · have harrival := (Scope.inbound?_eq_some hchange).2.2
    rw [haction] at harrival
    cases harrival
  · have hdeparture := Scope.removal?_eq_some hchange
    obtain ⟨e, he, hfate⟩ := hdeparture.exists_replacedBy haction hcause
    obtain rfl := hdeparture.package
    obtain ⟨slot, hold⟩ := mem_values_iff.1 hq
    obtain rfl := hinstalled slot _ hold
    have hroom := hfair _ e _ he hfate
    exact ⟨hroom.displaces.1, hroom.chosen _ hold husers⟩

end Provision.Solver
