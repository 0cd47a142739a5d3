import Provision.Proofs.Solver.Settling
import Provision.Solver

/-!
# What jobs do to models

Besides what its searches do, a job takes two more kinds of steps: it marks a package to be put in
place once more, and it empties the slots of its targets. The second is the only step of all that
touches a slot which was decided before.

1. Every job is a sequence of such steps and ends with a settled model (`perform_steps`).
2. The steps keep models disciplined: an open slot holds what is installed, and every package was left
   alone, chosen, or named by a request to be put in place once more (`Disciplined.steps`).
-/

namespace Provision.Solver

open Model (Reaches SameAt)

namespace Model

/-- A step that a job takes; `may` says which packages may be brought in. -/
inductive Step (may : Package → Prop) (task : Task) (m : Model) : Model → Prop
  | move {m' : Model} (h : m.Move may m') : Step may task m m'
  | again {p : Package} {job : Nat} (htask : task = .reinstall p)
      (hopen : m.isDecided p.slot = false) : Step may task m (m.fill p ⟨.user, job, .reinstalled⟩)
  | drop {targets : List Package} {t : Package} {job : Nat} (htask : task = .remove targets)
      (ht : t ∈ targets) (hholds : m.Holds t.build) :
      Step may task m (m.clear t.slot ⟨.user, job, .plain⟩)
  | attitude (erases : Bool) : Step may task m { m with erasesDependents := erases }

abbrev Steps (may : Package → Prop) (task : Task) : Model → Model → Prop :=
  Relation.ReflTransGen (Step may task)

theorem Reaches.steps {may : Package → Prop} {task : Task} {m m' : Model} (h : Reaches may m m') :
    Steps may task m m' := by
  induction h with
  | refl => exact .refl
  | tail _ hmove ih => exact ih.tail (.move hmove)

theorem Keyed.clear {m : Model} (hm : m.Keyed) (slot : Slot) (d : Decision) :
    (m.clear slot d).Keyed := by
  intro other p hp
  rw [present_clear] at hp
  split at hp
  · cases hp
  · exact hm other p hp

theorem Keyed.fill {m : Model} (hm : m.Keyed) (p : Package) (d : Decision) :
    (m.fill p d).Keyed := by
  intro other q hq
  rw [present_fill] at hq
  split at hq
  · rename_i heq
    cases hq
    exact heq
  · exact hm other q hq

theorem Keyed.step {may : Package → Prop} {task : Task} {m m' : Model} (hm : m.Keyed)
    (h : Step may task m m') : m'.Keyed := by
  cases h with
  | move h => exact hm.move h
  | again => exact hm.fill _ _
  | drop => exact hm.clear _ _
  | attitude => exact hm

theorem Keyed.steps {may : Package → Prop} {task : Task} {m m' : Model} (hm : m.Keyed)
    (h : Steps may task m m') : m'.Keyed := by
  induction h with
  | refl => exact hm
  | tail _ hstep ih => exact ih.step hstep

/-- No step opens a slot again. -/
theorem Steps.isDecided {may : Package → Prop} {task : Task} {m m' : Model} {slot : Slot}
    (h : Steps may task m m') (hslot : m.isDecided slot) : m'.isDecided slot := by
  induction h with
  | refl => exact hslot
  | tail _ hstep ih =>
    cases hstep with
    | move h => exact (h.sameAt ih).isDecided.trans ih
    | again => exact (isDecided_decide_iff _).2 (.inr ih)
    | drop => exact (isDecided_decide_iff _).2 (.inr ih)
    | attitude => exact ih

end Model

namespace Scope

variable {s : Scope} {may : Package → Prop} {m m' : Model}

/-! ## Installation -/

/-- The work on one candidate of an installation. -/
def take (s : Scope) (m : Model) (p : Package) : Search Model := do
  let settled ← s.attempt (s.settle s.steps) m .user p
  s.followRecommends (s.settle s.steps) s.steps settled

theorem install_cons (m : Model) (rejected : List Problem) (c : Package) (rest : List Package) :
    s.install m rejected (c :: rest) =
      Search.orElse (s.take m c) (fun found => do
        Search.debug s!"Candidate {c.nevra} rejected"
        s.install m (Problem.insertAll rejected found) rest) := rfl

/-- The installation takes this candidate; those before it were refused. -/
def Selects (s : Scope) (m m' : Model) (candidates : List Package) (p : Package) : Prop :=
  ∃ refused rest, candidates = refused ++ p :: rest ∧
    (∀ q ∈ refused, ∃ found, (s.take m q).result = .error (.problems found)) ∧
    (s.take m p).result = .ok m'

theorem exists_selects {candidates : List Package} {rejected : List Problem}
    (h : (s.install m rejected candidates).result = .ok m') : ∃ p, s.Selects m m' candidates p := by
  induction candidates generalizing rejected with
  | nil => cases h
  | cons p rest ih =>
    rw [install_cons, Search.result_orElse] at h
    rcases htake : (s.take m p).result with (found | _) | taken
    · rw [htake] at h
      dsimp only at h
      rw [Search.result_debug_bind] at h
      obtain ⟨q, refused, rest, rfl, hrefused, hq⟩ := ih h
      refine ⟨q, p :: refused, rest, rfl, fun r hr => ?_, hq⟩
      rcases List.mem_cons.1 hr with rfl | hr
      · exact ⟨found, htake⟩
      · exact hrefused r hr
    · rw [htake] at h
      cases h
    · rw [htake] at h
      cases h
      exact ⟨p, [], rest, rfl, nofun, htake⟩

/-- By induction on the candidates that were refused. -/
theorem install_of_selects {candidates : List Package} {p : Package} {rejected : List Problem}
    (h : s.Selects m m' candidates p) : (s.install m rejected candidates).result = .ok m' := by
  obtain ⟨refused, rest, rfl, hrefused, htake⟩ := h
  induction refused generalizing rejected with
  | nil => rw [List.nil_append, install_cons, Search.result_orElse, htake]
  | cons q refused ih =>
    obtain ⟨found, hfound⟩ := hrefused q List.mem_cons_self
    rw [List.cons_append, install_cons, Search.result_orElse, hfound]
    dsimp only
    rw [Search.result_debug_bind]
    exact ih fun r hr => hrefused r (List.mem_cons_of_mem q hr)

theorem Selects.mem {candidates : List Package} {p : Package} (h : s.Selects m m' candidates p) :
    p ∈ candidates := by
  obtain ⟨refused, rest, rfl, -⟩ := h
  exact List.mem_append_right refused List.mem_cons_self

theorem Selects.take {candidates : List Package} {p : Package} (h : s.Selects m m' candidates p) :
    (s.take m p).result = .ok m' := by
  obtain ⟨-, -, -, -, htake⟩ := h
  exact htake

/-- A candidate is placed, then the model is settled, then recommendations are followed. -/
theorem take_eq_ok {p : Package} (h : (s.take m p).result = .ok m') :
    ∃ placed settled, s.place m p .user = .ok placed ∧
      (s.settle s.steps placed).result = .ok settled ∧
      (s.followRecommends (s.settle s.steps) s.steps settled).result = .ok m' := by
  obtain ⟨settled, hattempt, hfollow⟩ := Search.result_bind_eq_ok.1 h
  obtain ⟨placed, hplace, hsettle⟩ := attempt_eq_ok hattempt
  exact ⟨placed, settled, hplace, hsettle, hfollow⟩

/-- Once the candidate is placed, moves lead to a settled model. -/
theorem exists_place_of_take (hmay : ∀ p ∈ s.choices, may p) (hm : m.Keyed) {p : Package}
    (hp : may p) (h : (s.take m p).result = .ok m') :
    ∃ placed, s.place m p .user = .ok placed ∧ Reaches may placed m' ∧ s.Settled m' := by
  have hsettle := settle_reaches hmay s.steps
  obtain ⟨placed, settled, hplace, hsettled, hfollow⟩ := take_eq_ok h
  have hplaced := hm.reaches (place_reaches hm hp hplace)
  obtain ⟨hreaches, hdone⟩ := hsettle hplaced hsettled
  obtain ⟨hrest, hlast⟩ := followRecommends_reaches hsettle hmay (hplaced.reaches hreaches) hfollow
  exact ⟨placed, hplace, hreaches.trans hrest, hlast hdone⟩

/-- One of the candidates is present at the end of an installation, its slot decided. -/
theorem install_reaches (hmay : ∀ p ∈ s.choices, may p) (hm : m.Keyed)
    {candidates : List Package} {rejected : List Problem} (hcandidates : ∀ p ∈ candidates, may p)
    (h : (s.install m rejected candidates).result = .ok m') :
    Reaches may m m' ∧ s.Settled m' ∧
      ∃ c ∈ candidates, m'.Holds c.build ∧ m'.isDecided c.slot := by
  obtain ⟨c, hselects⟩ := exists_selects h
  have hc := hcandidates c hselects.mem
  obtain ⟨placed, hplace, hreaches, hsettled⟩ := exists_place_of_take hmay hm hc hselects.take
  obtain ⟨hholds, hdecided⟩ := place_holds hplace
  have hsame := hreaches.sameAt hdecided
  exact ⟨(place_reaches hm hc hplace).trans hreaches, hsettled, c, hselects.mem,
    hsame.holds hholds, hsame.isDecided.trans hdecided⟩

/-! ## Reinstallation -/

/-- A reinstallation finds its slot open and marks it. -/
theorem reinstall_cases {p : Package} (h : (s.reinstall m p).result = .ok m') :
    m.isDecided p.slot = false ∧
      (s.settle s.steps (m.fill p ⟨.user, s.job, .reinstalled⟩)).result = .ok m' := by
  unfold reinstall at h
  split at h
  · cases h
  · rename_i hdecided
    exact ⟨Bool.eq_false_iff.2 hdecided, h⟩

/-! ## Removal -/

/-- What a removal does to one target. -/
def eraseTarget (s : Scope) (m : Model) (t : Package) : Model :=
  if (m.present[t.slot]?).any fun p => p.build = t.build then m.clear t.slot ⟨.user, s.job, .plain⟩
  else m

theorem eraseTargets_cons (t : Package) (rest : List Package) :
    s.eraseTargets m (t :: rest) = s.eraseTargets (s.eraseTarget m t) rest := rfl

theorem holds_iff {t : Package} :
    m.Holds t.build ↔ (m.present[t.slot]?).any fun p => p.build = t.build := by
  unfold Model.Holds
  rw [Option.any_eq_true]
  simp only [decide_eq_true_eq]

theorem eraseTarget_of_holds {t : Package} (h : m.Holds t.build) :
    s.eraseTarget m t = m.clear t.slot ⟨.user, s.job, .plain⟩ := by
  unfold eraseTarget
  rw [if_pos (holds_iff.1 h)]

theorem eraseTarget_of_not_holds {t : Package} (h : ¬ m.Holds t.build) :
    s.eraseTarget m t = m := by
  unfold eraseTarget
  rw [if_neg (mt holds_iff.2 h)]

theorem not_holds_eraseTarget (m : Model) (t : Package) :
    ¬ (s.eraseTarget m t).Holds t.build := by
  by_cases h : m.Holds t.build
  · rw [eraseTarget_of_holds h]
    rintro ⟨p, hp, -⟩
    rw [Model.present_clear, if_pos rfl] at hp
    cases hp
  · rw [eraseTarget_of_not_holds h]
    exact h

/-- A target that is not there cannot come back by the erasure of another one. -/
theorem not_holds_eraseTargets_of_not_holds {b : Build} (h : ¬ m.Holds b) (targets : List Package) :
    ¬ (s.eraseTargets m targets).Holds b := by
  induction targets generalizing m with
  | nil => exact h
  | cons t rest ih =>
    rw [eraseTargets_cons]
    refine ih ?_
    by_cases ht : m.Holds t.build
    · rw [eraseTarget_of_holds ht]
      rintro ⟨p, hp, hbuild⟩
      rw [Model.present_clear] at hp
      split at hp
      · cases hp
      · exact h ⟨p, hp, hbuild⟩
    · rw [eraseTarget_of_not_holds ht]
      exact h

theorem not_holds_eraseTargets {targets : List Package} {t : Package} (ht : t ∈ targets) :
    ¬ (s.eraseTargets m targets).Holds t.build := by
  induction targets generalizing m with
  | nil => cases ht
  | cons u rest ih =>
    rw [eraseTargets_cons]
    rcases List.mem_cons.1 ht with rfl | ht
    · exact not_holds_eraseTargets_of_not_holds (not_holds_eraseTarget m t) rest
    · exact ih ht

theorem eraseTarget_present (t : Package) (slot : Slot) :
    (s.eraseTarget m t).present[slot]? = none ∨
      (s.eraseTarget m t).present[slot]? = m.present[slot]? := by
  by_cases h : m.Holds t.build
  · rw [eraseTarget_of_holds h, Model.present_clear]
    split
    · exact .inl rfl
    · exact .inr rfl
  · rw [eraseTarget_of_not_holds h]
    exact .inr rfl

/-- A removal can only empty slots. -/
theorem eraseTargets_present (targets : List Package) (slot : Slot) :
    (s.eraseTargets m targets).present[slot]? = none ∨
      (s.eraseTargets m targets).present[slot]? = m.present[slot]? := by
  induction targets generalizing m with
  | nil => exact .inr rfl
  | cons t rest ih =>
    rw [eraseTargets_cons]
    rcases ih (m := s.eraseTarget m t) with hnone | hsame
    · exact .inl hnone
    · rw [hsame]
      exact eraseTarget_present t slot

/-- A removal empties the slots of those targets that are there, one after the other. -/
theorem eraseTargets_relates {r : Model → Model → Prop} {targets : List Package}
    (h : ∀ m : Model, ∀ t ∈ targets, m.Holds t.build →
      r m (m.clear t.slot ⟨.user, s.job, .plain⟩)) :
    Relation.ReflTransGen r m (s.eraseTargets m targets) := by
  induction targets generalizing m with
  | nil => exact .refl
  | cons t rest ih =>
    rw [eraseTargets_cons]
    have hrest := ih (m := s.eraseTarget m t) fun n u hu => h n u (List.mem_cons_of_mem t hu)
    by_cases ht : m.Holds t.build
    · refine .head ?_ hrest
      rw [eraseTarget_of_holds ht]
      exact h m t List.mem_cons_self ht
    · rw [eraseTarget_of_not_holds ht] at hrest ⊢
      exact hrest

theorem eraseTargets_steps {targets : List Package} :
    Model.Steps may (.remove targets) m (s.eraseTargets m targets) :=
  eraseTargets_relates fun _ _ ht hholds => .drop rfl ht hholds

/-- A removal settles after it has emptied the slots of its targets. -/
theorem remove_cases {targets : List Package} (h : (s.remove m targets).result = .ok m') :
    ∃ settled, (s.settle s.steps (s.eraseTargets { m with erasesDependents := true } targets)).result =
        .ok settled ∧
      m' = { settled with erasesDependents := false } := by
  unfold remove at h
  obtain ⟨settled, hsettle, heq⟩ := Search.result_bind_eq_ok.1 h
  exact ⟨settled, hsettle, (Except.ok.inj heq).symm⟩

/-! ## All jobs -/

theorem Settled.attitude {erases : Bool} (h : s.Settled m) :
    s.Settled { m with erasesDependents := erases } := ⟨h.obsoletes, h.conflicts, h.requires⟩

theorem Settled.withJob {job : Nat} (h : ({ s with job := job } : Scope).Settled m) :
    s.Settled m := ⟨h.obsoletes, h.conflicts, h.requires⟩

/-- Every job takes steps and ends with a settled model. -/
theorem perform_steps {task : Task} (hmay : ∀ p ∈ s.choices, may p)
    (hcandidates : ∀ candidates, task = .install candidates → ∀ p ∈ candidates, may p)
    (hm : m.Keyed)
    (h : (s.perform m task).result = .ok m') :
    Model.Steps may task m m' ∧ s.Settled m' := by
  have hsettle := settle_reaches hmay s.steps
  cases task with
  | install candidates =>
    obtain ⟨hreaches, hsettled, -⟩ := install_reaches hmay hm (hcandidates candidates rfl) h
    exact ⟨hreaches.steps, hsettled⟩
  | reinstall p =>
    obtain ⟨hopen, h⟩ := reinstall_cases h
    have hstep : Model.Step may (.reinstall p) m (m.fill p ⟨.user, s.job, .reinstalled⟩) :=
      .again rfl hopen
    obtain ⟨hreaches, hsettled⟩ := hsettle (hm.step hstep) h
    exact ⟨.head hstep hreaches.steps, hsettled⟩
  | remove targets =>
    obtain ⟨settled, hsettled, rfl⟩ := remove_cases h
    have herase : Model.Steps may (.remove targets) m
        (s.eraseTargets { m with erasesDependents := true } targets) :=
      .head (.attitude true) eraseTargets_steps
    obtain ⟨hreaches, hsettled⟩ := hsettle (hm.steps herase) hsettled
    exact ⟨(herase.trans hreaches.steps).tail (.attitude false), hsettled.attitude⟩

/-! ## Discipline -/

/-- The packages that a search may choose, and the candidates of a request. -/
def Supply (s : Scope) (requests : List Request) (p : Package) : Prop :=
  p ∈ s.choices ∨
    ∃ request ∈ requests, ∃ candidates, request.task = .install candidates ∧ p ∈ candidates

/-- How a package has come to be in a slot. -/
inductive Origin (s : Scope) (requests : List Request) (m : Model) (slot : Slot) (p : Package) : Prop
  /-- It is installed, and nothing was done about it. -/
  | left (hold : s.installed[slot]? = some p) (hunmarked : m.isReinstalled slot = false)
  /-- It was chosen, and another build or none is installed. -/
  | chosen (hp : s.Supply requests p)
      (hnew : ∀ q, s.installed[slot]? = some q → q.build ≠ p.build)
  /-- A request wants it to be put in place once more. -/
  | again {request : Request} (hrequest : request ∈ requests)
      (htask : request.task = .reinstall p) (hmarked : m.isReinstalled slot)

/-- An open slot holds what is installed, and every package has come from somewhere. -/
structure Disciplined (s : Scope) (requests : List Request) (m : Model) : Prop where
  keyed : m.Keyed
  open_eq : ∀ slot, m.isDecided slot = false → m.present[slot]? = s.installed[slot]?
  origin : ∀ slot p, m.present[slot]? = some p → s.Origin requests m slot p

theorem Origin.sameAt {requests : List Request} {slot : Slot} {p : Package}
    (h : s.Origin requests m slot p) (hsame : SameAt slot m m') :
    s.Origin requests m' slot p := by
  cases h with
  | left hold hunmarked => exact .left hold (hsame.isReinstalled.trans hunmarked)
  | chosen hp hnew => exact .chosen hp hnew
  | again hrequest htask hmarked =>
    exact .again hrequest htask (hsame.isReinstalled.trans hmarked)

/-- Only the slot of a step needs a look. -/
theorem Disciplined.of_sameAt {requests : List Request} (hm : s.Disciplined requests m)
    (hkeyed : m'.Keyed) {slot : Slot} (hsame : ∀ other, other ≠ slot → SameAt other m m')
    (hdecided : m'.isDecided slot)
    (horigin : ∀ p, m'.present[slot]? = some p → s.Origin requests m' slot p) :
    s.Disciplined requests m' := by
  refine ⟨hkeyed, fun other hopen => ?_, fun other p hp => ?_⟩
  · have hne : other ≠ slot := by
      rintro rfl
      rw [hdecided] at hopen
      cases hopen
    rw [(hsame other hne).present]
    exact hm.open_eq other ((hsame other hne).isDecided ▸ hopen)
  · by_cases hne : other = slot
    · subst hne
      exact horigin p hp
    · exact (hm.origin other p ((hsame other hne).present ▸ hp)).sameAt (hsame other hne)

theorem isReinstalled_decide {slot : Slot} (hopen : m.isDecided slot = false) (d : Decision) :
    (m.decide slot d).isReinstalled slot = decide (d.fate = .reinstalled) := by
  unfold Model.isReinstalled
  rw [Model.decided_decide hopen, Std.TreeMap.getElem?_insert_self]
  rfl

theorem isReinstalled_of_open {slot : Slot} (hopen : m.isDecided slot = false) :
    m.isReinstalled slot = false := by
  unfold Model.isReinstalled
  rw [Model.decided?_eq_none hopen]
  rfl

theorem Disciplined.move {requests : List Request} (hm : s.Disciplined requests m)
    (h : m.Move (s.Supply requests) m') : s.Disciplined requests m' := by
  have hkeyed := hm.keyed.move h
  cases h with
  | @keep slot d hopen hfate =>
    refine hm.of_sameAt hkeyed (fun other hne => Model.sameAt_decide m d hne)
      (Model.isDecided_decide_self m slot d) fun p hp => .left ?_ ?_
    · rw [Model.present_decide] at hp
      rw [← hm.open_eq slot hopen]
      exact hp
    · rw [isReinstalled_decide hopen]
      exact decide_eq_false hfate
  | @clear slot d hopen hfate =>
    refine hm.of_sameAt hkeyed (fun other hne => Model.sameAt_clear m d hne)
      (Model.isDecided_decide_self _ slot d) fun p hp => ?_
    rw [Model.present_clear, if_pos rfl] at hp
    cases hp
  | @fill p d hp hopen hfate hnew =>
    refine hm.of_sameAt hkeyed (fun other hne => Model.sameAt_fill m d hne)
      (Model.isDecided_decide_self _ p.slot d) fun q hq => ?_
    rw [Model.present_fill, if_pos rfl] at hq
    cases hq
    refine .chosen hp fun q hq => hnew q ?_
    rw [hm.open_eq p.slot hopen]
    exact hq

theorem Disciplined.step {requests : List Request} {request : Request}
    (hrequest : request ∈ requests) (hm : s.Disciplined requests m)
    (h : Model.Step (s.Supply requests) request.task m m') : s.Disciplined requests m' := by
  have hkeyed := hm.keyed.step h
  cases h with
  | move h => exact hm.move h
  | @again p job htask hopen =>
    refine hm.of_sameAt hkeyed (fun other hne => Model.sameAt_fill m _ hne)
      (Model.isDecided_decide_self _ p.slot _) fun q hq => ?_
    rw [Model.present_fill, if_pos rfl] at hq
    cases hq
    refine .again hrequest htask ?_
    unfold Model.fill
    rw [isReinstalled_decide (by exact hopen)]
    rfl
  | @drop targets t job htask ht hholds =>
    refine hm.of_sameAt hkeyed (fun other hne => Model.sameAt_clear m _ hne)
      (Model.isDecided_decide_self _ t.slot _) fun p hp => ?_
    rw [Model.present_clear, if_pos rfl] at hp
    cases hp
  | attitude erases =>
    refine ⟨hm.keyed, hm.open_eq, fun slot p hp => ?_⟩
    exact (hm.origin slot p hp).sameAt ⟨rfl, rfl⟩

theorem Disciplined.steps {requests : List Request} {request : Request}
    (hrequest : request ∈ requests) (hm : s.Disciplined requests m)
    (h : Model.Steps (s.Supply requests) request.task m m') : s.Disciplined requests m' := by
  induction h with
  | refl => exact hm
  | tail _ hstep ih => exact ih.step hrequest hstep

/-! ## Changed slots -/

theorem isChanged_of_ne {slot : Slot} {p : Package} (hp : m.present[slot]? = some p)
    (hne : ∀ q, s.installed[slot]? = some q → q.build ≠ p.build) : s.isChanged m slot := by
  unfold isChanged
  rw [hp]
  split
  · rename_i heq hold
    cases heq
    rw [Bool.or_eq_true]
    exact .inl (decide_eq_true (hne _ hold).symm)
  · rfl

theorem isChanged_of_isReinstalled {slot : Slot} (h : m.isReinstalled slot) :
    s.isChanged m slot := by
  unfold isChanged
  split
  · rw [h, Bool.or_true]
  · rfl

theorem isChanged_of_left {slot : Slot} {p : Package} (hp : m.present[slot]? = some p)
    (hold : s.installed[slot]? = some p) (hunmarked : m.isReinstalled slot = false) :
    s.isChanged m slot = false := by
  unfold isChanged
  rw [hp, hold, hunmarked]
  simp

theorem isChanged_sameAt {slot : Slot} (h : SameAt slot m m') :
    s.isChanged m' slot = s.isChanged m slot := by
  unfold isChanged
  rw [h.present, h.isReinstalled]

/-- Only what was left alone is not changed. -/
theorem Origin.hold_of_not_isChanged {requests : List Request} {slot : Slot} {p : Package}
    (h : s.Origin requests m slot p) (hp : m.present[slot]? = some p)
    (hunchanged : s.isChanged m slot = false) : s.installed[slot]? = some p := by
  cases h with
  | left hold _ => exact hold
  | chosen _ hnew =>
    rw [isChanged_of_ne hp hnew] at hunchanged
    cases hunchanged
  | again _ _ hmarked =>
    rw [isChanged_of_isReinstalled hmarked] at hunchanged
    cases hunchanged

end Scope

end Provision.Solver
