import Provision.Proofs.Solver.Jobs

/-!
# Runs of jobs

A run works on jobs in turn. Those that succeed form a chain of models (`carried`, `Chained`); those
that fail leave no trace but their problems.

1. The model that a run ends with is the last one of its chain (`performAll_chained`).
2. Along the chain every model is disciplined and settled (`Chained.orderly`), the one that a run
   starts with included (`start_orderly`).
-/

namespace Provision.Solver

open Model (SameAt)

/-- A job that was carried out, with the models before and after it. -/
structure Carried where
  before : Model
  request : Request
  after : Model

/-- Each job starts from the model that the one before it left. -/
def Chained (m : Model) : List Carried → Model → Prop
  | [], m' => m = m'
  | c :: rest, m' => c.before = m ∧ Chained c.after rest m'

theorem Chained.append_iff {m m' : Model} {cs ds : List Carried} :
    Chained m (cs ++ ds) m' ↔ ∃ n, Chained m cs n ∧ Chained n ds m' := by
  induction cs generalizing m with
  | nil =>
    constructor
    · intro h
      exact ⟨m, rfl, h⟩
    · rintro ⟨n, rfl, h⟩
      exact h
  | cons c rest ih =>
    constructor
    · rintro ⟨hbefore, h⟩
      obtain ⟨n, hrest, hds⟩ := ih.1 h
      exact ⟨n, ⟨hbefore, hrest⟩, hds⟩
    · rintro ⟨n, ⟨hbefore, hrest⟩, hds⟩
      exact ⟨hbefore, ih.2 ⟨n, hrest, hds⟩⟩

/-- What every job of a chain keeps holds at its end. -/
theorem Chained.keeps (holds : Model → Prop) {cs : List Carried}
    (hkeeps : ∀ c ∈ cs, holds c.before → holds c.after) {m m' : Model} (h : Chained m cs m')
    (hm : holds m) : holds m' := by
  induction cs generalizing m with
  | nil => exact h ▸ hm
  | cons c rest ih =>
    obtain ⟨rfl, h⟩ := h
    exact ih (fun d hd => hkeeps d (List.mem_cons_of_mem c hd)) h (hkeeps c List.mem_cons_self hm)

namespace Scope

variable {s : Scope} {m m' : Model}

/-- The jobs of a list that are carried out, from a model on. -/
def carried (s : Scope) (m : Model) : List Request → List Carried
  | [] => []
  | request :: rest =>
    match (({ s with job := request.job } : Scope).perform m request.task).result with
    | .ok after => ⟨m, request, after⟩ :: s.carried after rest
    | .error _ => s.carried m rest

/-- The job succeeds on the model before it with the one after it. -/
def Accepts (s : Scope) (c : Carried) : Prop :=
  (({ s with job := c.request.job } : Scope).perform c.before c.request.task).result = .ok c.after

theorem mem_carried {c : Carried} {requests : List Request} (h : c ∈ s.carried m requests) :
    c.request ∈ requests ∧ s.Accepts c := by
  induction requests generalizing m with
  | nil => cases h
  | cons request rest ih =>
    unfold carried at h
    split at h
    · rename_i after hperform
      rcases List.mem_cons.1 h with rfl | h
      · exact ⟨List.mem_cons_self, hperform⟩
      · obtain ⟨hmem, haccepts⟩ := ih h
        exact ⟨List.mem_cons_of_mem request hmem, haccepts⟩
    · obtain ⟨hmem, haccepts⟩ := ih h
      exact ⟨List.mem_cons_of_mem request hmem, haccepts⟩

/-! ## Results of runs -/

/-- What the first job of a run comes to decides how the run goes on. -/
theorem performAll_cons (m : Model) (problems : List Problem) (request : Request)
    (rest : List Request) :
    (s.performAll m problems (request :: rest)).value =
      match (({ s with job := request.job } : Scope).perform m request.task).result with
      | .ok after =>
        (({ s with job := request.job } : Scope).performAll after problems rest).value
      | .error .unfinished => .error ⟨⟩
      | .error (.problems found) =>
        (({ s with job := request.job } : Scope).performAll m
          (if request.weak then problems else Problem.insertAll problems found) rest).value := by
  unfold Search.result
  rw [performAll, Traced.value_bind]
  rcases (ExceptT.run (({ s with job := request.job } : Scope).perform m request.task)).value with
    (found | _) | after
  · dsimp only
    split <;> rfl
  · rfl
  · rfl

theorem performAll_withJob (job : Nat) (m : Model) (problems : List Problem)
    (requests : List Request) :
    (({ s with job := job } : Scope).performAll m problems requests).value =
      (s.performAll m problems requests).value := by
  cases requests <;> rfl

theorem carried_withJob (job : Nat) (m : Model) (requests : List Request) :
    ({ s with job := job } : Scope).carried m requests = s.carried m requests := by
  induction requests generalizing m with
  | nil => rfl
  | cons request rest ih => simp only [carried, ih]

/-- The last model of a run is that of its chain. -/
theorem performAll_chained {problems found : List Problem} {requests : List Request}
    (h : (s.performAll m problems requests).value = .ok (m', found)) :
    Chained m (s.carried m requests) m' := by
  induction requests generalizing s m problems with
  | nil =>
    cases h
    rfl
  | cons request rest ih =>
    rw [performAll_cons] at h
    unfold carried
    rcases hperform : (({ s with job := request.job } : Scope).perform m request.task).result with
      (new | _) | after
    · rw [hperform] at h
      have hrest := ih h
      rw [carried_withJob] at hrest
      exact hrest
    · rw [hperform] at h
      cases h
    · rw [hperform] at h
      have hrest := ih h
      rw [carried_withJob] at hrest
      exact ⟨rfl, hrest⟩

/-! ## Models along a run -/

/-- The model is disciplined and has no flaw. -/
structure Orderly (s : Scope) (requests : List Request) (m : Model) : Prop where
  disciplined : s.Disciplined requests m
  settled : s.Settled m

theorem Accepts.steps {requests : List Request} {c : Carried} (hrequest : c.request ∈ requests)
    (hm : c.before.Keyed) (h : s.Accepts c) :
    Model.Steps (s.Supply requests) c.request.task c.before c.after ∧ s.Settled c.after := by
  have hchoices (p : Package) (hp : p ∈ s.choices) : s.Supply requests p := .inl hp
  have hcandidates (candidates : List Package) (htask : c.request.task = .install candidates)
      (p : Package) (hp : p ∈ candidates) : s.Supply requests p :=
    .inr ⟨c.request, hrequest, candidates, htask, hp⟩
  obtain ⟨hsteps, hsettled⟩ :=
    perform_steps (s := { s with job := c.request.job }) hchoices hcandidates hm h
  exact ⟨hsteps, hsettled.withJob⟩

theorem Accepts.orderly {requests : List Request} {c : Carried} (hrequest : c.request ∈ requests)
    (hm : s.Orderly requests c.before) (h : s.Accepts c) : s.Orderly requests c.after := by
  obtain ⟨hsteps, hsettled⟩ := h.steps hrequest hm.disciplined.keyed
  exact ⟨hm.disciplined.steps hrequest hsteps, hsettled⟩

/-- By induction along the chain: each job keeps the model orderly. -/
theorem orderly_of_chained {requests : List Request} {cs : List Carried}
    (haccepts : ∀ c ∈ cs, c.request ∈ requests ∧ s.Accepts c) (hm : s.Orderly requests m)
    (h : Chained m cs m') :
    s.Orderly requests m' ∧
      ∀ c ∈ cs, s.Orderly requests c.before ∧ s.Orderly requests c.after := by
  induction cs generalizing m with
  | nil =>
    cases h
    exact ⟨hm, nofun⟩
  | cons c rest ih =>
    obtain ⟨rfl, h⟩ := h
    obtain ⟨hrequest, hc⟩ := haccepts c List.mem_cons_self
    have hafter := hc.orderly hrequest hm
    obtain ⟨hlast, hrest⟩ := ih (fun d hd => haccepts d (List.mem_cons_of_mem c hd)) hafter h
    refine ⟨hlast, fun d hd => ?_⟩
    rcases List.mem_cons.1 hd with rfl | hd
    · exact ⟨hm, hafter⟩
    · exact hrest d hd

/-! ## The start of a run -/

theorem decided?_start (slot : Slot) : s.start.decided[slot]? = none :=
  Std.TreeMap.getElem?_emptyc

theorem isDecided_start (slot : Slot) : s.start.isDecided slot = false := by
  rw [Model.isDecided_eq, decided?_start]
  rfl

theorem isReinstalled_start (slot : Slot) : s.start.isReinstalled slot = false :=
  isReinstalled_of_open (isDecided_start slot)

theorem changed_eq_nil (hm : ∀ p ∈ m.packages, s.isChanged m p.slot = false) :
    s.changed m = [] := by
  unfold changed
  rw [List.filter_eq_nil_iff]
  intro p hp hchanged
  rw [hm p hp] at hchanged
  cases hchanged

theorem clashes_eq_nil (hm : ∀ p ∈ m.packages, s.isChanged m p.slot = false) :
    s.clashes m = [] := by
  unfold clashes
  rw [List.flatMap_eq_nil_iff]
  intro p hp
  rw [List.flatMap_eq_nil_iff]
  intro conflict _
  rw [List.map_eq_nil_iff, List.filter_eq_nil_iff]
  intro other hother
  rw [hm p hp, hm other hother]
  simp

/-- Nothing is changed at the start, so there is nothing to mend. -/
theorem start_orderly
    (hinstalled : ∀ (slot : Slot) (p : Package), s.installed[slot]? = some p → p.slot = slot)
    (requests : List Request) : s.Orderly requests s.start := by
  have hkeyed : s.start.Keyed := hinstalled
  have hunchanged (p : Package) (hp : p ∈ s.start.packages) :
      s.isChanged s.start p.slot = false :=
    isChanged_of_left (hkeyed.mem_packages_iff.1 hp) (hkeyed.mem_packages_iff.1 hp)
      (isReinstalled_start p.slot)
  refine ⟨⟨hkeyed, fun _ _ => rfl, fun slot p hp => .left hp (isReinstalled_start slot)⟩,
    ⟨fun p hp => ?_, clashes_eq_nil hunchanged, ?_⟩⟩
  · rw [changed_eq_nil hunchanged] at hp
    cases hp
  · unfold firstBroken?
    rw [List.findSome?_eq_none_iff]
    intro p hp
    rw [Option.map_eq_none_iff, List.find?_eq_none]
    intro r _
    unfold isBroken
    rw [hunchanged p hp]
    show ¬ (!s.satisfied s.installed.values r && (false || s.satisfied s.installed.values r)) = true
    cases s.satisfied s.installed.values r <;> decide

theorem installed_ofIndex (ix : Index) (policy : Policy) (slot : Slot) :
    (ofIndex ix policy).installed[slot]? = ix.installedAt? slot := by
  unfold ofIndex Index.installedAt?
  rw [Std.TreeMap.getElem?_map]

theorem slot_installed_ofIndex {ix : Index} {policy : Policy} (slot : Slot) (p : Package)
    (h : (ofIndex ix policy).installed[slot]? = some p) : p.slot = slot := by
  rw [installed_ofIndex] at h
  exact Index.slot_installedAt? h

end Scope

/-- A solution tells the changes and the problems of a run from the start. -/
theorem solve_cases {ix : Index} {policy : Policy} {requests : List Request} {outcome : Outcome}
    (h : (solve ix policy requests).value = .ok outcome) :
    ∃ m, ((Scope.ofIndex ix policy).performAll (Scope.ofIndex ix policy).start [] requests).value =
        .ok (m, outcome.problems) ∧
      outcome.changes = (Scope.ofIndex ix policy).changes m := by
  unfold solve at h
  rw [Traced.value_bind] at h
  rcases hrun : ((Scope.ofIndex ix policy).performAll (Scope.ofIndex ix policy).start []
    requests).value with _ | ⟨m, problems⟩
  · rw [hrun] at h
    cases h
  · rw [hrun] at h
    cases h
    exact ⟨m, rfl, rfl⟩

/-- The jobs that are carried out when requests are solved. -/
def carriedOut (ix : Index) (policy : Policy) (requests : List Request) : List Carried :=
  (Scope.ofIndex ix policy).carried (Scope.ofIndex ix policy).start requests

theorem mem_carriedOut {ix : Index} {policy : Policy} {requests : List Request} {c : Carried}
    (h : c ∈ carriedOut ix policy requests) :
    c.request ∈ requests ∧ (Scope.ofIndex ix policy).Accepts c :=
  Scope.mem_carried h

/-- The models of a run are orderly, the last one included. -/
theorem performAll_orderly {ix : Index} {policy : Policy} {requests : List Request} {m : Model}
    {found : List Problem}
    (h : ((Scope.ofIndex ix policy).performAll (Scope.ofIndex ix policy).start []
      requests).value = .ok (m, found)) :
    (Scope.ofIndex ix policy).Orderly requests m ∧
      ∀ c ∈ carriedOut ix policy requests,
        (Scope.ofIndex ix policy).Orderly requests c.before ∧
        (Scope.ofIndex ix policy).Orderly requests c.after := by
  exact Scope.orderly_of_chained (fun c hc => Scope.mem_carried hc)
    (Scope.start_orderly Scope.slot_installed_ofIndex _) (Scope.performAll_chained h)

end Provision.Solver
