import Provision.Proofs.Solver.Completeness

/-!
# The models that solving comes to

While requests are solved many models are made: one after each job, those within a job, and those
on which a search tries something that it may give up again. All of them come from the first one by
turns of jobs (`Scope.Reached`). That no other models are looked at can be seen by putting another
search in the place of the one that goes on after a trial: as long as the two are the same at reached
models, nothing changes (`Reached.round_eq`, `Reached.performBy_eq`).

1. A reached model holds packages under their own slots, and nothing has happened to its open slots
   (`Reached.keepsOpen`).
2. Placing, settling and following recommendations leave alone what was decided
   (`respects_of_keyed`).
-/

namespace Provision.Solver

open Model (Reaches SameAt)

/-! ## Trials with another search -/

theorem Search.firstSuccess_congr {α : Type} {trial trial' : Package → Search α}
    {packages : List Package} (h : ∀ p ∈ packages, trial' p = trial p)
    (first : Option (List Problem)) :
    firstSuccess trial' first packages = firstSuccess trial first packages := by
  induction packages generalizing first with
  | nil => rfl
  | cons p rest ih =>
    unfold firstSuccess
    rw [h p List.mem_cons_self]
    refine orElse_congr_of_error fun found _ => ?_
    exact ih (fun q hq => h q (List.mem_cons_of_mem p hq)) _

namespace Scope

variable {s : Scope} {requests : List Request} {request : Request} {m m' : Model}
  {search search' : Model → Search Model}

/-- The scope of a job. -/
abbrev withJob (s : Scope) (job : Nat) : Scope := { s with job := job }

/-- One round of settling, with another search for what comes after. -/
def round (s : Scope) (search : Model → Search Model) (m : Model) : Search Model := do
  if let some m ← s.applyObsoletes m then search m
  else if let some m ← s.resolveConflicts m then search m
  else if let some m ← s.repairRequires search m then search m
  else return m

theorem settle_eq_round (steps : Nat) (m : Model) :
    s.settle (steps + 1) m = s.round (s.settle steps) m := rfl

/-- An installation, with another search for settling. -/
def installBy (s : Scope) (search : Model → Search Model) (m : Model) (rejected : List Problem) :
    List Package → Search Model
  | [] => Search.refuse rejected
  | candidate :: rest =>
    Search.orElse
      (do
        let settled ← s.attempt search m .user candidate
        s.followRecommends search s.steps settled)
      fun found => do
        Search.debug s!"Candidate {candidate.nevra} rejected"
        s.installBy search m (Problem.insertAll rejected found) rest

/-- A job, with another search for settling. -/
def performBy (s : Scope) (search : Model → Search Model) (m : Model) : Task → Search Model
  | .install candidates => s.installBy search m [] candidates
  | .reinstall p =>
    if m.isDecided p.slot then
      Search.refuse [⟨.conflicts, [p],
        s!"cannot reinstall {p.nevra}: it is changed by another job"⟩]
    else search (m.fill p ⟨.user, s.job, .reinstalled⟩)
  | .remove targets => do
    let settled ← search (s.eraseTargets { m with erasesDependents := true } targets)
    return { settled with erasesDependents := false }

theorem installBy_settle (m : Model) (rejected : List Problem) (candidates : List Package) :
    s.installBy (s.settle s.steps) m rejected candidates = s.install m rejected candidates := by
  induction candidates generalizing rejected with
  | nil => rfl
  | cons candidate rest ih =>
    unfold installBy install
    simp only [ih]

theorem performBy_settle (m : Model) (task : Task) :
    s.performBy (s.settle s.steps) m task = s.perform m task := by
  cases task with
  | install candidates => exact installBy_settle m [] candidates
  | reinstall => rfl
  | remove => rfl

theorem attempt_congr {reason : Reason} {p : Package}
    (h : ∀ placed, s.place m p reason = .ok placed → search' placed = search placed) :
    s.attempt search' m reason p = s.attempt search m reason p := by
  unfold attempt
  split
  · exact h _ ‹_›
  · rfl

/-- Mending a requirement looks at the search at its remedies only. -/
theorem repair_congr {need : Need}
    (h : ∀ next, s.Remedy m need next → search' next = search next) :
    s.repair search' m need = s.repair search m need := by
  rw [repair_eq, repair_eq]
  split
  · rfl
  · rename_i hstays
    have hstays := Bool.eq_false_iff.2 hstays
    rw [Search.firstSuccess_congr fun p hp =>
      attempt_congr fun placed hplace => h placed (.provide hstays hp hplace)]
    refine Search.orElse_congr_of_error fun found _ => ?_
    unfold repairWithoutProvider
    split
    · rename_i huntouched
      rw [Search.firstSuccess_congr fun p hp => attempt_congr fun placed hplace => ?_]
      obtain ⟨hchoice, hslot, hnewer⟩ := mem_upgradesOf_iff.1 hp
      exact h placed (.upgrade hstays huntouched hchoice hslot hnewer hplace)
    · rfl

theorem repairRequires_congr
    (h : ∀ need, s.firstBroken? m = some need → ∀ next, s.Remedy m need next →
      search' next = search next) :
    s.repairRequires search' m = s.repairRequires search m := by
  unfold repairRequires
  split
  · rfl
  · rename_i need hneed
    rw [repair_congr (h need hneed)]

/-- A round looks at the search where a flaw was mended, and at what the search itself came to. -/
theorem round_congr (h : ∀ next, s.Mends m next → search' next = search next)
    (hrepaired : ∀ next, (s.applyObsoletes m).result = .ok none →
      (s.resolveConflicts m).result = .ok none →
        (s.repairRequires search m).result = .ok (some next) → search' next = search next) :
    s.round search' m = s.round search m := by
  unfold round
  refine Search.bind_congr_of_ok fun o hobsoletes => ?_
  rcases o with _ | next
  · refine Search.bind_congr_of_ok fun o hconflicts => ?_
    rcases o with _ | next
    · dsimp only
      rw [repairRequires_congr fun need hneed next hremedy =>
        h next (.require hobsoletes hconflicts hneed hremedy)]
      refine Search.bind_congr_of_ok fun o hrequires => ?_
      rcases o with _ | next
      · rfl
      · exact hrepaired next hobsoletes hconflicts hrequires
    · exact h next (.conflict hobsoletes hconflicts)
  · exact h next (.obsolete hobsoletes)

/-! ## Reached models -/

/-- The models after jobs, within jobs, and on trial. -/
inductive Reached (s : Scope) (requests : List Request) : Model → Prop
  | start : Reached s requests s.start
  | turn {m m' : Model} {request : Request} (hm : Reached s requests m)
      (hrequest : request ∈ requests)
      (h : (s.withJob request.job).Turn request.task m m') : Reached s requests m'

section Reached

variable (hm : s.Reached requests m) (hrequest : request ∈ requests)

include hm hrequest

theorem Reached.turns (h : (s.withJob request.job).Turns request.task m m') :
    s.Reached requests m' := by
  induction h with
  | refl => exact hm
  | tail _ hturn ih => exact ih.turn hrequest hturn

theorem Reached.settle {steps : Nat}
    (h : ((s.withJob request.job).settle steps m).result = .ok m') :
    s.Reached requests m' :=
  hm.turns hrequest (Run.turns (settle_run h))

theorem Reached.perform
    (h : ((s.withJob request.job).perform m request.task).result = .ok m') :
    s.Reached requests m' :=
  hm.turns hrequest (perform_turns h)

variable {steps : Nat} (hsame : ∀ m', s.Reached requests m' →
  search m' = (s.withJob request.job).settle steps m')

include hsame

/-- A round of settling looks at the search at reached models only. -/
theorem Reached.round_eq :
    (s.withJob request.job).round search m =
      (s.withJob request.job).settle (steps + 1) m := by
  rw [settle_eq_round]
  refine round_congr (fun next h => hsame next (hm.turn hrequest (.mend h))) ?_
  intro next hobsoletes hconflicts hrepaired
  have hrun := repairRequires_run (fun _ _ h => settle_run h) hobsoletes hconflicts hrepaired
  exact hsame next (hm.turns hrequest hrun.turns)

variable {candidates : List Package} (htask : request.task = .install candidates)

include htask

theorem Reached.followOne_eq (needs : List Need) :
    (s.withJob request.job).followOne search m needs =
      (s.withJob request.job).followOne
        ((s.withJob request.job).settle steps) m needs := by
  induction needs with
  | nil => rfl
  | cons need rest ih =>
    unfold followOne
    rw [Search.firstSuccess_congr fun p hp => attempt_congr fun placed hplace =>
      hsame placed (hm.turn hrequest (.recommended htask (mem_providers hp) hplace)), ih]

theorem Reached.followRecommends_eq (bound : Nat) :
    (s.withJob request.job).followRecommends search bound m =
      (s.withJob request.job).followRecommends
        ((s.withJob request.job).settle steps) bound m := by
  induction bound generalizing m with
  | zero => rfl
  | succ bound ih =>
    unfold followRecommends
    rw [hm.followOne_eq hrequest hsame htask]
    refine Search.bind_congr_of_ok fun o hfollow => ?_
    rcases o with _ | next
    · rfl
    · exact ih (hm.turns hrequest (htask ▸ followOne_turns hfollow))

theorem Reached.installBy_eq {rest : List Package} (hrest : ∀ p ∈ rest, p ∈ candidates)
    (rejected : List Problem) :
    (s.withJob request.job).installBy search m rejected rest =
      (s.withJob request.job).installBy
        ((s.withJob request.job).settle steps) m rejected rest := by
  induction rest generalizing rejected with
  | nil => rfl
  | cons c rest ih =>
    have hplaced (placed : Model)
        (hplace : (s.withJob request.job).place m c .user = .ok placed) :
        s.Reached requests placed :=
      hm.turn hrequest (.candidate htask (hrest c List.mem_cons_self) hplace)
    unfold installBy
    rw [attempt_congr fun placed hplace => hsame placed (hplaced placed hplace)]
    rw [Search.bind_congr_of_ok fun settled hsettled => ?_]
    · refine Search.orElse_congr_of_error fun found _ => ?_
      rw [ih fun p hp => hrest p (List.mem_cons_of_mem c hp)]
    · obtain ⟨placed, hplace, hsettle⟩ := attempt_eq_ok hsettled
      exact ((hplaced placed hplace).settle hrequest hsettle).followRecommends_eq hrequest hsame htask _

end Reached

/-- So does a job. -/
theorem Reached.performBy_eq (hm : s.Reached requests m) (hrequest : request ∈ requests)
    (hsame : ∀ m', s.Reached requests m' → search m' =
      (s.withJob request.job).settle
        (s.withJob request.job).steps m') :
    (s.withJob request.job).performBy search m request.task =
      (s.withJob request.job).perform m request.task := by
  rw [← performBy_settle]
  rcases htask : request.task with candidates | p | targets
  · exact hm.installBy_eq hrequest hsame htask (fun _ hp => hp) []
  · unfold performBy
    dsimp only
    split
    · rfl
    · rename_i hopen
      exact hsame _ (hm.turn hrequest (.again htask (Bool.eq_false_iff.2 hopen)))
  · have herase : (s.withJob request.job).Turns request.task m
        ((s.withJob request.job).eraseTargets
          { m with erasesDependents := true } targets) :=
      .head (.attitude htask true) (eraseTargets_relates fun _ _ ht hholds => .drop htask ht hholds)
    unfold performBy
    dsimp only
    rw [hsame _ (hm.turns hrequest herase)]

/-! ## Open slots and decided ones -/

variable {ix : Index} {policy : Policy}

/-- A reached model is disciplined, whatever is being worked on. -/
theorem Reached.disciplined (hm : (ofIndex ix policy).Reached requests m) :
    (ofIndex ix policy).Disciplined requests m := by
  induction hm with
  | start => exact (start_orderly slot_installed_ofIndex requests).disciplined
  | turn _ hrequest h ih => exact (h.disciplined hrequest (ih.withJob _)).withJob 0

/-- Packages are under their own slots, and nothing has happened to a slot that is open. -/
structure KeepsOpen (ix : Index) (m : Model) : Prop where
  keyed : ∀ (slot : Slot) (p : Package), m.present[slot]? = some p → p.slot = slot
  present : ∀ slot, m.isDecided slot = false → m.present[slot]? = ix.installedAt? slot
  /--
  It is not marked to be put in place once more, nor as obsoleted or displaced. The data type carries
  this: a mark is part of the decision about its slot, so a slot that is open cannot have one.
  -/
  unmarked : ∀ slot, m.isDecided slot = false → (m.decided[slot]?).map Decision.fate = none

theorem Reached.keepsOpen (hm : (ofIndex ix policy).Reached requests m) : KeepsOpen ix m := by
  refine ⟨hm.disciplined.keyed, fun slot hopen => ?_, fun slot hopen => ?_⟩
  · rw [hm.disciplined.open_eq slot hopen, installed_ofIndex]
  · rw [Model.decided?_eq_none hopen]
    rfl

/-- What was decided stays decided, and what was there or missing in its slot stays so. -/
structure KeepsDecided (m m' : Model) : Prop where
  decided : ∀ slot, m.isDecided slot → m'.isDecided slot
  present : ∀ slot, m.isDecided slot → m'.present[slot]? = m.present[slot]?

theorem keepsDecided_of_reaches {may : Package → Prop} (h : Reaches may m m') : KeepsDecided m m' :=
  ⟨fun _ hslot => (h.sameAt hslot).isDecided.trans hslot, fun _ hslot => (h.sameAt hslot).present⟩

/-- No operation of the search goes back on a decision. -/
structure Respects (s : Scope) (m : Model) : Prop where
  place : ∀ p reason m', s.place m p reason = .ok m' → KeepsDecided m m'
  settle : ∀ steps m', (s.settle steps m).result = .ok m' → KeepsDecided m m'
  followRecommends : ∀ bound steps m',
    (s.followRecommends (s.settle bound) steps m).result = .ok m' → KeepsDecided m m'

theorem respects_of_keyed (s : Scope) (hm : m.Keyed) : s.Respects m := by
  have hall : ∀ p ∈ s.choices, (fun _ : Package => True) p := fun _ _ => trivial
  refine ⟨fun p reason m' h => ?_, fun steps m' h => ?_, fun bound steps m' h => ?_⟩
  · have hreaches : Reaches (fun _ => True) m m' := place_reaches hm trivial h
    exact keepsDecided_of_reaches hreaches
  · exact keepsDecided_of_reaches (settle_reaches hall steps hm h).1
  · exact keepsDecided_of_reaches (followRecommends_reaches (settle_reaches hall bound) hall hm h).1

/-- Whatever a round of settling or the job tries, and what they end with, is a model of the class. -/
structure StaysAmong (s : Scope) (among : Model → Prop) (task : Task) (m : Model) : Prop where
  round : ∀ steps search, (∀ m', among m' → search m' = s.settle steps m') →
    s.round search m = s.settle (steps + 1) m
  perform : ∀ search, (∀ m', among m' → search m' = s.settle s.steps m') →
    s.performBy search m task = s.perform m task
  settled : ∀ steps m', (s.settle steps m).result = .ok m' → among m'
  performed : ∀ m', (s.perform m task).result = .ok m' → among m'

theorem Reached.staysAmong (hm : s.Reached requests m) (hrequest : request ∈ requests) :
    (s.withJob request.job).StaysAmong (s.Reached requests) request.task m :=
  ⟨fun _ _ hsame => hm.round_eq hrequest hsame, fun _ hsame => hm.performBy_eq hrequest hsame,
    fun _ _ h => hm.settle hrequest h, fun _ h => hm.perform hrequest h⟩

/--
Every model that solving comes to, be it on trial only, keeps packages under their own slots and open
slots as they were; from there no operation of the search goes back on a decision; and all models that
are tried from there are such models again.
-/
theorem Reached.keeps_discipline (hm : (ofIndex ix policy).Reached requests m) :
    KeepsOpen ix m ∧ (∀ job, ((ofIndex ix policy).withJob job).Respects m) ∧
      ∀ request ∈ requests, ((ofIndex ix policy).withJob request.job).StaysAmong
        ((ofIndex ix policy).Reached requests) request.task m :=
  ⟨hm.keepsOpen, fun _ => respects_of_keyed _ hm.disciplined.keyed,
    fun _ hrequest => hm.staysAmong hrequest⟩

end Scope

/-! ### A provider that is tried and given up -/

def forkScope : Scope := .ofIndex forkIndex {}

/-- The candidate `a` in its slot. -/
def forkTaken : Model := forkScope.start.fill (fork "a") ⟨.user, 0, .plain⟩

/-- On trial, what it requires is to come from `b`. -/
def forkTried : Model := forkTaken.fill (fork "b") ⟨.dependency, 0, .plain⟩

theorem reached_forkTried : forkScope.Reached forkRequests forkTried := by
  have hplace : forkScope.place forkScope.start (fork "a") .user = .ok forkTaken := by cbv
  have htry : forkScope.place forkTaken (fork "b") .dependency = .ok forkTried := by cbv
  have hobsoletes : (forkScope.applyObsoletes forkTaken).result = .ok none := by cbv
  have hconflicts : (forkScope.resolveConflicts forkTaken).result = .ok none := by cbv
  have hneed : forkScope.firstBroken? forkTaken = some ⟨fork "a", ⟨"t", .any⟩⟩ := by cbv
  have hstays : forkScope.goesAlong forkTaken ⟨fork "a", ⟨"t", .any⟩⟩ = false := by cbv
  have hproviders : forkScope.providers forkTaken ⟨"t", .any⟩ = [fork "b", fork "c"] := by cbv
  have htaken : forkScope.Reached forkRequests forkTaken :=
    .turn .start List.mem_cons_self (.candidate rfl List.mem_cons_self hplace)
  refine htaken.turn List.mem_cons_self (.mend (.require hobsoletes hconflicts hneed ?_))
  exact .provide hstays (hproviders ▸ List.mem_cons_self) htry

/-- Nothing offers what `b` requires, so the model is given up. -/
theorem keeps_discipline_fork :
    forkScope.Reached forkRequests forkTried ∧
      (forkScope.settle forkScope.steps forkTried).result = .error (.problems
        [⟨.brokenDependency, [fork "b"], "nothing provides u needed by b-1.x"⟩]) ∧
      Scope.KeepsOpen forkIndex forkTried ∧ forkScope.Respects forkTried := by
  obtain ⟨hopen, hrespects, -⟩ := reached_forkTried.keeps_discipline
  exact ⟨reached_forkTried, by cbv, hopen, hrespects 0⟩

end Provision.Solver
