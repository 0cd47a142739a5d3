import Provision.Proofs.Solver.Completeness

/-!
# Recommendations and later jobs

A job follows recommendations after it has settled, and passes over those that it cannot follow. So
recommendations decide nothing about the job itself: it is refused just if it is refused where
nothing is recommended (`respond_refused_iff`). But what a job brings in because it is recommended
is decided for all jobs after it. So recommendations can block: a request is refused that needs a
slot otherwise than a recommendation has filled it. They block in no other way
(`solve_problems_eq_nil_iff`).
-/

namespace Provision

/-! ## Indexes that recommend nothing -/

def Metadata.unrecommended (m : Metadata) : Metadata := { m with recommends := [] }

def Entry.unrecommended (e : Entry) : Entry := { e with metadata := e.metadata.unrecommended }

namespace Index

variable {ix : Index}

/-- The index in which nothing is recommended. -/
def unrecommended (ix : Index) : Index where
  installed := ix.installed.map fun _ entry => entry.unrecommended
  offered := ix.offered.map fun _ entry => entry.unrecommended
  excludes := ix.excludes
  slot_eq slot entry h := by
    rw [Std.TreeMap.getElem?_map] at h
    obtain ⟨old, hold, rfl⟩ := Option.map_eq_some_iff.1 h
    exact ix.slot_eq slot old hold

theorem installedEntries_unrecommended :
    ix.unrecommended.installedEntries = ix.installedEntries.map Entry.unrecommended :=
  values_map (fun _ => Entry.unrecommended) Entry.unrecommended (fun _ _ => rfl) ix.installed

theorem offeredEntries_unrecommended :
    ix.unrecommended.offeredEntries = ix.offeredEntries.map Entry.unrecommended :=
  values_map (fun _ => Entry.unrecommended) Entry.unrecommended (fun _ _ => rfl) ix.offered

theorem installedEntry?_unrecommended (b : Build) :
    ix.unrecommended.installedEntry? b = (ix.installedEntry? b).map Entry.unrecommended := by
  unfold installedEntry? unrecommended
  rw [Std.TreeMap.getElem?_map, Option.filter_map]
  rfl

theorem offeredMetadata?_unrecommended (p : Package) :
    ix.unrecommended.offeredMetadata? p =
      (ix.offeredMetadata? p).map Metadata.unrecommended := by
  have hentry : ix.unrecommended.offered[p.offer]? =
      (ix.offered[p.offer]?).map Entry.unrecommended := Std.TreeMap.getElem?_map
  unfold offeredMetadata?
  rw [hentry, offeredEntries_unrecommended]
  rcases ix.offered[p.offer]? with _ | entry
  · show (List.find? _ (List.map _ _)).map _ = _
    rw [List.find?_map, Option.map_map, Option.map_map]
    rfl
  · rfl

theorem metadata?_unrecommended (p : Package) :
    ix.unrecommended.metadata? p = (ix.metadata? p).map Metadata.unrecommended := by
  unfold metadata?
  rw [installedEntry?_unrecommended, offeredMetadata?_unrecommended]
  rcases ix.installedEntry? p.build with _ | entry
  · rfl
  · show (if entry.package.repo = p.repo then some entry.metadata.unrecommended
        else ((ix.offeredMetadata? p).map Metadata.unrecommended).or
          (some entry.metadata.unrecommended)) =
      (if entry.package.repo = p.repo then some entry.metadata
        else (ix.offeredMetadata? p).or (some entry.metadata)).map Metadata.unrecommended
    split
    · rfl
    · cases ix.offeredMetadata? p <;> rfl

theorem meets_unrecommended (p : Package) (r : Requirement) :
    ix.unrecommended.meets p r = ix.meets p r := by
  unfold meets
  rw [metadata?_unrecommended]
  cases ix.metadata? p <;> rfl

theorem query_unrecommended (f : Filter) : ix.unrecommended.query f = ix.query f := by
  have hinstalled : ix.unrecommended.installedPackages = ix.installedPackages := by
    unfold installedPackages
    rw [installedEntries_unrecommended, List.map_map]
    rfl
  have hoffered : ix.unrecommended.offeredPackages = ix.offeredPackages := by
    unfold offeredPackages
    rw [offeredEntries_unrecommended, List.map_map]
    rfl
  unfold query
  rw [hinstalled, hoffered]
  rfl

end Index

namespace Solver

open Model (Reaches)

namespace Scope

variable {s : Scope} {m m' : Model}

/-- The scope over the index in which nothing is recommended. -/
def unrecommended (s : Scope) : Scope := { s with index := s.index.unrecommended }

theorem ofIndex_unrecommended (ix : Index) (policy : Policy) :
    ofIndex ix.unrecommended policy = (ofIndex ix policy).unrecommended := by
  have hinstalled : (ix.unrecommended.installed.map fun _ entry => entry.package) =
      ix.installed.map fun _ entry => entry.package := map_map _ _ _
  unfold ofIndex unrecommended
  rw [hinstalled, Index.query_unrecommended]

/-! ## The search reads no recommendations until a job has settled -/

theorem metadataOf_unrecommended (p : Package) :
    s.unrecommended.metadataOf p = (s.metadataOf p).unrecommended := by
  unfold metadataOf
  show (s.index.unrecommended.metadata? p).getD {} = _
  rw [Index.metadata?_unrecommended]
  cases s.index.metadata? p <;> rfl

theorem satisfied_unrecommended (packages : List Package) (r : Requirement) :
    s.unrecommended.satisfied packages r = s.satisfied packages r :=
  congrArg packages.any (funext fun p => Index.meets_unrecommended p r)

theorem applyObsoletes_unrecommended (m : Model) :
    s.unrecommended.applyObsoletes m = s.applyObsoletes m := by
  have hvictim : s.unrecommended.victimOf? m = s.victimOf? m := by
    funext p
    unfold victimOf?
    rw [metadataOf_unrecommended]
    rfl
  unfold applyObsoletes
  rw [hvictim]
  rfl

theorem resolveConflicts_unrecommended (m : Model) :
    s.unrecommended.resolveConflicts m = s.resolveConflicts m := by
  have hclashes : s.unrecommended.clashes m = s.clashes m := by
    unfold clashes
    simp only [metadataOf_unrecommended]
    show List.flatMap (fun p => List.flatMap (fun conflict => List.map _ (List.filter (fun other =>
      decide _ && s.index.unrecommended.meets other conflict && _) _)) _) _ = _
    simp only [Index.meets_unrecommended]
    rfl
  unfold resolveConflicts
  rw [hclashes]
  rfl

theorem firstBroken?_unrecommended (m : Model) :
    s.unrecommended.firstBroken? m = s.firstBroken? m := by
  unfold firstBroken? isBroken
  simp only [metadataOf_unrecommended, satisfied_unrecommended]
  rfl

theorem providers_unrecommended (m : Model) (r : Requirement) :
    s.unrecommended.providers m r = s.providers m r := by
  have hmeets : s.unrecommended.index.meets = s.index.meets :=
    funext fun p => funext fun r => Index.meets_unrecommended p r
  unfold providers
  rw [hmeets]
  rfl

theorem repairRequires_unrecommended (settle : Model → Search Model) (m : Model) :
    s.unrecommended.repairRequires settle m = s.repairRequires settle m := by
  have hrepair : s.unrecommended.repair settle m = s.repair settle m := by
    funext need
    unfold repair
    rw [providers_unrecommended]
    rfl
  unfold repairRequires
  rw [firstBroken?_unrecommended, hrepair]

theorem settle_unrecommended (steps : Nat) : s.unrecommended.settle steps = s.settle steps := by
  induction steps with
  | zero => rfl
  | succ steps ih =>
    funext m
    unfold settle
    rw [applyObsoletes_unrecommended, resolveConflicts_unrecommended,
      repairRequires_unrecommended, ih]

/-! ## Jobs with and without recommendations -/

/-- The recommendations that are followed once a job has settled. -/
def followAll (s : Scope) (m : Model) : Search Model :=
  s.followRecommends (s.settle s.steps) s.steps m

theorem followAll_grants (m : Model) : (s.followAll m).Grants := followRecommends_grants _ _ m

theorem followAll_unrecommended (m : Model) : (s.unrecommended.followAll m).result = .ok m := by
  have hnone : s.unrecommended.missingRecommends m = [] := by
    unfold missingRecommends
    rw [List.flatMap_eq_nil_iff]
    intro p _
    rw [metadataOf_unrecommended]
    rfl
  unfold followAll steps followRecommends
  rw [hnone]
  rfl

theorem take_unrecommended (m : Model) (p : Package) :
    (s.unrecommended.take m p).result = (s.attempt (s.settle s.steps) m .user p).result := by
  have htake : s.unrecommended.take m p =
      s.unrecommended.attempt (s.unrecommended.settle s.steps) m .user p >>=
        s.unrecommended.followAll := rfl
  have hattempt : s.unrecommended.attempt (s.settle s.steps) m .user p =
      s.attempt (s.settle s.steps) m .user p := rfl
  rw [htake, Search.result_bind, settle_unrecommended, hattempt]
  cases (s.attempt (s.settle s.steps) m .user p).result with
  | ok settled => exact followAll_unrecommended settled
  | error e => rfl

/-- By induction on the candidates: the same one is taken, and then recommendations are followed. -/
theorem install_result (rejected : List Problem) (candidates : List Package) :
    (s.install m rejected candidates).result =
      (s.unrecommended.install m rejected candidates >>= s.followAll).result := by
  induction candidates generalizing rejected with
  | nil => rfl
  | cons c rest ih =>
    have htake : (s.take m c).result = (s.unrecommended.take m c >>= s.followAll).result := by
      rw [Search.result_bind, take_unrecommended]
      exact Search.result_bind _ _
    rw [install_cons, install_cons, Search.result_orElse, Search.result_bind,
      Search.result_orElse, htake, Search.result_bind]
    rcases (s.unrecommended.take m c).result with (found | _) | settled
    · dsimp only
      rw [Search.result_debug_bind, Search.result_debug_bind, ih, Search.result_bind]
    · rfl
    · dsimp only
      rcases hfollow : (s.followAll settled).result with (found | _) | m'
      · exact absurd hfollow (followAll_grants settled found)
      · rfl
      · rfl

/-- What a job does besides what it does where nothing is recommended. -/
def complete (s : Scope) : Task → Model → Search Model
  | .install _, m => s.followAll m
  | _, m => pure m

theorem complete_grants (task : Task) (m : Model) : (s.complete task m).Grants := by
  cases task with
  | install => exact followAll_grants m
  | reinstall | remove => exact Search.grants_pure m

theorem perform_result (m : Model) (task : Task) :
    (s.perform m task).result = (s.unrecommended.perform m task >>= s.complete task).result := by
  cases task with
  | install candidates => exact install_result [] candidates
  | reinstall p =>
    have hsame : s.unrecommended.reinstall m p = s.reinstall m p := by
      unfold reinstall
      show (if _ then _ else s.unrecommended.settle s.steps _) = _
      rw [settle_unrecommended]
      rfl
    show (s.reinstall m p).result = (s.unrecommended.reinstall m p >>= pure).result
    rw [hsame, Search.result_bind]
    cases (s.reinstall m p).result <;> rfl
  | remove targets =>
    have hsame : s.unrecommended.remove m targets = s.remove m targets := by
      unfold remove
      show (s.unrecommended.settle s.steps _ >>= _) = _
      rw [settle_unrecommended]
      rfl
    show (s.remove m targets).result = (s.unrecommended.remove m targets >>= pure).result
    rw [hsame, Search.result_bind]
    cases (s.remove m targets).result <;> rfl

/-- What working on a request comes to, from a model on. -/
def respond (s : Scope) (m : Model) (request : Request) : Except Refusal Model :=
  (({ s with job := request.job } : Scope).perform m request.task).result

theorem respond_eq (m : Model) (request : Request) :
    s.respond m request =
      match s.unrecommended.respond m request with
      | .ok settled =>
        (({ s with job := request.job } : Scope).complete request.task settled).result
      | .error e => .error e := by
  have hplain : s.unrecommended.respond m request =
      (({ s with job := request.job } : Scope).unrecommended.perform m request.task).result := rfl
  rw [hplain]
  show (({ s with job := request.job } : Scope).perform m request.task).result = _
  rw [perform_result, Search.result_bind]
  cases (({ s with job := request.job } : Scope).unrecommended.perform m request.task).result <;>
    rfl

/-- A request is refused for the same reasons where nothing is recommended. -/
theorem respond_refused_iff {request : Request} {found : List Problem} :
    s.respond m request = .error (.problems found) ↔
      s.unrecommended.respond m request = .error (.problems found) := by
  rw [respond_eq]
  rcases s.unrecommended.respond m request with e | settled
  · rfl
  · exact iff_of_false (complete_grants _ _ found) nofun

end Scope

/-! ## What is brought in because it is recommended -/

/-- The job has decided a slot because of a recommendation. -/
def Carried.FollowsRecommendation (c : Carried) : Prop :=
  ∃ slot d, c.before.isDecided slot = false ∧ c.after.decided[slot]? = some d ∧
    d.reason = .weakDependency

namespace Scope

variable {s : Scope} {m m' : Model}

theorem decided?_place {p : Package} {reason : Reason} (hopen : m.isDecided p.slot = false)
    (h : s.place m p reason = .ok m') :
    m'.decided[p.slot]? = some ⟨reason, s.job, .plain⟩ := by
  rcases place_cases h with ⟨-, ⟨hdecided, -⟩ | ⟨-, rfl⟩⟩ | ⟨-, -, -, rfl⟩
  · rw [hopen] at hdecided
    cases hdecided
  · exact Model.decided?_decide_self hopen _
  · refine Model.decided?_fill_self ?_ _
    exact (displaceAll_sameAt fun q hq => ne_of_mem_displaced hq).isDecided.trans hopen

/-- A recommendation that is followed fills a slot that was open. -/
theorem followOne_decides_weak (hix : s.index.ProvidesAgree) (hm : m.Keyed) {needs : List Need}
    (hneeds : ∀ need ∈ needs, s.satisfied m.packages need.requirement = false)
    (h : (s.followOne (s.settle s.steps) m needs).result = .ok (some m')) :
    ∃ slot d, m.isDecided slot = false ∧ m'.decided[slot]? = some d ∧
      d.reason = .weakDependency := by
  obtain ⟨need, hneed, p, hp, placed, hplace, hsettle⟩ := followOne_eq_some h
  have hopen := isDecided_provider hix hm (hneeds need hneed) hp
  have hplaced : Reaches (· ∈ s.choices) m placed := place_reaches hm (mem_providers hp) hplace
  obtain ⟨hreaches, -⟩ := settle_reaches (fun _ hq => hq) s.steps (hm.reaches hplaced) hsettle
  have hsame := hreaches.sameAt (place_holds hplace).2
  exact ⟨p.slot, _, hopen, hsame.decided.trans (decided?_place hopen hplace), rfl⟩

/-- Following recommendations leaves the model as it is or fills an open slot. -/
theorem followRecommends_decides_weak (hix : s.index.ProvidesAgree) (hm : m.Keyed) {steps : Nat}
    (h : (s.followRecommends (s.settle s.steps) steps m).result = .ok m') :
    m' = m ∨ ∃ slot d, m.isDecided slot = false ∧ m'.decided[slot]? = some d ∧
      d.reason = .weakDependency := by
  have hchoices : ∀ p ∈ s.choices, p ∈ s.choices := fun _ hp => hp
  have hsettle := settle_reaches hchoices s.steps
  cases steps with
  | zero => cases h
  | succ steps =>
    obtain rfl | ⟨next, ho, h⟩ := followRecommends_succ_eq_ok h
    · exact .inl rfl
    · obtain ⟨hreaches, -⟩ := followOne_reaches hsettle hchoices hm ho
      obtain ⟨slot, d, hopen, hd, hweak⟩ :=
        followOne_decides_weak hix hm (fun _ hneed => unsatisfied_of_mem_missingRecommends hneed) ho
      obtain ⟨hrest, -⟩ := followRecommends_reaches hsettle hchoices (hm.reaches hreaches) h
      have hdecided : next.isDecided slot := by
        rw [Model.isDecided_eq, hd]
        rfl
      exact .inr ⟨slot, d, hopen, (hrest.sameAt hdecided).decided.trans hd, hweak⟩

/-- A job comes to the same where nothing is recommended unless it follows a recommendation. -/
theorem followsRecommendation_of_ne (hix : s.index.ProvidesAgree) (hm : m.Keyed)
    {request : Request} (h : s.respond m request = .ok m')
    (hne : s.unrecommended.respond m request ≠ .ok m') :
    Carried.FollowsRecommendation ⟨m, request, m'⟩ := by
  rw [respond_eq] at h
  rcases hplain : s.unrecommended.respond m request with e | settled
  · rw [hplain] at h
    cases h
  · rw [hplain] at h hne
    dsimp only at h
    have hsteps := (perform_steps (s := { s.unrecommended with job := request.job })
      (fun _ _ => trivial) (fun _ _ _ _ => trivial) hm hplain).1
    cases htask : request.task with
    | install candidates =>
      rw [htask] at h
      rcases followRecommends_decides_weak (s := { s with job := request.job }) hix
        (hm.steps hsteps) h with rfl | ⟨slot, d, hopen, hd, hweak⟩
      · exact absurd rfl hne
      · refine ⟨slot, d, Bool.eq_false_iff.2 fun hdecided => ?_, hd, hweak⟩
        rw [hsteps.isDecided hdecided] at hopen
        cases hopen
    | reinstall p =>
      rw [htask] at h
      exact absurd h hne
    | remove targets =>
      rw [htask] at h
      exact absurd h hne

/-! ## Runs that meet with a refusal -/

/-- A request that must be met is refused, once the jobs of a list have been carried out. -/
inductive Fails (s : Scope) : Model → List Request → List Carried → Prop
  | here {m : Model} {request : Request} {rest : List Request} {found : List Problem}
      (hstrong : request.weak = false) (hrefused : s.respond m request = .error (.problems found))
      (hfound : found ≠ []) : Fails s m (request :: rest) []
  | accepted {m after : Model} {request : Request} {rest : List Request} {cs : List Carried}
      (h : s.respond m request = .ok after) (hrest : Fails s after rest cs) :
      Fails s m (request :: rest) (⟨m, request, after⟩ :: cs)
  | refused {m : Model} {request : Request} {rest : List Request} {cs : List Carried} {e : Refusal}
      (h : s.respond m request = .error e) (hrest : Fails s m rest cs) :
      Fails s m (request :: rest) cs

theorem Fails.withJob {requests : List Request} {cs : List Carried} (job : Nat)
    (h : s.Fails m requests cs) : ({ s with job := job } : Scope).Fails m requests cs := by
  induction h with
  | here hstrong hrefused hfound => exact .here hstrong hrefused hfound
  | accepted h _ ih => exact .accepted h ih
  | refused h _ ih => exact .refused h ih

theorem fails_withJob_iff {requests : List Request} {cs : List Carried} (job : Nat) :
    ({ s with job := job } : Scope).Fails m requests cs ↔ s.Fails m requests cs :=
  ⟨Fails.withJob s.job, Fails.withJob job⟩

theorem fails_cons_of_ok {request : Request} {rest : List Request} {after : Model}
    (h : s.respond m request = .ok after) {cs : List Carried} :
    s.Fails m (request :: rest) cs ↔
      ∃ ds, cs = ⟨m, request, after⟩ :: ds ∧ s.Fails after rest ds := by
  constructor
  · intro hcs
    cases hcs with
    | here _ hrefused =>
      rw [h] at hrefused
      cases hrefused
    | accepted hok hrest =>
      rw [h] at hok
      cases hok
      exact ⟨_, rfl, hrest⟩
    | refused hrefused =>
      rw [h] at hrefused
      cases hrefused
  · rintro ⟨ds, rfl, hds⟩
    exact .accepted h hds

theorem fails_cons_of_problems {request : Request} {rest : List Request} {new : List Problem}
    (h : s.respond m request = .error (.problems new)) {cs : List Carried} :
    s.Fails m (request :: rest) cs ↔
      (cs = [] ∧ request.weak = false ∧ new ≠ []) ∨ s.Fails m rest cs := by
  constructor
  · intro hcs
    cases hcs with
    | here hstrong hrefused hfound =>
      rw [h] at hrefused
      cases hrefused
      exact .inl ⟨rfl, hstrong, hfound⟩
    | accepted hok =>
      rw [h] at hok
      cases hok
    | refused _ hrest => exact .inr hrest
  · rintro (⟨rfl, hstrong, hnew⟩ | hrest)
    · exact .here hstrong h hnew
    · exact .refused h hrest

/-- What the first request of a run comes to decides how the run goes on. -/
theorem performAll_respond (m : Model) (problems : List Problem) (request : Request)
    (rest : List Request) :
    (s.performAll m problems (request :: rest)).value =
      match s.respond m request with
      | .ok after =>
        (({ s with job := request.job } : Scope).performAll after problems rest).value
      | .error .unfinished => .error ⟨⟩
      | .error (.problems found) =>
        (({ s with job := request.job } : Scope).performAll m
          (if request.weak then problems else Problem.insertAll problems found) rest).value :=
  performAll_cons m problems request rest

/-- A run reports no problem just if it meets with no refusal. -/
theorem performAll_problems_eq_nil_iff {problems found : List Problem} {requests : List Request}
    (h : (s.performAll m problems requests).value = .ok (m', found)) :
    found = [] ↔ problems = [] ∧ ¬ ∃ cs, s.Fails m requests cs := by
  induction requests generalizing s m problems with
  | nil =>
    cases h
    exact (and_iff_left fun ⟨_, hfails⟩ => nomatch hfails).symm
  | cons request rest ih =>
    rw [performAll_respond] at h
    rcases hrespond : s.respond m request with (new | _) | after
    · rw [hrespond] at h
      have hnew : (if request.weak then problems else Problem.insertAll problems new) = [] ↔
          problems = [] ∧ ¬ (request.weak = false ∧ new ≠ []) := by
        cases request.weak <;> simp [Problem.insertAll_eq_nil_iff]
      rw [ih h, hnew, and_assoc, ← not_or]
      simp only [fails_cons_of_problems hrespond, fails_withJob_iff, exists_or, exists_eq_left]
    · rw [hrespond] at h
      cases h
    · rw [hrespond] at h
      rw [ih h]
      simp only [fails_cons_of_ok hrespond, fails_withJob_iff]
      rw [exists_comm]
      simp only [exists_eq_left]

/--
Two runs on the same requests, with recommendations and without, part at the first job that follows
one. If the run without reports no problem, whatever the other one reports comes after that.
-/
theorem performAll_problems_cases (hix : s.index.ProvidesAgree) (hm : m.Keyed)
    {requests : List Request} {found : List Problem} {last : Model}
    (h : (s.performAll m [] requests).value = .ok (m', found))
    (hplain : (s.unrecommended.performAll m [] requests).value = .ok (last, [])) :
    found = [] ∨ ∃ cs, s.Fails m requests cs ∧ ∃ c ∈ cs, c.FollowsRecommendation := by
  induction requests generalizing s m with
  | nil =>
    cases h
    exact .inl rfl
  | cons request rest ih =>
    rw [performAll_respond] at h hplain
    rcases hrespond : s.respond m request with (new | _) | after
    · rw [hrespond] at h
      rw [respond_refused_iff.1 hrespond] at hplain
      have hnil := ((performAll_problems_eq_nil_iff hplain).1 rfl).1
      dsimp only at h hplain
      rw [hnil] at h hplain
      refine (ih (s := { s with job := request.job }) hix hm h hplain).imp_right ?_
      rintro ⟨cs, hcs, hfollows⟩
      exact ⟨cs, .refused hrespond (hcs.withJob s.job), hfollows⟩
    · rw [hrespond] at h
      cases h
    · rw [hrespond] at h
      dsimp only at h
      by_cases hsame : s.unrecommended.respond m request = .ok after
      · rw [hsame] at hplain
        have hsteps := (perform_steps (s := { s with job := request.job })
          (fun _ _ => trivial) (fun _ _ _ _ => trivial) hm hrespond).1
        refine (ih (s := { s with job := request.job }) hix (hm.steps hsteps) h hplain).imp_right ?_
        rintro ⟨cs, hcs, c, hc, hfollows⟩
        exact ⟨_, .accepted hrespond (hcs.withJob s.job), c, List.mem_cons_of_mem _ hc, hfollows⟩
      · have hfollows := followsRecommendation_of_ne hix hm hrespond hsame
        refine or_iff_not_imp_left.2 fun hfound => ?_
        obtain ⟨cs, hcs⟩ : ∃ cs, ({ s with job := request.job } : Scope).Fails after rest cs := by
          by_contra hnone
          exact hfound ((performAll_problems_eq_nil_iff h).2 ⟨rfl, hnone⟩)
        exact ⟨_, .accepted hrespond (hcs.withJob s.job), _, List.mem_cons_self, hfollows⟩

end Scope

variable {ix : Index} {policy : Policy} {requests : List Request}

/--
If requests can be met where nothing is recommended, they are met with the recommendations as well,
unless a request that must be met is refused after a job that has followed a recommendation.
-/
theorem solve_problems_eq_nil_iff (hix : ix.ProvidesAgree) {plain : Outcome}
    (hplain : (solve ix.unrecommended policy requests).value = .ok plain)
    (hnone : plain.problems = []) :
    ∃ outcome, (solve ix policy requests).value = .ok outcome ∧
      (outcome.problems = [] ↔
        ¬ ∃ cs, (Scope.ofIndex ix policy).Fails (Scope.ofIndex ix policy).start requests cs ∧
          ∃ c ∈ cs, c.FollowsRecommendation) := by
  obtain ⟨outcome, h⟩ := (solve_returns hix policy requests).1
  obtain ⟨m, hrun, -⟩ := solve_cases h
  obtain ⟨last, hlast, -⟩ := solve_cases hplain
  rw [hnone, Scope.ofIndex_unrecommended] at hlast
  have hstart : (Scope.ofIndex ix policy).start.Keyed := @Scope.slot_installed_ofIndex ix policy
  refine ⟨outcome, h, fun hnil => ?_, fun hclear => ?_⟩
  · rintro ⟨cs, hcs, -⟩
    exact ((Scope.performAll_problems_eq_nil_iff hrun).1 hnil).2 ⟨cs, hcs⟩
  · exact (Scope.performAll_problems_cases hix hstart hrun hlast).resolve_right hclear

/-! ### A recommended build in the way of another one -/

def edition (name version : String) : Package := ⟨⟨name, "x", ⟨0, version, none⟩⟩, "r", none⟩

/-- `a` recommends `b`, of which two versions are offered. -/
def editionIndex : Index :=
  ((({} : Index).addOffered (edition "a" "1") { recommends := [⟨"b", .any⟩] }).addOffered
    (edition "b" "1") {}).addOffered (edition "b" "2") {}

def editionRequests : List Request :=
  [⟨0, .install [edition "a" "1"], false⟩, ⟨1, .install [edition "b" "1"], false⟩]

def editionPlainOutcome : Outcome where
  changes := [
    { package := edition "a" "1", action := .install, reason := .user, job := some 0 },
    { package := edition "b" "1", action := .install, reason := .user, job := some 1 }]
  problems := []

def editionOutcome : Outcome where
  changes := [
    { package := edition "a" "1", action := .install, reason := .user, job := some 0 },
    { package := edition "b" "2", action := .install, reason := .weakDependency, job := some 0 }]
  problems := [Scope.cannotInstallBoth (edition "b" "2") (edition "b" "1")]

theorem providesAgree_edition : editionIndex.ProvidesAgree := by
  refine Index.providesAgree_of_copies ?_ (by decide +kernel)
  unfold Index.OffersKeyed
  decide +kernel

theorem solve_edition_unrecommended :
    (solve editionIndex.unrecommended {} editionRequests).value = .ok editionPlainOutcome := by cbv

theorem solve_edition :
    (solve editionIndex {} editionRequests).value = .ok editionOutcome := by cbv

theorem solve_problems_eq_nil_iff_edition :
    editionIndex.ProvidesAgree ∧
      (solve editionIndex.unrecommended {} editionRequests).value = .ok editionPlainOutcome ∧
      ∃ cs, (Scope.ofIndex editionIndex {}).Fails (Scope.ofIndex editionIndex {}).start
        editionRequests cs ∧ ∃ c ∈ cs, c.FollowsRecommendation := by
  refine ⟨providesAgree_edition, solve_edition_unrecommended, ?_⟩
  obtain ⟨outcome, houtcome, hiff⟩ :=
    solve_problems_eq_nil_iff providesAgree_edition solve_edition_unrecommended rfl
  rw [solve_edition] at houtcome
  obtain rfl := Except.ok.inj houtcome
  exact not_not.1 (mt hiff.2 (List.cons_ne_nil _ _))

/-- A recommendation that is followed may keep a request from being met. -/
theorem not_all_unhindered :
    ¬ ∀ (ix : Index) (policy : Policy) (requests : List Request) (plain outcome : Outcome),
      ix.ProvidesAgree → (solve ix.unrecommended policy requests).value = .ok plain →
      plain.problems = [] → (solve ix policy requests).value = .ok outcome →
      outcome.problems = [] := by
  intro h
  have hnil := h editionIndex {} editionRequests editionPlainOutcome editionOutcome
    providesAgree_edition solve_edition_unrecommended rfl solve_edition
  cases hnil

end Solver

end Provision
