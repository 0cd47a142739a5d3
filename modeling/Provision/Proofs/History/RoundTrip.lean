import Provision.Proofs.History.Retracing
import Provision.Proofs.Query.Listing

/-!
# Undoing a transaction

A plan is executed, its record is turned into a goal that undoes it, and the goal is resolved on the
index that the plan has left. What is known of this round trip (`RoundTrip`):

1. the record can be turned into a goal if and only if every build that stood in the slots of the
   plan is on offer;
2. the goal has a plan if and only if selection has nothing to object to, each of its requests can be
   met from where those before it have led, and nothing that is protected goes;
3. a plan of the goal restores what was installed if and only if it stays within the slots of the
   first plan and brings nothing into those that were empty;
4. with these builds on offer, the goal has a plan that restores what was installed if each world on
   the way back asks only for further steps back and none is stuck, nothing that is taken off again is
   protected, and nothing that is put in place once more shares its name.

All of this holds of every plan that was found for a goal, and it holds of the plan that undoes it in
its turn (`roundTrip_of_resolve`). Offers alone are not enough (`undo_may_fail`).
-/

namespace Provision

open History
open Solver (Scope Stage)

/-- An execution of the items on the first index leaves the second one and writes the record. -/
def RunsTo (items : List Item) (ix ix' : Index) (record : Record) : Prop :=
  ∃ (e : Execution) (watch : Update → Traced Unit) (store : Store) (now : Int),
    e.transaction.items = items ∧
    (e.run Index.installer ix watch store now).value.outcome.state = ix' ∧
    (e.run Index.installer ix watch store now).value.record = record

/-- What is known of undoing a plan that has led from the first index to the second. -/
structure RoundTrip (ix ix' : Index) (items : List Item) (record : Record) (policy : Goal.Policy) :
    Prop where
  /-- The record is that of a success. -/
  done : record.state = .done
  invertible : (∃ undo, (invert record ix' policy).value = .ok undo) ↔
    ∀ p ∈ ix.installedPackages, Item.Touch items p.slot → ∃ q, ix'.Offers p.build q
  solvable : ix'.ProvidesAgree → ∀ undo, (invert record ix' policy).value = .ok undo →
    ((∃ items' advisories, (undo.resolve ix').value = .ok (.solved items' advisories)) ↔
      undo.Solvable ix')
  exact : ∀ undo, (invert record ix' policy).value = .ok undo → ∀ items' advisories,
    (undo.resolve ix').value = .ok (.solved items' advisories) → ∀ ix'' record',
    RunsTo items' ix' ix'' record' → (ix.Restores ix'' ↔ Item.Within items items')
  restores : (∀ p ∈ ix.installedPackages, Item.Touch items p.slot → ∃ q, ix'.Offers p.build q) →
    Retraceable ix ix' policy items →
    ∃ undo items' advisories, (invert record ix' policy).value = .ok undo ∧
      (undo.resolve ix').value = .ok (.solved items' advisories) ∧
      ∀ ix'' record', RunsTo items' ix' ix'' record' → record'.state = .done ∧ ix.Restores ix''

/-- The record of a first transaction that carries out the items. -/
def Index.firstRecord (ix : Index) (items : List Item) : Record :=
  (⟨⟨1, .inProgress, items⟩, 0⟩ : Execution).recordOf (ix.carryOut items) 0

theorem runsTo_carryOut (ix : Index) (items : List Item) :
    RunsTo items ix (ix.carryOut items).state (ix.firstRecord items) := by
  let e : Execution := ⟨⟨1, .inProgress, items⟩, 0⟩
  obtain ⟨houtcome, hrecord, -⟩ :=
    Execution.run_value (rfl : (e.run Index.installer ix Update.ignore {} 0).value = _)
  have houtcome : _ = ix.carryOut items := houtcome
  refine ⟨e, Update.ignore, {}, 0, rfl, ?_, ?_⟩
  · rw [houtcome]
  · rw [hrecord, houtcome]
    rfl

namespace Goal

variable {g : Goal} {ix ix' : Index} {items : List Item} {advisories : List Problem}
  {record : Record}

theorem Solves.runsTo {outcome : Solver.Outcome} (h : g.Solves ix items outcome)
    (hrun : RunsTo items ix ix' record) :
    ix.Realises items ix' ∧ ∃ id start now, record = doneRecord id start now items := by
  obtain ⟨e, watch, store, now, hitems, rfl, rfl⟩ := hrun
  obtain ⟨report, hreport, -, -, hrecord, hrealises⟩ := h.run hitems watch store now
  rw [hreport]
  exact ⟨hrealises, e.transaction.id, e.startEpoch, now, hrecord⟩

theorem Solves.undoing_of_invert {outcome : Solver.Outcome} (h : g.Solves ix items outcome)
    (hplain : ∀ i ∈ items, i.package.IsPlain) (hrun : RunsTo items ix ix' record) {undo : Goal}
    (hundo : (invert record ix' g.policy).value = .ok undo) :
    undo.policy = g.policy ∧ Undoing g ix items outcome ix' undo := by
  obtain ⟨hrealised, id, start, now, rfl⟩ := h.runsTo hrun
  obtain ⟨hpolicy, hjobs⟩ := h.reverses_of_invert hundo
  exact ⟨hpolicy, h, hrealised, hplain, hjobs⟩

theorem Solves.roundTrip {outcome : Solver.Outcome} (h : g.Solves ix items outcome)
    (hplain : ∀ i ∈ items, i.package.IsPlain) (hrun : RunsTo items ix ix' record) :
    RoundTrip ix ix' items record g.policy := by
  have hdone : record.state = .done := by
    obtain ⟨-, id, start, now, rfl⟩ := h.runsTo hrun
    rfl
  have hinvertible : (∃ undo, (invert record ix' g.policy).value = .ok undo) ↔
      ∀ p ∈ ix.installedPackages, Item.Touch items p.slot → ∃ q, ix'.Offers p.build q := by
    obtain ⟨-, id, start, now, rfl⟩ := h.runsTo hrun
    exact h.exists_invert_iff hplain
  have hexact {undo : Goal} (hundo : (invert record ix' g.policy).value = .ok undo)
      {items' : List Item} {advisories' : List Problem}
      (hresolve : (undo.resolve ix').value = .ok (.solved items' advisories')) {ix'' : Index}
      {record' : Record} (hrun' : RunsTo items' ix' ix'' record') :
      record'.state = .done ∧ (ix.Restores ix'' ↔ Item.Within items items') := by
    obtain ⟨-, hundoing⟩ := h.undoing_of_invert hplain hrun hundo
    obtain ⟨outcome', h'⟩ := resolve_cases hresolve
    obtain ⟨hrealised', id', start', now', rfl⟩ := h'.runsTo hrun'
    exact ⟨rfl, hundoing.restores_iff h' hrealised'⟩
  have hsolvable (hix : ix'.ProvidesAgree) {undo : Goal}
      (hundo : (invert record ix' g.policy).value = .ok undo) :
      (∃ items' advisories, (undo.resolve ix').value = .ok (.solved items' advisories)) ↔
        undo.Solvable ix' :=
    (h.undoing_of_invert hplain hrun hundo).2.exists_resolve_iff hix
  refine ⟨hdone, hinvertible, fun hix _ hundo => hsolvable hix hundo,
    fun _ hundo _ _ hresolve _ _ hrun' => (hexact hundo hresolve hrun').2, fun hoffered hback => ?_⟩
  obtain ⟨undo, hundo⟩ := hinvertible.2 hoffered
  obtain ⟨hpolicy, hundoing⟩ := h.undoing_of_invert hplain hrun hundo
  rw [← hpolicy] at hback
  obtain ⟨items', advisories', hresolve, hwithin⟩ := hundoing.exists_resolve hback
  refine ⟨undo, items', advisories', hundo, hresolve, fun ix'' record' hrun' => ?_⟩
  obtain ⟨hdone', hrestores⟩ := hexact hundo hresolve hrun'
  exact ⟨hdone', hrestores.2 hwithin⟩

/--
A plan that was found for a goal can be undone as far as `RoundTrip` says, and so can the plan that
undoes it.
-/
theorem roundTrip_of_resolve (h : (g.resolve ix).value = .ok (.solved items advisories))
    (hplain : ∀ i ∈ items, i.package.IsPlain) (hrun : RunsTo items ix ix' record) :
    RoundTrip ix ix' items record g.policy ∧
      ∀ undo, (invert record ix' g.policy).value = .ok undo → ∀ items' advisories',
        (undo.resolve ix').value = .ok (.solved items' advisories') → ∀ ix'' record',
        RunsTo items' ix' ix'' record' → (∀ i ∈ items', i.package.IsPlain) →
        RoundTrip ix' ix'' items' record' g.policy := by
  obtain ⟨outcome, hsolves⟩ := resolve_cases h
  refine ⟨hsolves.roundTrip hplain hrun, fun undo hundo items' advisories' hresolve ix'' record' hrun'
    hplain' => ?_⟩
  obtain ⟨hpolicy, -⟩ := hsolves.undoing_of_invert hplain hrun hundo
  obtain ⟨outcome', hsolves'⟩ := resolve_cases hresolve
  rw [← hpolicy]
  exact hsolves'.roundTrip hplain' hrun'

/-! ## Two packages that move together -/

/-- An index on which the packages are installed and on offer, and further ones are on offer. -/
def stocked (installed further : List (Package × Metadata)) : Index :=
  (installed ++ further).foldl (fun ix p => ix.addOffered p.1 p.2)
    (installed.foldl (fun ix p => ix.addInstalled p.1 p.2) {})

/-- Each version of the application requires the library in the same version. -/
def pinnedApp (version arch : String) : Package × Metadata :=
  (⟨⟨"b", arch, ⟨0, version, none⟩⟩, "r", none⟩,
    { requires := [⟨"a", .bound .equal ⟨0, version, none⟩⟩] })

/-- The library requires the application in its turn. -/
def pinnedLib (version : String) : Package × Metadata :=
  (⟨⟨"a", "m", ⟨0, version, none⟩⟩, "r", none⟩, { requires := [⟨"b", .any⟩] })

/-- The first versions are installed, and the second application is for another architecture. -/
def pinnedIndex : Index :=
  stocked [pinnedApp "1" "noarch", pinnedLib "1"] [pinnedApp "2" "m", pinnedLib "2"]

def pinnedGoal : Goal := ⟨[⟨.install, .pattern "b-2", {}⟩], {}⟩

def pinnedRequest : Solver.Request := ⟨0, .install [(pinnedApp "2" "m").1], false⟩

/-- All builds there are, in the order of listings. -/
def pinnedChoices : List Package :=
  [(pinnedLib "1").1, (pinnedLib "2").1, (pinnedApp "2" "m").1, (pinnedApp "1" "noarch").1]

def pinnedChanges : List Change :=
  [{ package := (pinnedLib "2").1, action := .upgrade, reason := .dependency, job := some 0,
     replaces := some (pinnedLib "1").1 },
   { package := (pinnedApp "2" "m").1, action := .install, reason := .user, job := some 0 },
   { package := (pinnedApp "1" "noarch").1, action := .replaced, reason := .dependency,
     job := some 0, replacedBy := some (pinnedApp "2" "m").1 }]

def pinnedItems : List Item :=
  [{ package := (pinnedLib "2").1, action := .upgrade, reason := .dependency, position := 0,
     replaces := some (pinnedLib "1").1 },
   { package := (pinnedApp "2" "m").1, action := .install, reason := .user, position := 1 },
   { package := (pinnedApp "1" "noarch").1, action := .replaced, reason := .dependency,
     position := 2, replacedBy := some (pinnedApp "2" "m").1 }]

def pinnedCircle : Problem :=
  ⟨.orderingCycle, [(pinnedLib "2").1, (pinnedApp "2" "m").1],
    "ordering cycle a -> b -> a; ignoring b -> a"⟩

theorem query_pinned : pinnedIndex.query {} = pinnedChoices := by
  rw [Index.query_all_of_perm (l := [(pinnedLib "1").1, (pinnedLib "1").1, (pinnedLib "2").1,
    (pinnedApp "2" "m").1, (pinnedApp "1" "noarch").1, (pinnedApp "1" "noarch").1])
    (by with_unfolding_all decide) (by with_unfolding_all decide) (by with_unfolding_all decide)]
  with_unfolding_all decide

theorem selectAll_pinned :
    (selectAll pinnedIndex {} pinnedGoal.jobs).value = ⟨[pinnedRequest], [], []⟩ := by
  cbv

/-- Where the search for a plan takes place. -/
def pinnedScope : Scope where
  index := pinnedIndex
  policy := {}
  installed := pinnedIndex.installed.map fun _ entry => entry.package
  choices := pinnedChoices

theorem ofIndex_pinned : Scope.ofIndex pinnedIndex {} = pinnedScope := by
  unfold Scope.ofIndex
  rw [query_pinned]
  rfl

theorem solve_pinned :
    (Solver.solve pinnedIndex {} [pinnedRequest]).value = .ok ⟨pinnedChanges, []⟩ := by
  have hends : (pinnedScope.performAll pinnedScope.start [] [pinnedRequest]).value.toOption.map
      (fun found => (pinnedScope.changes found.1, found.2.isEmpty)) = some (pinnedChanges, true) := by
    -- The sorted maps of the model do not unfold by default.
    with_unfolding_all decide
  obtain ⟨⟨m, problems⟩, hm, hfound⟩ := Option.map_eq_some_iff.1 hends
  obtain ⟨hchanges, hproblems⟩ := Prod.mk.inj hfound
  dsimp only at hchanges hproblems
  rw [List.isEmpty_iff] at hproblems
  unfold Solver.solve
  rw [ofIndex_pinned, Traced.value_bind]
  rcases hvalue : (pinnedScope.performAll pinnedScope.start [] [pinnedRequest]).value with e | found
  · rw [hvalue] at hm
    cases hm
  · rw [hvalue] at hm
    cases hm
    rw [← hchanges, hproblems]
    rfl

/-- The changes stand in order already. -/
theorem ofChanges_pinned : Plan.Graph.ofChanges pinnedIndex pinnedChanges =
    ⟨pinnedChanges, [(0, 1), (1, 0), (1, 2)]⟩ := by
  have hedges : Plan.Graph.edgesAmong pinnedIndex pinnedChanges.zipIdx =
      [(0, 1), (1, 0), (1, 2)] := by
    with_unfolding_all decide
  unfold Plan.Graph.ofChanges
  rw [List.mergeSort_of_pairwise (by with_unfolding_all decide), ← hedges]

theorem planChanges_pinned :
    (planChanges pinnedIndex pinnedChanges []).value = .solved pinnedItems [pinnedCircle] := by
  unfold planChanges Plan.ofChanges
  rw [ofChanges_pinned]
  cbv

theorem resolve_pinned :
    (pinnedGoal.resolve pinnedIndex).value = .ok (.solved pinnedItems [pinnedCircle]) := by
  have hselect : (selectAll pinnedIndex pinnedGoal.policy pinnedGoal.jobs).value =
      ⟨[pinnedRequest], [], []⟩ := selectAll_pinned
  have hends : pinnedGoal.SearchEnds pinnedIndex ⟨pinnedChanges, []⟩ := by
    unfold SearchEnds
    rw [hselect]
    exact solve_pinned
  have hproblems : (selectAll pinnedIndex pinnedGoal.policy pinnedGoal.jobs).value.problems = [] := by
    rw [hselect]
  have hplan : (planChanges pinnedIndex (pinnedGoal.toBePlanned pinnedIndex ⟨pinnedChanges, []⟩)
      (selectAll pinnedIndex pinnedGoal.policy pinnedGoal.jobs).value.advisories).value =
        .solved pinnedItems [pinnedCircle] := by
    unfold toBePlanned
    rw [show pinnedGoal.cleaningJobs = [] from rfl, hselect]
    exact planChanges_pinned
  have hfree : ∀ p ∈ Change.takenOff pinnedChanges, p.name ∉ pinnedGoal.policy.protectedNames :=
    fun p _ => List.not_mem_nil
  exact resolve_of_planChanges hends hproblems rfl hfree hplan

theorem pinnedItems_plain : ∀ i ∈ pinnedItems, i.package.IsPlain := by
  intro i hi
  simp only [pinnedItems, List.mem_cons, List.not_mem_nil, or_false] at hi
  rcases hi with rfl | rfl | rfl <;> cbv

/-- The index with the second versions in place of the first. -/
def movedIndex : Index := (pinnedIndex.carryOut pinnedItems).state

theorem installedPackages_pinned :
    pinnedIndex.installedPackages = [(pinnedLib "1").1, (pinnedApp "1" "noarch").1] := by
  with_unfolding_all decide

theorem installedPackages_moved :
    movedIndex.installedPackages = [(pinnedLib "2").1, (pinnedApp "2" "m").1] := by
  with_unfolding_all decide

theorem offeredPackages_moved : movedIndex.offeredPackages = pinnedChoices := by
  with_unfolding_all decide

theorem query_moved : movedIndex.query {} = pinnedChoices := by
  rw [Index.query_all_of_perm (l := [(pinnedLib "1").1, (pinnedLib "2").1, (pinnedLib "2").1,
    (pinnedApp "2" "m").1, (pinnedApp "2" "m").1, (pinnedApp "1" "noarch").1])
    (by with_unfolding_all decide) (by with_unfolding_all decide) (by with_unfolding_all decide)]
  with_unfolding_all decide

theorem metadata_app :
    movedIndex.metadata? (pinnedApp "1" "noarch").1 = some (pinnedApp "1" "noarch").2 := by
  with_unfolding_all decide

theorem metadata_lib : movedIndex.metadata? (pinnedLib "1").1 = some (pinnedLib "1").2 := by
  with_unfolding_all decide

theorem metadata_laterLib : movedIndex.metadata? (pinnedLib "2").1 =
    some { (pinnedLib "2").2 with reason := some .user } := by
  with_unfolding_all decide

/-- Nothing but requirements is stated. -/
theorem plain_moved {p : Package}
    (hp : p ∈ [(pinnedApp "1" "noarch").1, (pinnedLib "1").1, (pinnedLib "2").1])
    {metadata : Metadata} (h : movedIndex.metadata? p = some metadata) :
    metadata.recommends = [] ∧ metadata.conflicts = [] ∧ metadata.obsoletes = [] := by
  simp only [List.mem_cons, List.not_mem_nil, or_false] at hp
  rcases hp with rfl | rfl | rfl
  · cases metadata_app.symm.trans h
    exact ⟨rfl, rfl, rfl⟩
  · cases metadata_lib.symm.trans h
    exact ⟨rfl, rfl, rfl⟩
  · cases metadata_laterLib.symm.trans h
    exact ⟨rfl, rfl, rfl⟩

/-- The library that the application requires. -/
def pin : Requirement := ⟨"a", .bound .equal ⟨0, "1", none⟩⟩

theorem meets_pin : movedIndex.meets (pinnedLib "1").1 pin ∧
    ∀ p ∈ [(pinnedLib "2").1, (pinnedApp "2" "m").1, (pinnedApp "1" "noarch").1],
      movedIndex.meets p pin = false := by
  with_unfolding_all decide

theorem meets_app : movedIndex.meets (pinnedApp "1" "noarch").1 ⟨"b", .any⟩ := by
  with_unfolding_all decide

/-- The application is back. -/
def appBack : Stage := ⟨[(pinnedApp "2" "m").1], [(pinnedApp "1" "noarch").1], false⟩

/-- The library has come along. -/
def libBack (erases : Bool) : Stage :=
  ⟨[(pinnedApp "2" "m").1], [(pinnedApp "1" "noarch").1, (pinnedLib "1").1], erases⟩

theorem world_appBack :
    appBack.world movedIndex = [(pinnedLib "2").1, (pinnedApp "1" "noarch").1] := by
  with_unfolding_all decide

theorem world_libBack (erases : Bool) :
    (libBack erases).world movedIndex = [(pinnedApp "1" "noarch").1, (pinnedLib "1").1] := by
  cases erases <;> with_unfolding_all decide

theorem fetch_app : ({} : Stage).fetch movedIndex (pinnedApp "1" "noarch").1 = appBack := by
  cbv

theorem fetch_lib : appBack.fetch movedIndex (pinnedLib "1").1 = libBack false := by
  unfold Stage.fetch
  rw [world_appBack]
  rfl

theorem not_sound_appBack : ¬ movedIndex.Sound appBack.brought (appBack.world movedIndex) := by
  intro h
  obtain ⟨q, hq, hmeets⟩ := h.requires _ List.mem_cons_self _ metadata_app pin List.mem_cons_self
  rw [world_appBack] at hq
  rw [meets_pin.2 q (by rcases List.mem_pair.1 hq with rfl | rfl <;> decide)] at hmeets
  cases hmeets

theorem plain_appBack {p : Package} (hp : p ∈ appBack.world movedIndex) {metadata : Metadata}
    (h : movedIndex.metadata? p = some metadata) :
    metadata.recommends = [] ∧ metadata.conflicts = [] ∧ metadata.obsoletes = [] := by
  rw [world_appBack] at hp
  refine plain_moved ?_ h
  rcases List.mem_pair.1 hp with rfl | rfl
  · exact List.mem_cons_of_mem _ (List.mem_cons_of_mem _ List.mem_cons_self)
  · exact List.mem_cons_self

theorem lacks_appBack {p : Package} {r : Requirement} (h : appBack.Lacks movedIndex p r) :
    p = (pinnedApp "1" "noarch").1 ∧ r = pin := by
  obtain ⟨hp, ⟨metadata, hmetadata, hr⟩, hunmet, -⟩ := h
  rw [world_appBack] at hp hunmet
  rcases List.mem_pair.1 hp with rfl | rfl
  · cases metadata_laterLib.symm.trans hmetadata
    have hlost := hunmet _ (List.mem_cons_of_mem _ List.mem_cons_self)
    rw [List.mem_singleton.1 hr, meets_app] at hlost
    cases hlost
  · cases metadata_app.symm.trans hmetadata
    exact ⟨rfl, List.mem_singleton.1 hr⟩

theorem not_clashes_appBack (p q : Package) : ¬ appBack.Clashes movedIndex p q := by
  rintro ⟨hp, -, -, -, metadata, hmetadata, c, hc, -⟩
  rw [(plain_appBack hp hmetadata).2.1] at hc
  cases hc

/-- With the application alone, the library is asked for. -/
theorem asks_appBack {st : Stage} (h : appBack.Asks movedIndex {} st) : st = libBack false := by
  have hback {p : Package} {r : Requirement} (h : appBack.NeedsFirst movedIndex p r) :
      p ∈ appBack.brought := by
    rw [(lacks_appBack h.lacks).1]
    exact List.mem_cons_self
  cases h with
  | drop h =>
    cases h with
    | @superseded p _ h =>
      obtain ⟨hp, -, -, metadata, hmetadata, o, ho, -⟩ := h
      rw [(plain_appBack (Index.mem_exchange_iff.2 (.inr hp)) hmetadata).2.2] at ho
      cases ho
    | excluded h => exact absurd h (not_clashes_appBack _ _)
    | along _ _ herases => cases herases
    | helpless h hleft => exact absurd (hback h) hleft
  | @fetch q h =>
    cases h with
    | required h _ hq =>
      have hmeets := hq.meets
      rw [(lacks_appBack h.lacks).2] at hmeets
      have hlib : q = (pinnedLib "1").1 := by
        by_contra hne
        have hknown := hq.choice
        rw [query_moved] at hknown
        rw [meets_pin.2 q (List.mem_of_ne_of_mem hne hknown)] at hmeets
        cases hmeets
      rw [hlib]
      exact fetch_lib
    | upgrade h hleft => exact absurd (hback h) hleft
    | recommended hsound => exact absurd hsound not_sound_appBack

theorem sound_libBack (erases : Bool) :
    movedIndex.Sound (libBack erases).brought ((libBack erases).world movedIndex) := by
  rw [world_libBack]
  have hplain {p : Package} (hp : p ∈ (libBack erases).brought) {metadata : Metadata}
      (h : movedIndex.metadata? p = some metadata) :=
    plain_moved (List.mem_append_left [(pinnedLib "2").1] hp) h
  refine ⟨fun p hp metadata hmetadata r hr => ?_, fun p hp hleft => absurd hp hleft,
    fun p hp q _ _ _ metadata hmetadata c hc => ?_, fun p hp metadata hmetadata o ho => ?_⟩
  · rcases List.mem_pair.1 hp with rfl | rfl
    · cases metadata_app.symm.trans hmetadata
      rw [List.mem_singleton.1 hr]
      exact ⟨_, List.mem_cons_of_mem _ List.mem_cons_self, meets_pin.1⟩
    · cases metadata_lib.symm.trans hmetadata
      rw [List.mem_singleton.1 hr]
      exact ⟨_, List.mem_cons_self, meets_app⟩
  · rw [(hplain hp hmetadata).2.1] at hc
    cases hc
  · rw [(hplain hp hmetadata).2.2] at ho
    cases ho

theorem not_asks_libBack {erases : Bool} {st : Stage} :
    ¬ (libBack erases).Asks movedIndex {} st := by
  refine Stage.not_asks_of_sound (sound_libBack erases) fun p hp metadata hmetadata => ?_
  exact (plain_moved (List.mem_append_left [(pinnedLib "2").1] hp) hmetadata).1

theorem isInstalled_moved {b : Build} (h : movedIndex.isInstalled b) :
    b = (pinnedLib "2").1.build ∨ b = (pinnedApp "2" "m").1.build := by
  obtain ⟨p, hp, rfl⟩ := Index.isInstalled_iff.1 h
  rw [installedPackages_moved] at hp
  rcases List.mem_pair.1 hp with rfl | rfl
  · exact .inl rfl
  · exact .inr rfl

/-- The first job brings the application back, which displaces its second version. -/
theorem stepBack_app {i : Item} (hi : i.package.slot = (pinnedApp "1" "noarch").1.slot) {st : Stage}
    (h : StepBack pinnedIndex movedIndex i {} st) : st = appBack := by
  have hinstalled : pinnedIndex.isInstalled (pinnedApp "1" "noarch").1.build := by
    refine Index.isInstalled_iff.2 ⟨_, ?_, rfl⟩
    rw [installedPackages_pinned]
    exact List.mem_cons_of_mem _ List.mem_cons_self
  have hat : pinnedIndex.buildAt? i.package.slot = some (pinnedApp "1" "noarch").1.build :=
    Index.buildAt?_eq_some_iff.2 ⟨hi.symm, hinstalled⟩
  cases h with
  | takeOff hbefore =>
    rw [hat] at hbefore
    cases hbefore
  | @bringBack _ p hbefore _ hp =>
    rw [hat] at hbefore
    cases hbefore
    have happ : p = (pinnedApp "1" "noarch").1 := by
      obtain ⟨hp, hbuild, -⟩ := hp
      rw [offeredPackages_moved] at hp
      simp only [pinnedChoices, List.mem_cons, List.not_mem_nil, or_false] at hp
      rcases hp with rfl | rfl | rfl | rfl <;> first | rfl | exact absurd hbuild (by decide)
    rw [happ]
    exact fetch_app
  | putAgain hbefore _ _ hsame =>
    rw [hat] at hbefore
    cases hbefore
    rcases isInstalled_moved hsame with h | h <;> exact absurd h (by decide)
  | pass hback => exact absurd nofun hback

/-- The undo starts with the application, and every other step back has been taken by then. -/
theorem retraced_pinned {done : List Item} {st : Stage}
    (h : Retraced pinnedIndex movedIndex {} done st) {rest : List Item}
    (hsplit : pinnedItems.reverse = done ++ rest) :
    (done = [] ∧ st = {}) ∨ st = appBack ∨ ∃ erases, st = libBack erases := by
  induction h generalizing rest with
  | start => exact .inl ⟨rfl, rfl⟩
  | @back done i st st' h hsound hback ih =>
    rw [List.append_assoc] at hsplit
    rcases ih hsplit with ⟨rfl, rfl⟩ | rfl | ⟨erases, rfl⟩
    · refine .inr (.inl (stepBack_app ?_ hback))
      rw [← (List.cons.inj hsplit).1]
    · exact absurd hsound not_sound_appBack
    · have hi : i ∈ pinnedItems := by
        rw [← List.mem_reverse, hsplit]
        exact List.mem_append_right done List.mem_cons_self
      have hclosed : ∀ i ∈ pinnedItems, ¬ (libBack erases).IsOpen i.package.slot := by
        cases erases <;> decide
      cases hback with
      | takeOff _ hopen => exact absurd hopen (hclosed i hi)
      | bringBack _ hopen => exact absurd hopen (hclosed i hi)
      | putAgain _ hopen => exact absurd hopen (hclosed i hi)
      | pass => exact .inr (.inr ⟨_, rfl⟩)
  | asks _ hasks ih =>
    rcases ih hsplit with ⟨rfl, rfl⟩ | rfl | ⟨erases, rfl⟩
    · exact absurd hasks (Stage.not_asks_of_sound (Stage.sound_start movedIndex) nofun)
    · exact .inr (.inr ⟨false, asks_appBack hasks⟩)
    · exact absurd hasks not_asks_libBack

theorem homeward_libBack (done : List Item) (erases : Bool) :
    Homeward pinnedIndex movedIndex pinnedItems done (libBack erases) := by
  have hinstalled {p : Package} (hp : p ∈ (libBack erases).brought) :
      pinnedIndex.isInstalled p.build := by
    refine Index.isInstalled_iff.2 ⟨p, ?_, rfl⟩
    rw [installedPackages_pinned]
    rcases List.mem_pair.1 hp with rfl | rfl
    · exact List.mem_cons_of_mem _ List.mem_cons_self
    · exact List.mem_cons_self
  refine ⟨fun p hp => ?_, fun p hp => ⟨hinstalled hp, ?_⟩, by cases erases <;> decide⟩
  · rw [List.mem_singleton.1 hp]
    exact ⟨_, List.mem_cons_of_mem _ List.mem_cons_self, rfl, rfl⟩
  · rcases List.mem_pair.1 hp with rfl | rfl
    · refine ⟨_, List.mem_cons_of_mem _ (List.mem_cons_of_mem _ List.mem_cons_self), rfl, fun h => ?_⟩
      rcases isInstalled_moved h with h | h <;> exact absurd h (by decide)
    · refine ⟨_, List.mem_cons_self, rfl, fun h => ?_⟩
      rcases isInstalled_moved h with h | h <;> exact absurd h (by decide)

theorem retraceable_pinned : Retraceable pinnedIndex movedIndex {} pinnedItems := by
  refine ⟨fun done rest st hsplit hst => ?_, fun done rest st hsplit hst => ?_, fun i _ _ => ?_,
    fun i hi haction => ?_⟩
  · have hless {st' : Stage} (htaken : st'.taken ⊆ (libBack false).taken)
        (hbrought : st'.brought.Sublist (libBack false).brought) :
        Homeward pinnedIndex movedIndex pinnedItems done st' :=
      (homeward_libBack done false).of_sublist htaken hbrought
    rcases retraced_pinned hst hsplit with ⟨-, rfl⟩ | rfl | ⟨erases, rfl⟩
    · exact hless nofun (List.nil_sublist _)
    · exact hless (fun _ hp => hp) (List.sublist_append_left _ [(pinnedLib "1").1])
    · exact homeward_libBack done erases
  · rcases retraced_pinned hst hsplit with ⟨-, rfl⟩ | rfl | ⟨erases, rfl⟩
    · exact Stage.tractable_of_sound (Stage.sound_start movedIndex)
    · refine ⟨fun p q h => absurd h (not_clashes_appBack p q), fun p r h => .inl ?_⟩
      rw [(lacks_appBack h.lacks).2]
      refine ⟨_, ?_, meets_pin.1, .inl (by decide)⟩
      rw [query_moved]
      exact List.mem_cons_self
    · exact Stage.tractable_of_sound (sound_libBack erases)
  · exact List.not_mem_nil
  · simp only [pinnedItems, List.mem_cons, List.not_mem_nil, or_false] at hi
    rcases hi with rfl | rfl | rfl <;> cases haction

theorem providesAgree_moved : movedIndex.ProvidesAgree := by
  refine Index.providesAgree_of_copies ?_ (by with_unfolding_all decide)
  unfold Index.OffersKeyed
  with_unfolding_all decide

theorem offers_pinned {p : Package} (hp : p ∈ pinnedIndex.installedPackages) :
    ∃ q, movedIndex.Offers p.build q := by
  have hvisible : movedIndex.excludes = [] := by with_unfolding_all decide
  refine ⟨p, ?_, rfl, ?_⟩
  · rw [installedPackages_pinned] at hp
    rw [offeredPackages_moved]
    rcases List.mem_pair.1 hp with rfl | rfl <;> decide
  · unfold Index.isExcluded
    rw [hvisible]
    rfl

/-- The application goes back to its first version, and the library with it. -/
theorem roundTrip_pinned :
    ∃ undo items' advisories,
      (invert (pinnedIndex.firstRecord pinnedItems) movedIndex {}).value = .ok undo ∧
      undo.Solvable movedIndex ∧
      (undo.resolve movedIndex).value = .ok (.solved items' advisories) ∧
      ∀ ix'' record', RunsTo items' movedIndex ix'' record' →
        record'.state = .done ∧ pinnedIndex.Restores ix'' := by
  have hround := (roundTrip_of_resolve resolve_pinned pinnedItems_plain
    (runsTo_carryOut pinnedIndex pinnedItems)).1
  obtain ⟨undo, items', advisories, hundo, hresolve, hrestores⟩ :=
    hround.restores (fun p hp _ => offers_pinned hp) retraceable_pinned
  exact ⟨undo, items', advisories, hundo,
    (hround.solvable providesAgree_moved undo hundo).1 ⟨items', advisories, hresolve⟩, hresolve,
    hrestores⟩

/-! ## Where undoing goes wrong -/

/--
What one could hope for: if all that the plan of the goal has taken off or replaced is on offer, then
the record of the plan can be undone, and this restores what was installed.
-/
def UndoRestores (g : Goal) (ix : Index) : Prop :=
  ∀ items advisories ix' record, (g.resolve ix).value = .ok (.solved items advisories) →
    RunsTo items ix ix' record →
    (∀ p ∈ ix.installedPackages, Item.Touch items p.slot → ∃ q, ix'.Offers p.build q) →
    ∃ undo items' advisories', (invert record ix' g.policy).value = .ok undo ∧
      (undo.resolve ix').value = .ok (.solved items' advisories') ∧
      ∀ ix'' record', RunsTo items' ix' ix'' record' → ix.Restores ix''

/-- The items of the plan, if there is one. -/
def plan? (g : Goal) (ix : Index) : Option (List Item) :=
  match (g.resolve ix).value with
  | .ok (.solved items _) => some items
  | _ => none

theorem plan?_eq_some {g : Goal} {ix : Index} {items : List Item} (h : g.plan? ix = some items) :
    ∃ advisories, (g.resolve ix).value = .ok (.solved items advisories) := by
  unfold plan? at h
  split at h
  · rename_i advisories hresolve
    cases h
    exact ⟨advisories, hresolve⟩
  · cases h

/-- Whether everything that is installed is on offer on the second index. -/
def allOffered (ix ix' : Index) : Bool :=
  ix.installedPackages.all fun p =>
    ix'.offeredPackages.any fun q => q.build = p.build && !ix'.isExcluded p.build

/--
Whether the goal has a plan that cannot be undone, or a plan after whose undoing it has changed
whether the build is installed, with all that was installed on offer.
-/
def undoMisses (g : Goal) (ix : Index) (b : Build) : Bool :=
  match g.plan? ix with
  | none => false
  | some items =>
    let ix' := (ix.carryOut items).state
    allOffered ix ix' &&
      match (invert (ix.firstRecord items) ix' g.policy).value with
      | .error _ => true
      | .ok undo =>
        match undo.plan? ix' with
        | none => true
        | some items' => (ix'.carryOut items').state.isInstalled b != ix.isInstalled b

theorem not_undoRestores {b : Build} (h : g.undoMisses ix b) : ¬ g.UndoRestores ix := by
  intro hrestores
  unfold undoMisses at h
  split at h
  · cases h
  rename_i items hplan
  obtain ⟨advisories, hresolve⟩ := plan?_eq_some hplan
  dsimp only at h
  rw [Bool.and_eq_true] at h
  obtain ⟨hall, hmiss⟩ := h
  obtain ⟨undo, items', advisories', hundo, hresolve', hagain⟩ :=
    hrestores items advisories _ _ hresolve (runsTo_carryOut ix items) fun p hp _ => by
      obtain ⟨q, hq, hsame⟩ := List.any_eq_true.1 (List.all_eq_true.1 hall p hp)
      rw [Bool.and_eq_true, decide_eq_true_eq, Bool.not_eq_true'] at hsame
      exact ⟨q, hq, hsame.1, hsame.2⟩
  have hplan' : undo.plan? (ix.carryOut items).state = some items' := by
    unfold plan?
    rw [hresolve']
  rw [hundo] at hmiss
  dsimp only at hmiss
  rw [hplan'] at hmiss
  refine (bne_iff_ne.1 hmiss) (Bool.eq_iff_iff.2 ?_)
  exact hagain _ _ (runsTo_carryOut _ items') b

def removeApp : Goal := ⟨[⟨.remove, .pattern "app", {}⟩], {}⟩

/-- What was installed must not be taken off again. -/
def installProtected : Goal := ⟨[⟨.install, .pattern "app", {}⟩], { protectedNames := ["app"] }⟩

def forArch (arch : String) : Package := ⟨⟨"app", arch, ⟨0, "1", none⟩⟩, "base", none⟩

/-- The application requires a library that is neither installed nor on offer. -/
def requiring : Index := stocked [(forArch "x", { requires := [⟨"lib", .any⟩] })] []

/-- Put back, the application obsoletes the library. -/
def obsoleting : Index :=
  stocked [(samplePackage "app" "base", { obsoletes := [⟨"lib", .any⟩] }),
    (samplePackage "lib" "base", {})] []

/-- Put back, the application recommends the library, which was not installed. -/
def recommending : Index :=
  stocked [(samplePackage "app" "base", { recommends := [⟨"lib", .any⟩] })]
    [(samplePackage "lib" "base", {})]

/-- The name of the package is a pattern that does not select it. -/
def bracketed : Package := samplePackage "a[b]" "base"

/-- Put in place once more for one of the two architectures that it is installed for. -/
def reinstallOne : Goal := ⟨[⟨.install, .exactly [forArch "x"], { force := true }⟩], {}⟩

/-- That everything is on offer does not mean that a plan can be undone. -/
theorem undo_may_fail :
    ¬ installProtected.UndoRestores (stocked [] [(samplePackage "app" "base", {})]) ∧
    ¬ removeApp.UndoRestores requiring ∧
    ¬ removeApp.UndoRestores obsoleting ∧
    ¬ removeApp.UndoRestores recommending ∧
    ¬ UndoRestores ⟨[⟨.remove, .exactly [bracketed], {}⟩], {}⟩ (stocked [(bracketed, {})] []) ∧
    ¬ reinstallOne.UndoRestores (stocked [(forArch "x", {}), (forArch "y", {})] []) := by
  refine ⟨?_, ?_, ?_, ?_, ?_, ?_⟩
  · exact not_undoRestores (b := (samplePackage "app" "base").build) (by cbv)
  · exact not_undoRestores (b := (forArch "x").build) (by cbv)
  · exact not_undoRestores (b := (samplePackage "lib" "base").build) (by cbv)
  · exact not_undoRestores (b := (samplePackage "lib" "base").build) (by cbv)
  · exact not_undoRestores (b := bracketed.build) (by cbv)
  · exact not_undoRestores (b := (forArch "x").build) (by cbv)

end Goal

end Provision
