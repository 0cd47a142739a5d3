import Mathlib
import Provision.Proofs.Execution
import Provision.Session

/-!
# Interleaved sessions

Several processes share a universe, a history and a lock. Each of them opens a session once, plans
transactions, starts and runs them one at a time, and saves what came of them (`Process.Step`).
Their steps alternate in any way that the lock admits (`Interleaving`).

1. What a step of a session comes to is said once for each kind of step (`openOn_eq_ok`,
   `resolve_eq_ok`, `start_eq_ok`, `run_value`).
2. A step leaves all other processes alone (`Interleaving.process_eq`), and only saving changes the
   document of the universe (`Interleaving.document_eq`).
3. What holds of a process after some steps and is kept by each further step holds to the end
   (`Interleaving.invariant`).
-/

namespace Provision

/-! ## Steps of a session -/

namespace Session

variable {s s' : Session} {shared shared' : Shared}

/-- The index that a document describes; without one it is empty. -/
def indexOf : Option String → Except Universe.Error Index
  | none => .ok {}
  | some text => Index.ofDocument text

theorem loadIndex_value (place : String) (document : Option String) :
    (loadIndex place document).value = (indexOf document).mapError (.unreadable place) := by
  unfold loadIndex indexOf
  cases document with
  | none => rfl
  | some text =>
    dsimp only
    cases Index.ofDocument text <;> rfl

/-- A session that opens starts from the universe and the history as they are. -/
theorem openOn_eq_ok {settings : Settings} (h : (openOn settings shared).value = .ok (s, shared')) :
    ∃ ix excludes, indexOf shared.document = .ok ix ∧ s.index = ix.withExcludes excludes ∧
      s.ids = countFrom (store shared) ∧
      shared' = { shared with history := some (store shared) } := by
  unfold openOn at h
  rw [Traced.value_bind, loadIndex_value] at h
  cases hindex : indexOf shared.document with
  | error e =>
    rw [hindex] at h
    cases h
  | ok ix =>
    rw [hindex] at h
    dsimp only [Except.mapError] at h
    unfold Index.setExcludes at h
    cases hfirst : ExcludeError.first? settings.excludes with
    | some e =>
      rw [hfirst] at h
      cases h
    | none =>
      rw [hfirst] at h
      cases h
      exact ⟨ix, _, rfl, rfl, rfl, rfl⟩

/-- A plan becomes a transaction that takes the next number. -/
theorem resolve_eq_ok {g : Goal} {r : Resolution} {t : Transaction}
    (h : (s.resolve g).value = .ok (r, some t, s')) :
    t.id = s.ids.next ∧ s' = { s with ids := s.ids.take.2 } := by
  unfold resolve at h
  rw [Traced.value_bind] at h
  split at h
  · cases h
  · rename_i found _
    cases found <;> cases h
    exact ⟨rfl, rfl⟩

/-- A transaction starts only while nobody holds the lock. -/
theorem start_eq_ok {t : Transaction} {pid : Nat} {now : Int} {e : Execution}
    (h : (s.start shared t pid now).value = .ok (e, shared')) :
    shared.lock.isHeld = false ∧ e.transaction = { t with state := .inProgress } ∧
      shared' = { shared with lock := ⟨some pid⟩ } := by
  unfold start Execution.start Lock.acquire at h
  rw [Traced.value_bind] at h
  split at h
  · rename_i hstart
    cases h
  · rename_i hstart
    split at hstart
    · cases hstart
    · rw [Traced.value_bind] at hstart
      cases hheld : shared.lock.isHeld with
      | true =>
        rw [hheld] at hstart
        cases hstart
      | false =>
        rw [hheld] at hstart
        cases hstart
        cases h
        exact ⟨rfl, rfl, rfl⟩

variable {e : Execution} {watch : Update → Traced Unit} {now : Int} {r : Report Index}

/-- A run leaves its outcome in the session, and its record in the history. -/
theorem run_value (h : (s.run shared e watch now).value = (r, s', shared')) :
    s' = { s with index := r.outcome.state } ∧ r.record.id = e.transaction.id ∧
      r.outcome = (Index.installer.applyAll watch e.transaction.items.length 0 s.index
        e.transaction.items).value ∧
      shared' = { shared with history := some r.store, lock := {} } := by
  cases h
  have hrun : (e.run Index.installer s.index watch (store shared) now).value = _ := rfl
  obtain ⟨houtcome, hrecord, -⟩ := Execution.run_value hrun
  exact ⟨rfl, congrArg History.Record.id hrecord, houtcome, rfl⟩

/-- The record is accepted unless the number of the transaction is taken. -/
theorem run_history (h : (s.run shared e watch now).value = (r, s', shared')) :
    History.signed r.record.id ∈ (store shared).rows ∧
        r.historyError = some (.alreadyRecorded r.record.id) ∧ r.store = store shared ∨
      History.signed r.record.id ∉ (store shared).rows ∧ r.historyError = none ∧
        (store shared).Adds (History.signed r.record.id) (.ofRecord r.record)
          (r.record.items.map .ofItem) r.store := by
  cases h
  have hrun : (e.run Index.installer s.index watch (store shared) now).value = _ := rfl
  obtain ⟨-, hrecord, -, hkept⟩ := Execution.run_value hrun
  refine Execution.keepRecord_value ?_ hkept.symm
  rw [hrecord]
  exact Execution.isFinal_recordOf _ _ _

end Session

/-! ## Processes -/

/--
A process: its session once it has opened one, the transactions that it has planned and not started,
and the execution that is under way.
-/
structure Process where
  session : Option Session := none
  planned : List Transaction := []
  running : Option Execution := none

/-- A step of a process, with what it is about. -/
inductive Act
  | opened
  | planned (t : Transaction)
  | started (t : Transaction)
  | ran (r : Report Index)
  | saved

/-- What a process and the shared places are after a step of the process. -/
inductive Process.Step (p : Process) (shared : Shared) : Act → Process → Shared → Prop
  | opened {settings : Settings} {s : Session} {shared' : Shared} (hfresh : p = {})
      (hopen : (Session.openOn settings shared).value = .ok (s, shared')) :
      Step p shared .opened { session := some s } shared'
  | planned {s s' : Session} {g : Goal} {r : Resolution} {t : Transaction}
      (hsession : p.session = some s) (hresolve : (s.resolve g).value = .ok (r, some t, s')) :
      Step p shared (.planned t) { p with session := some s', planned := t :: p.planned } shared
  | started {s : Session} {t : Transaction} {pid : Nat} {now : Int} {e : Execution}
      {shared' : Shared} (hsession : p.session = some s) (hidle : p.running = none)
      (hplanned : t ∈ p.planned) (hstart : (s.start shared t pid now).value = .ok (e, shared')) :
      Step p shared (.started t) { p with planned := p.planned.erase t, running := some e } shared'
  | ran {s s' : Session} {e : Execution} {watch : Update → Traced Unit} {now : Int}
      {r : Report Index} {shared' : Shared} (hsession : p.session = some s)
      (hrunning : p.running = some e)
      (hrun : (s.run shared e watch now).value = (r, s', shared')) :
      Step p shared (.ran r) { p with session := some s', running := none } shared'
  | saved {s : Session} (hsession : p.session = some s) :
      Step p shared .saved p (s.save shared).value

/-- The shared places and the processes, named by `ι`. -/
structure Host (ι : Type) where
  shared : Shared
  process : ι → Process

variable {ι : Type} [DecidableEq ι]

/-- The host after a step of one of its processes. -/
def Host.after (h : Host ι) (i : ι) (p : Process) (shared : Shared) : Host ι :=
  ⟨shared, Function.update h.process i p⟩

/-- The second host is what the steps, each of one process, make of the first. -/
inductive Interleaving : Host ι → List (ι × Act) → Host ι → Prop
  | refl (h : Host ι) : Interleaving h [] h
  | step {h h' : Host ι} {i : ι} {a : Act} {p : Process} {shared : Shared}
      {acts : List (ι × Act)} (hown : (h.process i).Step h.shared a p shared)
      (hrest : Interleaving (h.after i p shared) acts h') : Interleaving h ((i, a) :: acts) h'

/-- The steps of one process. -/
def ownActs (i : ι) (acts : List (ι × Act)) : List Act :=
  acts.filterMap fun act => if act.1 = i then some act.2 else none

section OwnActs

variable {i j : ι} {acts : List (ι × Act)} {a : Act}

theorem ownActs_append (i : ι) (before after : List (ι × Act)) :
    ownActs i (before ++ after) = ownActs i before ++ ownActs i after := List.filterMap_append

theorem ownActs_cons_self : ownActs i ((i, a) :: acts) = a :: ownActs i acts := by
  unfold ownActs
  rw [List.filterMap_cons, if_pos rfl]

theorem ownActs_cons_of_ne (hne : j ≠ i) : ownActs i ((j, a) :: acts) = ownActs i acts := by
  unfold ownActs
  rw [List.filterMap_cons, if_neg hne]

theorem ownActs_concat_self : ownActs i (acts ++ [(i, a)]) = ownActs i acts ++ [a] := by
  rw [ownActs_append, ownActs_cons_self]
  rfl

theorem ownActs_concat_of_ne (hne : j ≠ i) : ownActs i (acts ++ [(j, a)]) = ownActs i acts := by
  rw [ownActs_append, ownActs_cons_of_ne hne]
  exact List.append_nil _

theorem mem_ownActs_iff : a ∈ ownActs i acts ↔ (i, a) ∈ acts := by
  unfold ownActs
  rw [List.mem_filterMap]
  constructor
  · rintro ⟨⟨j, b⟩, hmem, hown⟩
    obtain ⟨rfl, hsome⟩ := Option.ite_none_right_eq_some.1 hown
    cases hsome
    exact hmem
  · intro hmem
    exact ⟨(i, a), hmem, if_pos rfl⟩

theorem ownActs_eq_cons {rest : List Act} (h : ownActs i acts = a :: rest) :
    ∃ before after, acts = before ++ (i, a) :: after ∧ ownActs i before = [] ∧
      ownActs i after = rest := by
  unfold ownActs at h
  obtain ⟨before, ⟨j, b⟩, after, rfl, hbefore, hown, hafter⟩ := List.filterMap_eq_cons_iff.1 h
  obtain ⟨rfl, hsome⟩ := Option.ite_none_right_eq_some.1 hown
  cases hsome
  exact ⟨before, after, rfl, List.filterMap_eq_nil_iff.2 hbefore, hafter⟩

end OwnActs

@[simp] theorem Host.process_after_self (h : Host ι) (i : ι) (p : Process) (shared : Shared) :
    (h.after i p shared).process i = p := by
  unfold Host.after
  dsimp only
  rw [Function.update_self]

theorem Host.process_after_of_ne (h : Host ι) {i j : ι} (hne : j ≠ i) (p : Process)
    (shared : Shared) : (h.after i p shared).process j = h.process j := by
  unfold Host.after
  dsimp only
  rw [Function.update_of_ne hne]

/-- Only saving changes the document. -/
theorem Process.Step.document_eq {p p' : Process} {shared shared' : Shared} {a : Act}
    (h : p.Step shared a p' shared') (hsaved : a ≠ .saved) :
    shared'.document = shared.document := by
  cases h with
  | opened _ hopen =>
    obtain ⟨_, _, -, -, -, rfl⟩ := Session.openOn_eq_ok hopen
    rfl
  | planned => rfl
  | started _ _ _ hstart =>
    obtain ⟨-, -, rfl⟩ := Session.start_eq_ok hstart
    rfl
  | ran _ _ hrun =>
    obtain ⟨-, -, -, rfl⟩ := Session.run_value hrun
    rfl
  | saved => exact absurd rfl hsaved

namespace Interleaving

variable {h h' m : Host ι} {acts before after : List (ι × Act)} {i : ι}

/-- What holds at first and is kept by each step holds to the end. -/
theorem invariant {P : List (ι × Act) → Host ι → Prop}
    (hstep : ∀ done (h : Host ι) i a p shared, (h.process i).Step h.shared a p shared → P done h →
      P (done ++ [(i, a)]) (h.after i p shared))
    (hacts : Interleaving h acts h') {done : List (ι × Act)} (hP : P done h) :
    P (done ++ acts) h' := by
  induction hacts generalizing done with
  | refl h =>
    rw [List.append_nil]
    exact hP
  | step hown _ ih =>
    rw [List.append_cons]
    exact ih (hstep _ _ _ _ _ _ hown hP)

theorem split (hacts : Interleaving h (before ++ after) h') :
    ∃ m, Interleaving h before m ∧ Interleaving m after h' := by
  induction before generalizing h with
  | nil => exact ⟨h, .refl h, hacts⟩
  | cons act rest ih =>
    cases hacts with
    | step hown hrest =>
      obtain ⟨m, hfirst, hsecond⟩ := ih hrest
      exact ⟨m, .step hown hfirst, hsecond⟩

theorem process_eq (hacts : Interleaving h acts h') (hown : ownActs i acts = []) :
    h'.process i = h.process i := by
  induction hacts with
  | refl h => rfl
  | @step h h' j a p shared acts _ _ ih =>
    by_cases hne : j = i
    · subst hne
      rw [ownActs_cons_self] at hown
      cases hown
    · rw [ownActs_cons_of_ne hne] at hown
      rw [ih hown, Host.process_after_of_ne _ (Ne.symm hne)]

/-- The next step of a process finds it as it was. -/
theorem next_own {a : Act} {rest : List Act} (hacts : Interleaving h acts h')
    (hown : ownActs i acts = a :: rest) :
    ∃ before after m p shared, acts = before ++ (i, a) :: after ∧ ownActs i before = [] ∧
      Interleaving h before m ∧ (h.process i).Step m.shared a p shared ∧
      Interleaving (m.after i p shared) after h' ∧ ownActs i after = rest := by
  obtain ⟨before, after, rfl, hbefore, hafter⟩ := ownActs_eq_cons hown
  obtain ⟨m, hfirst, hsecond⟩ := hacts.split
  cases hsecond with
  | step hstep hrest =>
    rw [hfirst.process_eq hbefore] at hstep
    exact ⟨before, after, m, _, _, rfl, hbefore, hfirst, hstep, hrest, hafter⟩

theorem document_eq (hacts : Interleaving h acts h') (hsaved : ∀ act ∈ acts, act.2 ≠ .saved) :
    h'.shared.document = h.shared.document := by
  induction hacts with
  | refl h => rfl
  | step hown _ ih =>
    exact (ih fun act hact => hsaved act (List.mem_cons_of_mem _ hact)).trans
      (hown.document_eq (hsaved _ List.mem_cons_self))

theorem document_unsaved (hacts : Interleaving h acts h') (hsaved : ∀ i, (i, .saved) ∉ acts) :
    h'.shared.document = h.shared.document := by
  refine hacts.document_eq ?_
  rintro ⟨i, a⟩ hmem rfl
  exact hsaved i hmem

end Interleaving

/-! ## Two packages on offer -/

def offerDocument : String :=
  "[[available]]\nnevra = \"a-1-1.x\"\n\n[[available]]\nnevra = \"b-1-1.x\"\n"

def offerName : Bool → String
  | false => "a"
  | true => "b"

def offerPackage (b : Bool) : Package :=
  ⟨⟨offerName b, "x", ⟨0, "1", some "1"⟩⟩, availableRepo, none⟩

def offerUniverse : Universe := ⟨[], [{ nevra := "a-1-1.x" }, { nevra := "b-1-1.x" }]⟩

def offerIndex : Index :=
  (({} : Index).addOffered (offerPackage false) {}).addOffered (offerPackage true) {}

theorem ofDocument_offers : Index.ofDocument offerDocument = .ok offerIndex := by
  have hdocument : Universe.ofToml offerDocument = .ok offerUniverse := by decide +kernel
  have hfalse : UniverseEntry.package { nevra := "a-1-1.x" } availableRepo =
      .ok (offerPackage false) := by decide +kernel
  have htrue : UniverseEntry.package { nevra := "b-1-1.x" } availableRepo =
      .ok (offerPackage true) := by decide +kernel
  have huniverse : Index.ofUniverse offerUniverse = .ok offerIndex := by
    unfold Index.ofUniverse offerUniverse
    simp only [List.foldlM, hfalse, htrue]
    rfl
  unfold Index.ofDocument
  rw [hdocument]
  exact congrArg (Except.mapError Universe.Error.entry) huniverse

/-- The installation of one of the packages. -/
def offerGoal (b : Bool) : Goal := ⟨[⟨.install, .pattern (offerName b), {}⟩], {}⟩

def offerItem (b : Bool) : Item where
  package := offerPackage b
  action := .install
  reason := .user
  position := 0

theorem resolve_offer (b : Bool) :
    ((offerGoal b).resolve offerIndex).value = .ok (.solved [offerItem b] []) := by
  cases b <;> cbv

def offerSession (ids : Counter) : Session := ⟨{}, offerIndex, ids⟩

def offerTransaction (b : Bool) (id : Nat) : Transaction := ⟨id, .created, [offerItem b]⟩

def offerExecution (b : Bool) (id : Nat) : Execution := ⟨⟨id, .inProgress, [offerItem b]⟩, 0⟩

/-- What the execution comes to, with the history as it is then. -/
def offerReport (b : Bool) (id : Nat) (store : History.Store) : Report Index :=
  ((offerExecution b id).run Index.installer offerIndex Update.ignore store 0).value

theorem countFrom_empty : Session.countFrom {} = {} := by
  have hlast : ({} : History.Store).lastId = none := by
    unfold History.Store.lastId
    rw [Std.TreeMap.maxKey?_emptyc]
    rfl
  unfold Session.countFrom
  rw [hlast]

section OfferSteps

variable {document : Option String} {history : Option History.Store} {lock : Lock} {ids : Counter}
  {planned : List Transaction} {running : Option Execution} {b : Bool} {id : Nat}

theorem Process.Step.open_offers {store : History.Store} (hstore : history.getD {} = store)
    (hids : Session.countFrom store = ids) :
    Step {} ⟨some offerDocument, history, lock⟩ .opened ⟨some (offerSession ids), [], none⟩
      ⟨some offerDocument, some store, lock⟩ := by
  subst hids hstore
  have hopen : (Session.openOn {} ⟨some offerDocument, history, lock⟩).value = .ok
      (offerSession (Session.countFrom (history.getD {})),
        ⟨some offerDocument, some (history.getD {}), lock⟩) := by
    unfold Session.openOn
    rw [Traced.value_bind, Session.loadIndex_value]
    unfold Session.indexOf
    dsimp only
    rw [ofDocument_offers]
    rfl
  exact .opened rfl hopen

theorem Process.Step.plan_offer (hid : ids.next = id) {shared : Shared} :
    Step ⟨some (offerSession ids), planned, running⟩ shared (.planned (offerTransaction b id))
      ⟨some (offerSession ids.take.2), offerTransaction b id :: planned, running⟩ shared := by
  subst hid
  have hresolve : ((offerSession ids).resolve (offerGoal b)).value = .ok
      (.solved [offerItem b] [], some (offerTransaction b ids.next), offerSession ids.take.2) := by
    unfold Session.resolve
    rw [Traced.value_bind, show (offerSession ids).index = offerIndex from rfl, resolve_offer]
    rfl
  exact .planned rfl hresolve

theorem Process.Step.start_offer :
    Step ⟨some (offerSession ids), [offerTransaction b id], none⟩ ⟨document, history, {}⟩
      (.started (offerTransaction b id))
      ⟨some (offerSession ids), [], some (offerExecution b id)⟩ ⟨document, history, ⟨some 0⟩⟩ := by
  have hstart : ((offerSession ids).start ⟨document, history, {}⟩ (offerTransaction b id) 0
      0).value = .ok (offerExecution b id, ⟨document, history, ⟨some 0⟩⟩) := rfl
  have hstep : Step ⟨some (offerSession ids), [offerTransaction b id], none⟩
      ⟨document, history, {}⟩ (.started (offerTransaction b id)) _ _ :=
    .started rfl rfl List.mem_cons_self hstart
  rw [List.erase_cons_head] at hstep
  exact hstep

theorem Process.Step.run_offer {store : History.Store} :
    Step ⟨some (offerSession ids), planned, some (offerExecution b id)⟩
      ⟨document, some store, lock⟩ (.ran (offerReport b id store))
      ⟨some ⟨{}, (offerReport b id store).outcome.state, ids⟩, planned, none⟩
      ⟨document, some (offerReport b id store).store, {}⟩ := by
  have hrun : ((offerSession ids).run ⟨document, some store, lock⟩ (offerExecution b id)
      Update.ignore 0).value =
        (offerReport b id store, ⟨{}, (offerReport b id store).outcome.state, ids⟩,
          ⟨document, some (offerReport b id store).store, {}⟩) := rfl
  exact .ran rfl rfl hrun

end OfferSteps

/-- A host with two processes. -/
def Host.pair (shared : Shared) (p q : Process) : Host Bool :=
  ⟨shared, fun b => bif b then q else p⟩

section Pair

variable {shared shared' : Shared} {p p' q q' : Process} {a : Act} {acts : List (Bool × Act)}
  {h : Host Bool}

theorem Interleaving.first (hstep : p.Step shared a p' shared')
    (hrest : Interleaving (.pair shared' p' q) acts h) :
    Interleaving (.pair shared p q) ((false, a) :: acts) h := by
  refine .step hstep ?_
  have hafter : (Host.pair shared p q).after false p' shared' = .pair shared' p' q := by
    unfold Host.after Host.pair
    congr 1
    funext b
    cases b <;> rfl
  rw [hafter]
  exact hrest

theorem Interleaving.second (hstep : q.Step shared a q' shared')
    (hrest : Interleaving (.pair shared' p q') acts h) :
    Interleaving (.pair shared p q) ((true, a) :: acts) h := by
  refine .step hstep ?_
  have hafter : (Host.pair shared p q).after true q' shared' = .pair shared' p q' := by
    unfold Host.after Host.pair
    congr 1
    funext b
    cases b <;> rfl
  rw [hafter]
  exact hrest

end Pair

/-- Two processes that have not opened, on a host where nothing is installed. -/
def offerHost : Host Bool := .pair { document := some offerDocument } {} {}

end Provision
