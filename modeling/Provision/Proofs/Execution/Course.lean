import Mathlib.Data.List.Basic
import Provision.Proofs.Execution

/-!
# The course of an execution

An installer is given items one after the other, each in the state that the one before has left,
until it fails at one (`Installer.Course`). Every list of items takes one such course
(`exists_course`), and all that an execution reports is told by it: the items of the record
(`Course.applyAll_value`), the calls of the installer (`Course.recording`) and the shares that are
reported on the way, which rise from share to share and come to 100 percent just when nothing is left
(`percent_getLast?_progress`). Whether the record can be kept makes no difference to any of this
(`run_account`).
-/

namespace Provision

open History (RecordItem)

/-! ## Shares -/

theorem percent_le_percent {done done' : Nat} (total : Nat) (h : done ≤ done') :
    percent done total ≤ percent done' total := by
  unfold percent
  split
  · exact Nat.le_refl _
  · exact Nat.div_le_div_right (Nat.mul_le_mul_right 100 h)

theorem percent_le_hundred {done total : Nat} (h : done ≤ total) : percent done total ≤ 100 := by
  unfold percent
  split
  · exact Nat.le_refl _
  · exact Nat.div_le_of_le_mul (by omega)

theorem percent_eq_hundred_iff {done total : Nat} (h : done ≤ total) (htotal : total ≠ 0) :
    percent done total = 100 ↔ done = total := by
  unfold percent
  rw [if_neg htotal]
  constructor
  · intro hpercent
    have := Nat.div_mul_le_self (done * 100) total
    rw [hpercent] at this
    omega
  · rintro rfl
    exact Nat.mul_div_cancel_left 100 (by omega)

/-! ## Courses -/

namespace Installer

variable {σ : Type} {installer : Installer σ} {state last : σ} {applied left : List Item}
  {fault? : Option Fault}

/--
In the state the installer carries out the items `applied`, and then nothing is left, or it fails at
the first item that is left. It is in the state `last` then.
-/
inductive Course (installer : Installer σ) :
    σ → List Item → List Item → Option Fault → σ → Prop
  | finished (state : σ) : Course installer state [] [] none state
  | stopped {state last : σ} {i : Item} {fault : Fault} (later : List Item)
      (h : (installer.apply state i).value = (last, .error fault)) :
      Course installer state [] (i :: later) (some fault) last
  | applied {state next last : σ} {i : Item} {applied left : List Item} {fault? : Option Fault}
      (h : (installer.apply state i).value = (next, .ok ()))
      (hrest : Course installer next applied left fault? last) :
      Course installer state (i :: applied) left fault? last

/-- By induction on the items: the answer to the first one decides whether there is a second. -/
theorem exists_course (installer : Installer σ) (state : σ) (items : List Item) :
    ∃ applied left fault? last, items = applied ++ left ∧
      installer.Course state applied left fault? last := by
  induction items generalizing state with
  | nil => exact ⟨[], [], none, state, rfl, .finished state⟩
  | cons i rest ih =>
    obtain ⟨⟨next, answer⟩, hanswer⟩ : ∃ answer, (installer.apply state i).value = answer :=
      ⟨_, rfl⟩
    rcases answer with fault | ⟨⟩
    · exact ⟨[], i :: rest, some fault, next, rfl, .stopped rest hanswer⟩
    · obtain ⟨applied, left, fault?, last, rfl, hcourse⟩ := ih next
      exact ⟨i :: applied, left, fault?, last, rfl, .applied hanswer hcourse⟩

namespace Course

/-- Something is left just when there was a fault. -/
theorem cases_left (h : installer.Course state applied left fault? last) :
    left = [] ∧ fault? = none ∨ ∃ i later fault, left = i :: later ∧ fault? = some fault := by
  induction h with
  | finished => exact .inl ⟨rfl, rfl⟩
  | @stopped _ _ i fault later => exact .inr ⟨i, later, fault, rfl, rfl⟩
  | applied _ _ ih => exact ih

end Course

/-! ## What is recorded and reported -/

/-- What is recorded of the items left: the first one failed, and the others were not tried. -/
def recordLeft (fault? : Option Fault) : List Item → List RecordItem
  | [] => []
  | i :: later =>
    .ofItem i .failed (fault?.map Fault.message) :: later.map fun j => .ofItem j .unattempted none

/-- What is reported on the way, `done` of `total` items having been applied before. -/
def progress (total : Nat) : Nat → List Item → List Item → List Update
  | _, [], [] => []
  | done, [], i :: _ => [⟨i, .starting, percent done total⟩, ⟨i, .failed, percent done total⟩]
  | done, i :: applied, left =>
    ⟨i, .starting, percent done total⟩ :: ⟨i, .applied, percent (done + 1) total⟩ ::
      progress total (done + 1) applied left

/-- The installer that also writes down which items it is given. -/
def recording (installer : Installer σ) : Installer (σ × List Item) where
  apply s i := do
    let (next, result) ← installer.apply s.1 i
    return ((next, s.2 ++ [i]), result)

namespace Course

theorem applyAll_value (h : installer.Course state applied left fault? last)
    (watch : Update → Traced Unit) (total done : Nat) :
    (installer.applyAll watch total done state (applied ++ left)).value = {
      state := last
      items := applied.map (fun i => .ofItem i .applied none) ++ recordLeft fault? left
      updates := progress total done applied left
      failure := fault?.bind fun fault =>
        left.head?.map fun i => s!"{i.package.nevra}: {fault.message}" } := by
  induction h generalizing done with
  | finished => rfl
  | stopped later hanswer =>
    rw [List.nil_append, applyAll, Traced.value_bind, Traced.value_bind, hanswer]
    rfl
  | applied hanswer _ ih =>
    rw [List.cons_append, applyAll_cons_of_ok hanswer, ih]
    rfl

/-- The installer is given the items that it carries out and the one at which it fails. -/
theorem recording (h : installer.Course state applied left fault? last) (calls : List Item) :
    installer.recording.Course (state, calls) applied left fault?
      (last, calls ++ applied ++ left.take 1) := by
  have hcall {state next : σ} {i : Item} {answer : Except Fault Unit} (calls : List Item)
      (hanswer : (installer.apply state i).value = (next, answer)) :
      (installer.recording.apply (state, calls) i).value = ((next, calls ++ [i]), answer) := by
    unfold Installer.recording
    rw [Traced.value_bind, hanswer]
    rfl
  induction h generalizing calls with
  | finished state =>
    rw [List.take_nil, List.append_nil, List.append_nil]
    exact .finished _
  | stopped later hanswer =>
    rw [List.append_nil]
    exact .stopped later (hcall calls hanswer)
  | @applied _ _ _ i applied _ _ hanswer _ ih =>
    rw [List.append_cons calls i applied]
    exact .applied (hcall calls hanswer) (ih _)

/-- All that is reported reaches whoever watches, in this order. -/
theorem progress_sublist (h : installer.Course state applied left fault? last)
    (watch : Update → Traced Unit) (total done : Nat) :
    ((progress total done applied left).flatMap fun u => (watch u).lines).Sublist
      (installer.applyAll watch total done state (applied ++ left)).lines := by
  have hskip (own rest : List Line) : rest.Sublist (own ++ rest) :=
    List.sublist_append_right own rest
  induction h generalizing done with
  | finished => exact .slnil
  | stopped later hanswer =>
    rw [List.nil_append, applyAll, Traced.lines_bind, Traced.lines_bind, hanswer]
    exact (List.Sublist.refl _).append (.trans (hskip _ _) (hskip _ _))
  | applied hanswer _ ih =>
    rw [List.cons_append, applyAll, Traced.lines_bind, Traced.lines_bind, hanswer]
    refine (List.Sublist.refl _).append (.trans ?_ (hskip _ _))
    refine (List.Sublist.refl _).append ?_
    rw [Traced.lines_bind, Traced.lines_pure, List.append_nil]
    exact ih (done + 1)

end Course

/-! ## Shares on the way -/

theorem exists_percent_of_mem_progress {total done : Nat} {u : Update}
    (h : u ∈ progress total done applied left) :
    ∃ n, done ≤ n ∧ n ≤ done + applied.length ∧ u.percent = percent n total := by
  induction applied generalizing done with
  | nil =>
    cases left with
    | nil => cases h
    | cons i later =>
      refine ⟨done, Nat.le_refl done, Nat.le_add_right done 0, ?_⟩
      rcases List.mem_pair.1 h with rfl | rfl <;> rfl
  | cons i applied ih =>
    rw [List.length_cons]
    rcases List.mem_cons.1 h with rfl | h
    · exact ⟨done, Nat.le_refl done, Nat.le_add_right done _, rfl⟩
    · rcases List.mem_cons.1 h with rfl | h
      · exact ⟨done + 1, by omega, by omega, rfl⟩
      · obtain ⟨n, hlow, hhigh, hpercent⟩ := ih h
        exact ⟨n, by omega, by omega, hpercent⟩

theorem progress_rises (total done : Nat) (applied left : List Item) :
    (progress total done applied left).Pairwise fun u v => u.percent ≤ v.percent := by
  induction applied generalizing done with
  | nil =>
    cases left with
    | nil => exact .nil
    | cons i later => exact List.pairwise_pair.2 (Nat.le_refl _)
  | cons i applied ih =>
    have hrest {n : Nat} (hn : n ≤ done + 1) {u : Update}
        (hu : u ∈ progress total (done + 1) applied left) : percent n total ≤ u.percent := by
      obtain ⟨m, hlow, -, hpercent⟩ := exists_percent_of_mem_progress hu
      rw [hpercent]
      exact percent_le_percent total (Nat.le_trans hn hlow)
    refine List.pairwise_cons.2 ⟨fun u hu => ?_, List.pairwise_cons.2 ⟨fun u hu => ?_, ih _⟩⟩
    · rcases List.mem_cons.1 hu with rfl | hu
      · exact percent_le_percent total (Nat.le_succ done)
      · exact hrest (Nat.le_succ done) hu
    · exact hrest (Nat.le_refl _) hu

/-- The last share is that of all the items that were applied. -/
theorem percent_getLast?_progress (total done : Nat) (h : applied ++ left ≠ []) :
    (progress total done applied left).getLast?.map Update.percent =
      some (percent (done + applied.length) total) := by
  induction applied generalizing done with
  | nil =>
    cases left with
    | nil => exact absurd rfl h
    | cons i later => rfl
  | cons i applied ih =>
    unfold progress
    rw [List.getLast?_cons_cons, List.getLast?_cons, List.length_cons]
    by_cases hrest : applied ++ left = []
    · obtain ⟨rfl, rfl⟩ := List.append_eq_nil_iff.1 hrest
      rfl
    · have hlast := ih (done + 1) hrest
      rw [Nat.add_right_comm done 1] at hlast
      obtain ⟨u, hu, hpercent⟩ := Option.map_eq_some_iff.1 hlast
      rw [hu]
      exact congrArg some hpercent

end Installer

/-! ## What a run reports -/

namespace Execution

variable {σ : Type}

/--
What a report says of a run in which the items `applied` were carried out and the items `left` were
not, the first of them because of a fault.
-/
structure Account (e : Execution) (installer : Installer σ) (state : σ)
    (watch : Update → Traced Unit) (store : History.Store) (now : Int) (r : Report σ)
    (applied left : List Item) (fault? : Option Fault) : Prop where
  items : e.transaction.items = applied ++ left
  course : installer.Course state applied left fault? r.outcome.state
  /-- What the installer is given are the items applied and the one that failed. -/
  calls : (e.run installer.recording (state, []) watch store now).value.outcome.state =
    (r.outcome.state, applied ++ left.take 1)
  record : r.record = {
    id := e.transaction.id
    startEpoch := e.startEpoch
    endEpoch := now
    state := if left = [] then .done else .failed
    items := applied.map (fun i => .ofItem i .applied none) ++ Installer.recordLeft fault? left }
  transaction : r.transaction = { e.transaction with state := r.record.state }
  success : r.isSuccess ↔ left = []
  /-- The record is kept, or refused and the history stays as it was. -/
  history : (store.record r.record).value = .ok r.store ∧ r.historyError = none ∨
    ∃ error, (store.record r.record).value = .error error ∧ r.historyError = some error ∧
      r.store = store
  rising : r.outcome.updates.Pairwise fun u v => u.percent ≤ v.percent
  bounded : ∀ u ∈ r.outcome.updates, u.percent ≤ 100
  complete : e.transaction.items ≠ [] →
    (r.outcome.updates.getLast?.map Update.percent = some 100 ↔ r.isSuccess)
  /-- Whoever watches is told of all updates, in this order. -/
  reported : (r.outcome.updates.flatMap fun u => (watch u).lines).Sublist
    (e.run installer state watch store now).lines

section Run

variable {e : Execution} {installer : Installer σ} {state last : σ} {applied left : List Item}
  {fault? : Option Fault}

theorem outcome_run (hitems : e.transaction.items = applied ++ left)
    (hcourse : installer.Course state applied left fault? last) (watch : Update → Traced Unit)
    (store : History.Store) (now : Int) :
    (e.run installer state watch store now).value.outcome = {
      state := last
      items := applied.map (fun i => .ofItem i .applied none) ++ Installer.recordLeft fault? left
      updates := Installer.progress (applied.length + left.length) 0 applied left
      failure := fault?.bind fun fault =>
        left.head?.map fun i => s!"{i.package.nevra}: {fault.message}" } := by
  obtain ⟨houtcome, -⟩ := run_value (rfl : (e.run installer state watch store now).value = _)
  rw [houtcome, hitems, hcourse.applyAll_value, List.length_append]

/-- The record ends well just when nothing is left. -/
theorem state_recordOf (hcourse : installer.Course state applied left fault? last)
    {outcome : Outcome σ} (hfailure : outcome.failure = fault?.bind fun fault =>
      left.head?.map fun i => s!"{i.package.nevra}: {fault.message}") (now : Int) :
    (e.recordOf outcome now).state = if left = [] then .done else .failed := by
  unfold recordOf
  rw [hfailure]
  rcases hcourse.cases_left with ⟨rfl, rfl⟩ | ⟨i, later, fault, rfl, rfl⟩
  · rfl
  · rw [if_neg (List.cons_ne_nil i later)]
    rfl

end Run

theorem exists_account (e : Execution) (installer : Installer σ) (state : σ)
    (watch : Update → Traced Unit) (store : History.Store) (now : Int) :
    ∃ report applied left fault?, (e.run installer state watch store now).value = report ∧
      e.Account installer state watch store now report applied left fault? := by
  obtain ⟨applied, left, fault?, last, hitems, hcourse⟩ :=
    Installer.exists_course installer state e.transaction.items
  obtain ⟨r, hrun⟩ : ∃ r, (e.run installer state watch store now).value = r := ⟨_, rfl⟩
  obtain ⟨-, hrecord, htransaction, hhistory⟩ := run_value hrun
  have houtcome := outcome_run hitems hcourse watch store now
  have hcalls := outcome_run hitems (hcourse.recording []) watch store now
  rw [hrun] at houtcome
  have hstate : (e.recordOf r.outcome now).state = if left = [] then .done else .failed :=
    state_recordOf hcourse (by rw [houtcome]) now
  have hsuccess : r.isSuccess ↔ left = [] := by
    unfold Report.isSuccess
    rw [htransaction, hstate, decide_eq_true_eq]
    split <;> simp [*]
  refine ⟨r, applied, left, fault?, hrun, {
    items := hitems
    course := by rwa [houtcome]
    calls := by rw [hcalls, houtcome, List.nil_append]
    record := by rw [hrecord, ← hstate, houtcome]; rfl
    transaction := by rw [htransaction, hrecord]
    success := hsuccess
    history := keepRecord_cases store r.record hhistory.symm
    rising := ?rising
    bounded := ?bounded
    complete := ?complete
    reported := ?reported }⟩
  case rising =>
    rw [houtcome]
    exact Installer.progress_rises _ 0 applied left
  case bounded =>
    intro u hu
    rw [houtcome] at hu
    obtain ⟨n, -, hn, hpercent⟩ := Installer.exists_percent_of_mem_progress hu
    rw [hpercent]
    exact percent_le_hundred (by omega)
  case complete =>
    intro hne
    rw [hitems] at hne
    have htotal : applied.length + left.length ≠ 0 := by
      rw [← List.length_append]
      exact fun hzero => hne (List.eq_nil_of_length_eq_zero hzero)
    rw [houtcome, Installer.percent_getLast?_progress _ 0 hne, Option.some_inj, hsuccess,
      percent_eq_hundred_iff (by omega) htotal, ← List.length_eq_zero_iff]
    omega
  case reported =>
    have hlines := hcourse.progress_sublist watch (applied.length + left.length) 0
    rw [← List.length_append, ← hitems] at hlines
    rw [houtcome, ← List.length_append, ← hitems]
    exact hlines.trans (List.sublist_append_left _ _)

theorem advance_of_inProgress {t : Transaction} (h : t.state = .inProgress) {next : State}
    (hnext : next = .done ∨ next = .failed) : t.advance next = .ok { t with state := next } := by
  unfold Transaction.advance
  rw [h]
  rcases hnext with rfl | rfl <;> rfl

/--
Whatever the installer makes of the items and whatever the history makes of the record, a run of a
transaction in progress gives the installer one item after the other until it fails, reports just
that, and ends the transaction by a step that its state allows.
-/
theorem run_account (e : Execution) (installer : Installer σ) (state : σ)
    (watch : Update → Traced Unit) (store : History.Store) (now : Int)
    (h : e.transaction.state = .inProgress) :
    ∃ report applied left fault?, (e.run installer state watch store now).value = report ∧
      e.Account installer state watch store now report applied left fault? ∧
      e.transaction.advance report.record.state = .ok report.transaction := by
  obtain ⟨report, applied, left, fault?, hrun, haccount⟩ :=
    exists_account e installer state watch store now
  refine ⟨report, applied, left, fault?, hrun, haccount, ?_⟩
  have hend : report.record.state = .done ∨ report.record.state = .failed := by
    rw [haccount.record]
    dsimp only
    split
    · exact .inl rfl
    · exact .inr rfl
  rw [haccount.transaction]
  exact advance_of_inProgress h hend

/-! ## A payload that is corrupt -/

/-- It counts its calls, and the payload of one package is corrupt. -/
def countingInstaller : Installer Nat where
  apply calls i := return (calls + 1,
    if i.package.name = "b" then .error (.corruptPayload "b") else .ok ())

def arriving (position : Nat) (name : String) : Item where
  package := ⟨⟨name, "noarch", ⟨0, "1", none⟩⟩, "base", none⟩
  action := .install
  reason := .user
  position := position

def threeArriving : Execution :=
  ⟨⟨1, .inProgress, [arriving 0 "a", arriving 1 "b", arriving 2 "c"]⟩, 0⟩

theorem run_account_corrupt :
    ∃ report applied left fault?,
      (threeArriving.run countingInstaller 0 Update.ignore {} 5).value = report ∧
      threeArriving.Account countingInstaller 0 Update.ignore {} 5 report applied left fault? ∧
      report.transaction.state = .failed ∧
      applied ++ left.take 1 = [arriving 0 "a", arriving 1 "b"] ∧ report.outcome.state = 2 ∧
      report.record.items.map (·.result) = [.applied, .failed, .unattempted] ∧
      report.outcome.updates.map Update.percent = [0, 33, 33, 33] := by
  obtain ⟨report, applied, left, fault?, hrun, haccount, -⟩ :=
    run_account threeArriving countingInstaller 0 Update.ignore {} 5 rfl
  have hcalls := haccount.calls
  subst hrun
  exact ⟨_, applied, left, fault?, rfl, haccount, rfl, (congrArg Prod.snd hcalls).symm, rfl, rfl,
    rfl⟩

end Execution

end Provision
