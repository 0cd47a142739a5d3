import Provision.Execution
import Provision.Proofs.History.Tables

/-!
# What an execution comes to

An execution applies its items in order until one fails, and then adds a record to the history
(`Execution.run_value`). The record is refused just when its number is taken (`keepRecord_value`).
Who watches the execution and which offers are hidden play no part in what becomes of an index
(`Index.state_applyAll`).
-/

namespace Provision

/-! ## Items -/

namespace Installer

variable {σ : Type} {installer : Installer σ} {watch : Update → Traced Unit} {total done : Nat}
  {state : σ} {i : Item} {rest : List Item}

/-- An item that is carried out stands in front of what becomes of the rest. -/
theorem applyAll_cons_of_ok {next : σ} (h : (installer.apply state i).value = (next, .ok ())) :
    (installer.applyAll watch total done state (i :: rest)).value =
      (installer.applyAll watch total (done + 1) next rest).value.afterApplied i
        (percent done total) (percent (done + 1) total) := by
  rw [applyAll, Traced.value_bind, Traced.value_bind, h]
  rfl

/-- The first item decides whether the rest is tried. -/
theorem state_applyAll_cons :
    (installer.applyAll watch total done state (i :: rest)).value.state =
      match (installer.apply state i).value with
      | (next, .ok ()) => (installer.applyAll watch total (done + 1) next rest).value.state
      | (next, .error _) => next := by
  rw [applyAll, Traced.value_bind, Traced.value_bind]
  rcases (installer.apply state i).value with ⟨next, _ | ⟨⟩⟩ <;> rfl

end Installer

namespace Index

/-- What carrying out items one after the other comes to. -/
def carryOut (ix : Index) (items : List Item) : Outcome Index :=
  (installer.applyAll Update.ignore items.length 0 ix items).value

/-- The index with other globs that hide offers. -/
def withExcludes (ix : Index) (excludes : List Pattern) : Index := { ix with excludes := excludes }

theorem apply_withExcludes (ix : Index) (excludes : List Pattern) (i : Item) :
    ((ix.withExcludes excludes).apply i).value =
      ((ix.apply i).value.1.withExcludes excludes, (ix.apply i).value.2) := by
  have hinstalled : (ix.withExcludes excludes).isInstalled i.package.build =
      ix.isInstalled i.package.build := rfl
  have hoffered : (ix.withExcludes excludes).offeredMetadata? i.package =
      ix.offeredMetadata? i.package := rfl
  unfold apply applyRemoval applyInbound
  rw [hinstalled, hoffered]
  cases i.action.isRemoval
  · cases ix.offeredMetadata? i.package <;> rfl
  · cases ix.isInstalled i.package.build <;> rfl

theorem state_applyAll (watch watch' : Update → Traced Unit) (excludes : List Pattern)
    (items : List Item) (ix : Index) (total done total' done' : Nat) :
    (installer.applyAll watch total done (ix.withExcludes excludes) items).value.state =
      (installer.applyAll watch' total' done' ix items).value.state.withExcludes excludes := by
  induction items generalizing ix done done' with
  | nil => rfl
  | cons i rest ih =>
    obtain ⟨⟨next, result⟩, hplain⟩ : ∃ after, (installer.apply ix i).value = after := ⟨_, rfl⟩
    have hexcludes : (installer.apply (ix.withExcludes excludes) i).value =
        (next.withExcludes excludes, result) := by
      refine (ix.apply_withExcludes excludes i).trans ?_
      rw [show (ix.apply i).value = (next, result) from hplain]
    rw [Installer.state_applyAll_cons, Installer.state_applyAll_cons, hplain, hexcludes]
    rcases result with _ | ⟨⟩
    · rfl
    · exact ih next _ _

end Index

/-! ## Records -/

namespace Execution

variable {σ : Type}

theorem isFinal_recordOf (e : Execution) (outcome : Outcome σ) (now : Int) :
    (e.recordOf outcome now).state.isFinal := by
  unfold recordOf
  dsimp only
  split <;> rfl

theorem keepRecord_cases (store : History.Store) (r : History.Record)
    {error? : Option History.Error} {store' : History.Store}
    (h : (keepRecord store r).value = (error?, store')) :
    (store.record r).value = .ok store' ∧ error? = none ∨
      ∃ error, (store.record r).value = .error error ∧ error? = some error ∧ store' = store := by
  unfold keepRecord at h
  rw [Traced.value_bind] at h
  split at h
  · rename_i kept hkept
    cases h
    exact .inl ⟨hkept, rfl⟩
  · rename_i error herror
    cases h
    exact .inr ⟨error, herror, rfl, rfl⟩

/-- A record is kept unless its number is taken. -/
theorem keepRecord_value {store store' : History.Store} {r : History.Record}
    {error? : Option History.Error} (hfinal : r.state.isFinal)
    (h : (keepRecord store r).value = (error?, store')) :
    History.signed r.id ∈ store.rows ∧ error? = some (.alreadyRecorded r.id) ∧ store' = store ∨
      History.signed r.id ∉ store.rows ∧ error? = none ∧
        store.Adds (History.signed r.id) (.ofRecord r) (r.items.map .ofItem) store' := by
  by_cases htaken : History.signed r.id ∈ store.rows
  · have hrecord := History.Store.record_of_mem hfinal htaken
    rcases keepRecord_cases store r h with ⟨hkept, -⟩ | ⟨error, herror, rfl, rfl⟩
    · cases hrecord.symm.trans hkept
    · cases hrecord.symm.trans herror
      exact .inl ⟨htaken, rfl, rfl⟩
  · obtain ⟨kept, hrecord, hadds⟩ := History.Store.exists_record hfinal htaken
    rcases keepRecord_cases store r h with ⟨hkept, rfl⟩ | ⟨error, herror, -⟩
    · cases hrecord.symm.trans hkept
      exact .inr ⟨htaken, rfl, hadds⟩
    · cases hrecord.symm.trans herror

/-- What a run reports, whatever becomes of its record. -/
theorem run_value {e : Execution} {installer : Installer σ} {state : σ}
    {watch : Update → Traced Unit} {store : History.Store} {now : Int} {r : Report σ}
    (h : (e.run installer state watch store now).value = r) :
    r.outcome =
        (installer.applyAll watch e.transaction.items.length 0 state e.transaction.items).value ∧
      r.record = e.recordOf r.outcome now ∧
      r.transaction = { e.transaction with state := (e.recordOf r.outcome now).state } ∧
      (r.historyError, r.store) = (keepRecord store r.record).value := by
  subst h
  unfold run
  dsimp only
  rw [Traced.value_bind, Traced.value_bind]
  split <;> exact ⟨rfl, rfl, rfl, rfl⟩

end Execution

end Provision
