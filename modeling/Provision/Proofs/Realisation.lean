import Mathlib.Data.List.Nodup
import Provision.Proofs.Execution
import Provision.Proofs.Goal.Exclusion

/-!
# Executing a plan realises it

An item can be carried out if it takes off what is installed or brings in what is offered
(`Index.Fits`). Items in different slots do not get in each other's way, so in any order all of them
are carried out, and each slot ends up with what its item says (`applyAll_realises`). The items of a
solved goal are of this kind: what is brought in was chosen for a slot that held another build, so
it comes from an offer. Hence an execution of the plan succeeds and leaves the world that the plan
predicts (`run_realises`).
-/

namespace Provision

open History (RecordItem)

/-! ## Single items -/

namespace Index

variable {ix ix' : Index}

/-- The index can carry out the item. -/
structure Fits (ix : Index) (i : Item) : Prop where
  removal : i.action.isRemoval → i.package ∈ ix.installedPackages
  inbound : i.action.isInbound → (ix.offeredMetadata? i.package).isSome

/-- What the slot of an item holds once the item has been carried out. -/
def holdsAfter (i : Item) : Option Package :=
  if i.action.isInbound then some i.package else none

/-- The slot holds the same entry in both indexes. -/
def SameSlot (slot : Slot) (ix ix' : Index) : Prop := ix'.installed[slot]? = ix.installed[slot]?

/-- The second index offers what the first one does, and hides the same. -/
structure SameOffers (ix ix' : Index) : Prop where
  offered : ix'.offered = ix.offered
  excludes : ix'.excludes = ix.excludes

theorem installedAt?_occupy (entry : Entry) (slot : Slot) :
    (ix.occupy entry).installedAt? slot =
      if entry.package.slot = slot then some entry.package else ix.installedAt? slot := by
  unfold installedAt? occupy
  rw [Std.TreeMap.getElem?_insert]
  simp only [Std.LawfulEqCmp.compare_eq_iff_eq]
  split <;> rfl

theorem installedAt?_vacate (slot other : Slot) :
    (ix.vacate slot).installedAt? other =
      if slot = other then none else ix.installedAt? other := by
  unfold installedAt? vacate
  rw [Std.TreeMap.getElem?_erase]
  simp only [Std.LawfulEqCmp.compare_eq_iff_eq]
  split <;> rfl

theorem sameSlot_occupy {entry : Entry} {slot : Slot} (h : entry.package.slot ≠ slot) :
    SameSlot slot ix (ix.occupy entry) := by
  unfold SameSlot occupy
  rw [Std.TreeMap.getElem?_insert, if_neg]
  rw [Std.LawfulEqCmp.compare_eq_iff_eq]
  exact h

theorem sameSlot_vacate {slot other : Slot} (h : slot ≠ other) :
    SameSlot other ix (ix.vacate slot) := by
  unfold SameSlot vacate
  rw [Std.TreeMap.getElem?_erase, if_neg]
  rw [Std.LawfulEqCmp.compare_eq_iff_eq]
  exact h

/-- An item that fits is carried out in its own slot. -/
theorem apply_of_fits {i : Item} (h : ix.Fits i) :
    ∃ ix', (ix.apply i).value = (ix', .ok ()) ∧ SameOffers ix ix' ∧
      (∀ slot, i.package.slot ≠ slot → SameSlot slot ix ix') ∧
      ix'.installedAt? i.package.slot = holdsAfter i := by
  unfold apply
  split
  · rename_i hremoval
    have hinstalled : ix.isInstalled i.package.build :=
      isInstalled_iff.2 ⟨i.package, h.removal hremoval, rfl⟩
    unfold applyRemoval
    rw [if_pos hinstalled]
    refine ⟨ix.vacate i.package.slot, rfl, ⟨rfl, rfl⟩, fun slot hne => sameSlot_vacate hne, ?_⟩
    unfold holdsAfter
    rw [installedAt?_vacate, if_pos rfl, if_neg (Solver.Scope.not_isInbound_of_isRemoval hremoval)]
  · rename_i hremoval
    have hinbound : i.action.isInbound := by
      unfold Action.isRemoval at hremoval
      rw [Bool.not_eq_true', Bool.not_eq_false] at hremoval
      exact hremoval
    obtain ⟨metadata, hmetadata⟩ := Option.isSome_iff_exists.1 (h.inbound hinbound)
    unfold applyInbound
    rw [hmetadata]
    refine ⟨_, rfl, ⟨rfl, rfl⟩, fun slot hne => sameSlot_occupy hne, ?_⟩
    unfold holdsAfter
    rw [installedAt?_occupy, if_pos rfl, if_pos hinbound]

theorem SameOffers.offeredMetadata? (h : SameOffers ix ix') (p : Package) :
    ix'.offeredMetadata? p = ix.offeredMetadata? p := by
  unfold Index.offeredMetadata? offeredEntries
  rw [h.offered]

theorem Fits.of_same {i : Item} (h : ix.Fits i) (hoffers : SameOffers ix ix')
    (hslot : SameSlot i.package.slot ix ix') : ix'.Fits i := by
  refine ⟨fun hremoval => ?_, fun hinbound => ?_⟩
  · have hp := h.removal hremoval
    rw [mem_installedPackages_iff] at hp ⊢
    unfold installedAt? at hp ⊢
    rw [hslot]
    exact hp
  · rw [hoffers.offeredMetadata?]
    exact h.inbound hinbound

/-! ## All items -/

/-- The second index is what the items make of the first. -/
structure Realises (ix : Index) (items : List Item) (ix' : Index) : Prop where
  offers : SameOffers ix ix'
  untouched : ∀ slot, (∀ i ∈ items, i.package.slot ≠ slot) → SameSlot slot ix ix'
  touched : ∀ i ∈ items, ix'.installedAt? i.package.slot = holdsAfter i

end Index

variable {ix : Index}

/-- By induction on the items: carrying out the first leaves the slots of the others alone. -/
theorem applyAll_realises (watch : Update → Traced Unit) {items : List Item}
    (hfits : ∀ i ∈ items, ix.Fits i) (hnodup : (items.map (·.package.slot)).Nodup)
    (total done : Nat) :
    ∃ outcome, (Index.installer.applyAll watch total done ix items).value = outcome ∧
      outcome.failure = none ∧ outcome.items = items.map (fun i => .ofItem i .applied none) ∧
      ix.Realises items outcome.state := by
  induction items generalizing ix done with
  | nil => exact ⟨_, rfl, rfl, rfl, ⟨rfl, rfl⟩, fun _ _ => rfl, fun i hi => by cases hi⟩
  | cons i rest ih =>
    rw [List.map_cons, List.nodup_cons] at hnodup
    obtain ⟨hfresh, hnodup⟩ := hnodup
    have hne (j : Item) (hj : j ∈ rest) : i.package.slot ≠ j.package.slot := by
      intro heq
      exact hfresh (heq ▸ List.mem_map_of_mem hj)
    obtain ⟨next, happly, hoffers, hothers, hown⟩ := Index.apply_of_fits (hfits i List.mem_cons_self)
    have hrest (j : Item) (hj : j ∈ rest) : next.Fits j :=
      (hfits j (List.mem_cons_of_mem i hj)).of_same hoffers (hothers _ (hne j hj))
    obtain ⟨outcome, hall, hfailure, hitems, hlast⟩ := ih hrest hnodup (done + 1)
    refine ⟨_, Installer.applyAll_cons_of_ok happly, ?_, ?_, ?_⟩
    · rw [hall]
      exact hfailure
    · rw [hall]
      exact congrArg (RecordItem.ofItem i .applied none :: ·) hitems
    · rw [hall]
      refine ⟨⟨hlast.offers.offered.trans hoffers.offered,
        hlast.offers.excludes.trans hoffers.excludes⟩, fun slot hslot => ?_, fun j hj => ?_⟩
      · exact (hlast.untouched slot fun j hj => hslot j (List.mem_cons_of_mem i hj)).trans
          (hothers slot (hslot i List.mem_cons_self))
      · rcases List.mem_cons.1 hj with rfl | hj
        · have hsame := hlast.untouched j.package.slot fun k hk heq => hne k hk heq.symm
          show outcome.state.installedAt? j.package.slot = Index.holdsAfter j
          unfold Index.installedAt? at hown ⊢
          rw [hsame]
          exact hown
        · exact hlast.touched j hj

namespace Index

/-- In the slot of an item the predicted world has what the item leaves there. -/
theorem mem_worldAfter_of_touched {items : List Item} (hfits : ∀ i ∈ items, ix.Fits i)
    (hnodup : (items.map (·.package.slot)).Nodup) {i : Item} (hi : i ∈ items) {p : Package}
    (hslot : i.package.slot = p.slot) : p ∈ ix.worldAfter items ↔ holdsAfter i = some p := by
  have honly (j : Item) (hj : j ∈ items) (hjslot : j.package.slot = p.slot) : j = i :=
    List.inj_on_of_nodup_map hnodup hj hi (hjslot.trans hslot.symm)
  rw [worldAfter, mem_exchange_iff]
  unfold holdsAfter
  constructor
  · rintro (⟨hp, hkept, hfree⟩ | hp)
    · exfalso
      by_cases hinbound : i.action.isInbound
      · exact hfree i.package (Item.mem_broughtIn_iff.2 ⟨i, hi, hinbound, rfl⟩) hslot
      · have hremoval : i.action.isRemoval := by
          unfold Action.isRemoval
          rw [Bool.eq_false_iff.2 hinbound]
          rfl
        have hsame := installed_unique ((hfits i hi).removal hremoval) hp hslot
        exact hkept (Item.mem_takenOff_iff.2 ⟨i, hi, hremoval, hsame⟩)
    · obtain ⟨j, hj, hinbound, rfl⟩ := Item.mem_broughtIn_iff.1 hp
      rw [honly j hj rfl] at hinbound ⊢
      rw [if_pos hinbound]
  · intro hp
    split at hp
    · rename_i hinbound
      exact .inr (Item.mem_broughtIn_iff.2 ⟨i, hi, hinbound, Option.some.inj hp⟩)
    · cases hp

/-- In a slot that no item is in the predicted world has what is installed. -/
theorem mem_worldAfter_of_untouched {items : List Item} {p : Package}
    (hfree : ∀ i ∈ items, i.package.slot ≠ p.slot) :
    p ∈ ix.worldAfter items ↔ p ∈ ix.installedPackages := by
  rw [worldAfter, mem_exchange_iff]
  constructor
  · rintro (⟨hp, -⟩ | hp)
    · exact hp
    · obtain ⟨i, hi, -, rfl⟩ := Item.mem_broughtIn_iff.1 hp
      exact absurd rfl (hfree i hi)
  · intro hp
    refine .inl ⟨hp, fun htaken => ?_, fun q hq => ?_⟩
    · obtain ⟨i, hi, -, rfl⟩ := Item.mem_takenOff_iff.1 htaken
      exact hfree i hi rfl
    · obtain ⟨i, hi, -, rfl⟩ := Item.mem_broughtIn_iff.1 hq
      exact hfree i hi

/-- What the items make of the index is the world that they predict. -/
theorem Realises.mem_iff {ix' : Index} {items : List Item}
    (h : ix.Realises items ix') (hfits : ∀ i ∈ items, ix.Fits i)
    (hnodup : (items.map (·.package.slot)).Nodup) {p : Package} :
    p ∈ ix'.installedPackages ↔ p ∈ ix.worldAfter items := by
  by_cases htouched : ∃ i ∈ items, i.package.slot = p.slot
  · obtain ⟨i, hi, hslot⟩ := htouched
    rw [mem_worldAfter_of_touched hfits hnodup hi hslot, mem_installedPackages_iff, ← hslot,
      h.touched i hi]
  · have hfree (i : Item) (hi : i ∈ items) : i.package.slot ≠ p.slot :=
      fun hslot => htouched ⟨i, hi, hslot⟩
    rw [mem_worldAfter_of_untouched hfree, mem_installedPackages_iff, mem_installedPackages_iff]
    unfold installedAt?
    rw [h.untouched p.slot hfree]

end Index

/-! ## Plans of solved goals -/

namespace Goal

variable {g : Goal} {items : List Item} {outcome : Solver.Outcome}

theorem Solves.fits (h : g.Solves ix items outcome) : ∀ i ∈ items, ix.Fits i := by
  intro i hi
  refine ⟨fun hremoval => ?_, fun hinbound => ?_⟩
  · refine h.soundChanges.installed _ (h.orders.mem_takenOff_iff.1 ?_)
    exact Item.mem_takenOff_iff.2 ⟨i, hi, hremoval, rfl⟩
  · have hbrought : i.package ∈ Item.broughtIn items :=
      Item.mem_broughtIn_iff.2 ⟨i, hi, hinbound, rfl⟩
    rw [h.mem_broughtIn_iff] at hbrought
    exact Index.isSome_offeredMetadata? ⟨_, (h.shows hbrought).offered, rfl⟩

/-- Executing the plan of a solved goal makes of the index what the items say. -/
theorem Solves.run (h : g.Solves ix items outcome) {e : Execution}
    (hitems : e.transaction.items = items) (watch : Update → Traced Unit) (store : History.Store)
    (now : Int) :
    ∃ report, (e.run Index.installer ix watch store now).value = report ∧
      report.outcome.failure = none ∧ report.transaction.state = .done ∧
      report.record = ⟨e.transaction.id, e.startEpoch, now, .done,
        items.map fun i => .ofItem i .applied none⟩ ∧
      ix.Realises items report.outcome.state := by
  obtain ⟨result, hall, hfailure, hrecord, hrealises⟩ :=
    applyAll_realises watch h.fits h.orders.nodup items.length 0
  obtain ⟨report, hrun⟩ : ∃ report, (e.run Index.installer ix watch store now).value = report :=
    ⟨_, rfl⟩
  obtain ⟨houtcome, hrecorded, htransaction, -⟩ := Execution.run_value hrun
  rw [hitems, hall] at houtcome
  subst houtcome
  have hdone : e.recordOf report.outcome now = ⟨e.transaction.id, e.startEpoch, now, .done,
      items.map fun i => .ofItem i .applied none⟩ := by
    unfold Execution.recordOf
    rw [hfailure, hrecord]
    rfl
  rw [hdone] at hrecorded htransaction
  refine ⟨report, hrun, hfailure, ?_, hrecorded, hrealises⟩
  rw [htransaction]

/--
Executing the plan of a solved goal on the index that it was made for succeeds, item by item, and
leaves installed what the plan predicts.
-/
theorem run_realises {advisories : List Problem}
    (h : (g.resolve ix).value = .ok (.solved items advisories)) (e : Execution)
    (hitems : e.transaction.items = items) (watch : Update → Traced Unit) (store : History.Store)
    (now : Int) :
    ∃ report, (e.run Index.installer ix watch store now).value = report ∧
      report.isSuccess ∧ report.outcome.failure = none ∧
      report.record.state = .done ∧
      report.record.items = items.map (fun i => .ofItem i .applied none) ∧
      ∀ p, p ∈ report.outcome.state.installedPackages ↔ p ∈ ix.worldAfter items := by
  obtain ⟨outcome, hsolves⟩ := resolve_cases h
  obtain ⟨report, hrun, hfailure, hstate, hrecord, hrealises⟩ :=
    hsolves.run hitems watch store now
  refine ⟨report, hrun, decide_eq_true hstate, hfailure, ?_, ?_, fun p => ?_⟩
  · rw [hrecord]
  · rw [hrecord]
  · exact hrealises.mem_iff hsolves.fits hsolves.orders.nodup

theorem run_realises_sample :
    ∃ report, ((⟨⟨1, .inProgress, sampleItems⟩, 0⟩ : Execution).run Index.installer sampleIndex
        Update.ignore {} 0).value = report ∧
      report.isSuccess ∧ report.outcome.failure = none ∧
      report.record.state = .done ∧
      report.record.items = sampleItems.map (fun i => .ofItem i .applied none) ∧
      ∀ p, p ∈ report.outcome.state.installedPackages ↔ p ∈ sampleIndex.worldAfter sampleItems :=
  run_realises resolve_sample ⟨⟨1, .inProgress, sampleItems⟩, 0⟩ rfl Update.ignore {} 0

end Goal

end Provision
