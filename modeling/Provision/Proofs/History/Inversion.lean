import Provision.History.Undo
import Provision.Proofs.Evr.Order
import Provision.Proofs.Offers
import Provision.Proofs.Realisation
import Provision.Proofs.Traversal

/-!
# Which transactions can be undone

The action of an item tells what was in its slot before (`Solves.tells`). Undoing needs that build
only: the record of a plan that was carried out can be turned into a goal if and only if every build
that stood in the slots of its items is on offer (`exists_invert_iff`).
-/

namespace Provision

/-! ## What the items of a plan tell -/

/-- The action of the item says what was in its slot before. -/
inductive Item.Tells (i : Item) : Option Build → Prop
  | install (haction : i.action = .install) : Tells i none
  | change {old : Build}
      (haction : i.action = if old.evr.Older i.package.evr then .upgrade else .downgrade)
      (hslot : old.slot = i.package.slot) (hbuild : old ≠ i.package.build)
      (hprevious : i.previousEvr = some old.evr) : Tells i (some old)
  | reinstall (haction : i.action = .reinstall) : Tells i (some i.package.build)
  | removal (haction : i.action.isRemoval) : Tells i (some i.package.build)

theorem Item.Tells.eq_none {i : Item} {before : Option Build} (h : i.Tells before)
    (haction : i.action = .install) : before = none := by
  cases h with
  | install => rfl
  | change hchange =>
    rw [haction] at hchange
    split at hchange <;> cases hchange
  | reinstall hreinstall =>
    rw [haction] at hreinstall
    cases hreinstall
  | removal hremoval =>
    rw [haction] at hremoval
    cases hremoval

namespace Index

/-- The build in a slot. -/
def buildAt? (ix : Index) (slot : Slot) : Option Build := (ix.installedAt? slot).map Package.build

theorem buildAt?_eq_some_iff {ix : Index} {slot : Slot} {b : Build} :
    ix.buildAt? slot = some b ↔ b.slot = slot ∧ ix.isInstalled b := by
  unfold buildAt?
  rw [Option.map_eq_some_iff, isInstalled_iff]
  constructor
  · rintro ⟨p, hp, rfl⟩
    have hslot := slot_installedAt? hp
    refine ⟨hslot, p, mem_installedPackages_iff.2 ?_, rfl⟩
    rw [hslot]
    exact hp
  · rintro ⟨rfl, p, hp, rfl⟩
    exact ⟨p, mem_installedPackages_iff.1 hp, rfl⟩

end Index

namespace Goal

variable {g : Goal} {ix : Index} {items : List Item} {outcome : Solver.Outcome}

theorem tells_of_arrival {i : Item} {m : Solver.Model} {policy : Solver.Policy}
    (hreplaces : i.replaces = ix.installedAt? i.package.slot)
    (h : (Solver.Scope.ofIndex ix policy).Arrival m i.package i.action) :
    i.Tells (ix.buildAt? i.package.slot) := by
  have hchange {old : Package} (hold : ix.installedAt? i.package.slot = some old)
      (hbuild : old.build ≠ i.package.build)
      (haction : i.action = if old.evr.Older i.package.evr then .upgrade else .downgrade) :
      i.Tells (some old.build) := by
    have hslot := Index.slot_installedAt? hold
    refine .change haction hslot hbuild ?_
    unfold Item.previousEvr
    rw [hreplaces, hold]
    refine Option.filter_eq_some_iff.2 ⟨rfl, decide_eq_true fun hevr => hbuild ?_⟩
    exact Build.eq_of_slot_of_evr hslot hevr
  have hinstalled := Solver.Scope.installed_ofIndex ix policy i.package.slot
  unfold Index.buildAt?
  generalize haction : i.action = action at h
  cases h with
  | install hfree =>
    rw [hinstalled] at hfree
    rw [hfree]
    exact .install haction
  | reinstall hold hbuild _ =>
    rw [hinstalled] at hold
    rw [hold, Option.map_some, hbuild]
    exact .reinstall haction
  | upgrade hold hbuild hnewer =>
    rw [hinstalled] at hold
    rw [hold]
    exact hchange hold hbuild (by rw [if_pos hnewer, haction])
  | downgrade hold hbuild hnewer =>
    rw [hinstalled] at hold
    rw [hold]
    exact hchange hold hbuild (by rw [if_neg hnewer, haction])

theorem Solves.tells (h : g.Solves ix items outcome) {i : Item} (hi : i ∈ items) :
    i.Tells (ix.buildAt? i.package.slot) := by
  by_cases hremoval : i.action.isRemoval
  · have hinstalled := Index.mem_installedPackages_iff.1 ((h.fits i hi).removal hremoval)
    unfold Index.buildAt?
    rw [hinstalled]
    exact .removal hremoval
  · rcases h.leads hi with ⟨hremoves, -⟩ | ⟨hreplaces, m, harrival⟩
    · exact absurd hremoves hremoval
    · exact tells_of_arrival hreplaces harrival

end Goal

/-! ## Builds on offer -/

/-- The package is an offer of the build, and it is not hidden. -/
structure Index.Offers (ix : Index) (b : Build) (p : Package) : Prop where
  offered : p ∈ ix.offeredPackages
  build : p.build = b
  visible : ix.isExcluded b = false

/-- The name of the package, read as a pattern, stands for itself. -/
def Package.IsPlain (p : Package) : Prop := (Pattern.ofText p.name).selectsForm p.name

theorem Package.IsPlain.of_name {p q : Package} (hp : p.IsPlain) (hname : q.name = p.name) :
    q.IsPlain := by
  unfold IsPlain
  rw [hname]
  exact hp

theorem Package.IsPlain.selects {p : Package} (hp : p.IsPlain) {b : Build} (hb : b.name = p.name) :
    (Pattern.ofText b.name).selects b := by
  unfold Pattern.selects Build.forms
  rw [List.any_eq_true]
  refine ⟨b.name, List.mem_append_left _ List.mem_cons_self, ?_⟩
  rw [hb]
  exact hp

namespace History

variable {ix : Index} {i : RecordItem} {b : Build} {p : Package}

theorem offers_of_offeredBuild (hslot : b.slot = i.build.slot)
    (h : offeredBuild ix i b.evr = .ok p) : ix.Offers b p := by
  unfold offeredBuild at h
  dsimp only at h
  split at h
  · rename_i q rest hsort
    cases h
    have hmem : p ∈ p :: rest := List.mem_cons_self
    rw [← hsort, Goal.mem_sortByPreference_iff, List.mem_filter] at hmem
    obtain ⟨hquery, hsame⟩ := hmem
    rw [Bool.and_eq_true, decide_eq_true_eq, decide_eq_true_eq] at hsame
    have hanswers := Index.mem_of_mem_query hquery
    have harch : i.build.arch = p.arch := by
      have hselects := hanswers.1
      unfold Filter.selects at hselects
      rw [Bool.and_eq_true] at hselects
      simpa using hselects.1
    have hbuild : p.build = b := by
      refine Build.eq_of_slot_of_evr ?_ hsame.2
      rw [hslot]
      show (⟨p.name, p.arch⟩ : Slot) = ⟨i.build.name, i.build.arch⟩
      rw [hsame.1, harch]
    rcases hanswers.2 with ⟨hne, -⟩ | ⟨-, hoffered, hvisible⟩
    · exact absurd rfl hne
    · refine ⟨hoffered, hbuild, ?_⟩
      rw [← hbuild]
      exact hvisible.resolve_left Bool.false_ne_true
  · cases h

theorem exists_offeredBuild (hslot : b.slot = i.build.slot) (hp : ix.Offers b p)
    (hplain : p.IsPlain) : ∃ q, offeredBuild ix i b.evr = .ok q := by
  have hname : b.name = i.build.name := congrArg Slot.name hslot
  have harch : b.arch = i.build.arch := congrArg Slot.arch hslot
  have hanswers :
      ix.Answers { Filter.ofName i.build.name .offered with arch := some i.build.arch } p := by
    refine ⟨?_, .inr ⟨nofun, hp.offered, .inr ?_⟩⟩
    · unfold Filter.selects Filter.ofName
      rw [Bool.and_eq_true, ← hname, ← harch, ← hp.build]
      exact ⟨by simp, hplain.selects rfl⟩
    · rw [hp.build]
      exact hp.visible
  obtain ⟨q, hq, hsame⟩ := Index.exists_mem_query hanswers
  have hbuild := hsame.1.trans hp.build
  unfold offeredBuild
  dsimp only
  split
  · exact ⟨_, rfl⟩
  · rename_i hsort
    have hmem : q ∈ ([] : List Package) := by
      rw [← hsort, Goal.mem_sortByPreference_iff, List.mem_filter]
      refine ⟨hq, ?_⟩
      rw [Bool.and_eq_true, decide_eq_true_eq, decide_eq_true_eq, ← hname]
      exact ⟨congrArg Build.name hbuild, congrArg Build.evr hbuild⟩
    cases hmem

/-! ## Reversing one item -/

/-- The job that reverses an item, by what was in its slot before. -/
inductive Reverses (ix : Index) (j : Item) : Option Build → Goal.Job → Prop
  | remove (haction : j.action = .install) {p : Package} (hp : p.build = j.package.build) :
      Reverses ix j none ⟨.remove, .exactly [p], {}⟩
  | change (haction : j.action = .upgrade ∨ j.action = .downgrade) {old : Build}
      (hslot : old.slot = j.package.slot) (hbuild : old ≠ j.package.build) {verb : Goal.Verb}
      (hverb : verb = if old.evr.Older j.package.evr then .downgrade else .upgrade)
      {target : Package} (htarget : ix.Offers old target) :
      Reverses ix j (some old) ⟨verb, .exactly [target], {}⟩
  | reinstall (haction : j.action = .reinstall) {target : Package}
      (htarget : ix.Offers j.package.build target) :
      Reverses ix j (some j.package.build) ⟨.reinstall, .exactly [target], {}⟩
  | install (haction : j.action.isRemoval) {target : Package}
      (htarget : ix.Offers j.package.build target) :
      Reverses ix j (some j.package.build)
        ⟨.install, .exactly [target], { allowDowngrade := true }⟩

section Reversing

variable {id : Nat} {evr : Evr}

theorem reverseItem_of_change (haction : i.action = .upgrade ∨ i.action = .downgrade)
    (hprevious : i.previousEvr = some evr) :
    reverseItem ix id i = (offeredBuild ix i evr).map fun target =>
      ⟨if i.action = .upgrade then .downgrade else .upgrade, .exactly [target], {}⟩ := by
  unfold reverseItem
  rcases haction with haction | haction <;> rw [haction, hprevious] <;> rfl

theorem reverseItem_of_reinstall (haction : i.action = .reinstall) :
    reverseItem ix id i = (offeredBuild ix i i.build.evr).map fun target =>
      ⟨.reinstall, .exactly [target], {}⟩ := by
  unfold reverseItem
  rw [haction]
  rfl

theorem reverseItem_of_removal (haction : i.action.isRemoval) :
    reverseItem ix id i = (offeredBuild ix i i.build.evr).map fun target =>
      ⟨.install, .exactly [target], { allowDowngrade := true }⟩ := by
  unfold reverseItem
  generalize i.action = action at haction
  cases action <;> first | rfl | cases haction

theorem map_eq_ok_iff {ε α β : Type} {x : Except ε α} {f : α → β} {b : β} :
    x.map f = .ok b ↔ ∃ a, x = .ok a ∧ f a = b := by
  cases x <;> simp [Except.map]

variable {j : Item} {before : Option Build} {result : Result} {cause : Option String}

/-- The job asks for the build that was in the slot before, or only for the item to go. -/
theorem reverses_of_reverseItem (h : j.Tells before) {job : Goal.Job}
    (hjob : reverseItem ix id (.ofItem j result cause) = .ok job) : Reverses ix j before job := by
  cases h with
  | install haction =>
    unfold reverseItem at hjob
    rw [show (RecordItem.ofItem j result cause).action = .install from haction] at hjob
    cases hjob
    exact .remove haction rfl
  | @change old haction hslot hbuild hprevious =>
    have heither : j.action = .upgrade ∨ j.action = .downgrade := haction ▸ ite_eq_or_eq _ _ _
    rw [reverseItem_of_change heither hprevious, map_eq_ok_iff] at hjob
    obtain ⟨target, htarget, rfl⟩ := hjob
    refine .change heither hslot hbuild ?_ ?_
    · show (if j.action = .upgrade then _ else _) = _
      rw [haction]
      by_cases hnewer : old.evr.Older j.package.evr <;> simp [hnewer]
    · exact offers_of_offeredBuild (i := .ofItem j result cause) hslot htarget
  | reinstall haction =>
    rw [reverseItem_of_reinstall haction, map_eq_ok_iff] at hjob
    obtain ⟨target, htarget, rfl⟩ := hjob
    exact .reinstall haction (offers_of_offeredBuild (by rfl) htarget)
  | removal haction =>
    rw [reverseItem_of_removal haction, map_eq_ok_iff] at hjob
    obtain ⟨target, htarget, rfl⟩ := hjob
    exact .install haction (offers_of_offeredBuild (by rfl) htarget)

/-- An item can be reversed if the build that was in its slot before is on offer. -/
theorem exists_reverseItem (h : j.Tells before) (hplain : j.package.IsPlain)
    (hoffered : ∀ b, before = some b → ∃ p, ix.Offers b p) :
    ∃ job, reverseItem ix id (.ofItem j result cause) = .ok job := by
  have hfound {b : Build} (hslot : b.slot = j.package.slot) (hb : before = some b) :
      ∃ target, offeredBuild ix (.ofItem j result cause) b.evr = .ok target := by
    obtain ⟨p, hp⟩ := hoffered b hb
    refine exists_offeredBuild (i := .ofItem j result cause) hslot hp (hplain.of_name ?_)
    exact (congrArg Build.name hp.build).trans (congrArg Slot.name hslot)
  cases h with
  | install haction =>
    unfold reverseItem
    rw [show (RecordItem.ofItem j result cause).action = .install from haction]
    exact ⟨_, rfl⟩
  | @change old haction hslot hbuild hprevious =>
    have heither : j.action = .upgrade ∨ j.action = .downgrade := haction ▸ ite_eq_or_eq _ _ _
    obtain ⟨target, htarget⟩ := hfound hslot rfl
    rw [reverseItem_of_change heither hprevious, htarget]
    exact ⟨_, rfl⟩
  | reinstall haction =>
    obtain ⟨target, htarget⟩ := hfound rfl rfl
    rw [reverseItem_of_reinstall haction]
    exact ⟨_, map_eq_ok_iff.2 ⟨target, htarget, rfl⟩⟩
  | removal haction =>
    obtain ⟨target, htarget⟩ := hfound rfl rfl
    rw [reverseItem_of_removal haction]
    exact ⟨_, map_eq_ok_iff.2 ⟨target, htarget, rfl⟩⟩

theorem Reverses.offered {job : Goal.Job} (h : Reverses ix j before job) {b : Build}
    (hb : before = some b) : ∃ p, ix.Offers b p := by
  cases h with
  | remove => cases hb
  | change _ _ _ _ htarget =>
    cases hb
    exact ⟨_, htarget⟩
  | reinstall _ htarget =>
    cases hb
    exact ⟨_, htarget⟩
  | install _ htarget =>
    cases hb
    exact ⟨_, htarget⟩

end Reversing

/-! ## Reversing a record -/

theorem reverseItems_eq_ok_iff {id : Nat} {rs : List RecordItem} {jobs : List Goal.Job} :
    (reverseItems ix id rs).value = .ok jobs ↔
      List.Forall₂ (fun r job => reverseItem ix id r = .ok job) rs jobs := by
  induction rs generalizing jobs with
  | nil =>
    rw [List.forall₂_nil_left_iff]
    constructor
    · intro h
      cases h
      rfl
    · rintro rfl
      rfl
  | cons r rest ih =>
    unfold reverseItems
    rcases hr : reverseItem ix id r with e | job
    · refine ⟨nofun, fun h => ?_⟩
      cases h with
      | cons hjob _ =>
        rw [hr] at hjob
        cases hjob
    · rw [Traced.value_bind, Traced.value_bind, Traced.value_pure, map_eq_ok_iff]
      constructor
      · rintro ⟨rest', hrest, rfl⟩
        exact .cons hr (ih.1 hrest)
      · intro h
        cases h with
        | cons hjob hrest =>
          rw [hr] at hjob
          cases hjob
          exact ⟨_, ih.2 hrest, rfl⟩

/-- The record of a transaction all of whose items were carried out. -/
def doneRecord (id : Nat) (start now : Int) (items : List Item) : Record :=
  ⟨id, start, now, .done, items.map fun i => .ofItem i .applied none⟩

theorem invert_doneRecord (ix : Index) (id : Nat) (start now : Int) (items : List Item)
    (policy : Goal.Policy) :
    (invert (doneRecord id start now items) ix policy).value =
      (reverseItems ix id (items.reverse.map fun i => .ofItem i .applied none)).value.map
        fun jobs => ⟨jobs, policy⟩ := by
  have happlied : (items.map fun i => RecordItem.ofItem i .applied none).reverse.filter
      (fun i => decide (i.result = .applied)) =
        items.reverse.map fun i => .ofItem i .applied none := by
    rw [← List.map_reverse, List.filter_eq_self]
    intro r hr
    obtain ⟨i, -, rfl⟩ := List.mem_map.1 hr
    rfl
  rw [← happlied]
  rfl

theorem invert_eq_ok_iff {id : Nat} {start now : Int} {items : List Item} {policy : Goal.Policy}
    {undo : Goal} :
    (invert (doneRecord id start now items) ix policy).value = .ok undo ↔
      ∃ jobs, undo = ⟨jobs, policy⟩ ∧
        List.Forall₂ (fun j job => reverseItem ix id (.ofItem j .applied none) = .ok job)
          items.reverse jobs := by
  rw [invert_doneRecord, map_eq_ok_iff]
  simp only [reverseItems_eq_ok_iff, List.forall₂_map_left_iff]
  constructor
  · rintro ⟨jobs, hjobs, rfl⟩
    exact ⟨jobs, rfl, hjobs⟩
  · rintro ⟨jobs, rfl, hjobs⟩
    exact ⟨jobs, hjobs, rfl⟩

end History

/-! ## Undoing a plan -/

/-- One of the items is in the slot. -/
def Item.Touch (items : List Item) (slot : Slot) : Prop := ∃ i ∈ items, i.package.slot = slot

namespace Goal.Solves

open History

variable {g : Goal} {ix ix' : Index} {items : List Item} {outcome : Solver.Outcome}
  (h : g.Solves ix items outcome) {id : Nat} {start now : Int} {policy : Policy}

include h

/-- The goal that undoes a plan reverses its items, last to first. -/
theorem reverses_of_invert {undo : Goal}
    (hundo : (invert (doneRecord id start now items) ix' policy).value = .ok undo) :
    undo.policy = policy ∧
      List.Forall₂ (fun i job => Reverses ix' i (ix.buildAt? i.package.slot) job) items.reverse
        undo.jobs := by
  obtain ⟨jobs, rfl, hjobs⟩ := invert_eq_ok_iff.1 hundo
  have hmem := (List.forall₂_and_left (p := (· ∈ items)) _ _).2
    ⟨fun i hi => List.mem_reverse.1 hi, hjobs⟩
  exact ⟨rfl, hmem.imp fun i job hjob => reverses_of_reverseItem (h.tells hjob.1) hjob.2⟩

/--
A plan that was carried out can be undone if and only if every build that stood in the slots of its
items is on offer.
-/
theorem exists_invert_iff (hplain : ∀ i ∈ items, i.package.IsPlain) :
    (∃ undo, (invert (doneRecord id start now items) ix' policy).value = .ok undo) ↔
      ∀ p ∈ ix.installedPackages, Item.Touch items p.slot → ∃ q, ix'.Offers p.build q := by
  constructor
  · rintro ⟨undo, hundo⟩ p hp ⟨i, hi, hslot⟩
    obtain ⟨-, hjobs⟩ := h.reverses_of_invert hundo
    obtain ⟨job, -, hjob⟩ := exists_of_forall₂ hjobs i (List.mem_reverse.2 hi)
    refine hjob.offered (Index.buildAt?_eq_some_iff.2 ⟨hslot.symm, ?_⟩)
    exact Index.isInstalled_iff.2 ⟨p, hp, rfl⟩
  · intro hoffered
    have hjob (i : Item) (hi : i ∈ items.reverse) :
        ∃ job, reverseItem ix' id (.ofItem i .applied none) = .ok job := by
      have hi := List.mem_reverse.1 hi
      refine exists_reverseItem (h.tells hi) (hplain i hi) fun b hb => ?_
      obtain ⟨hslot, hinstalled⟩ := Index.buildAt?_eq_some_iff.1 hb
      obtain ⟨p, hp, rfl⟩ := Index.isInstalled_iff.1 hinstalled
      exact hoffered p hp ⟨i, hi, hslot.symm⟩
    obtain ⟨jobs, hjobs⟩ := exists_forall₂ hjob
    exact ⟨⟨jobs, policy⟩, invert_eq_ok_iff.2 ⟨jobs, rfl, hjobs⟩⟩

end Goal.Solves

end Provision
