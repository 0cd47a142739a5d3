import Provision.Proofs.Construction
import Provision.Proofs.Goal.Lowering
import Provision.Proofs.Realisation

/-!
# Reasons that are inherited

A package that is upgraded should stay for the reason that the build before it was installed for.
What a transaction leaves in a slot depends on the item of that slot alone, and on what the slot held
at first (`applyAll_alone`), so it does not matter in which order the items are carried out.

1. In its own slot a package inherits the reason of the build that it replaces.
2. A build of its name for another architecture, which it displaces, is taken off by an item of its
   own. The package then gets the reason that its item gives, or the one of its own slot. So it has
   the reason of the displaced build only if that happens to be the same (`run_keepsReasons_iff`),
   and it may be another one (`not_all_keepReasons`).
-/

namespace Provision

open Index (SameOffers SameSlot)

variable {ix : Index}

namespace Index

/-! ## Items on their own -/

variable {ix' : Index}

/-- What an item leaves in its slot if it is carried out on the index. -/
def leaves? (ix : Index) (i : Item) : Option Entry :=
  (ix.apply i).value.1.installed[i.package.slot]?

theorem SameSlot.installedEntry? {b : Build} (h : SameSlot b.slot ix ix') :
    ix'.installedEntry? b = ix.installedEntry? b := by
  unfold Index.installedEntry?
  rw [h]

theorem leaves?_of_isRemoval {i : Item} (h : i.action.isRemoval) :
    ix.leaves? i =
      if ix.isInstalled i.package.build then none else ix.installed[i.package.slot]? := by
  unfold leaves? apply applyRemoval
  rw [if_pos h]
  split
  · exact Std.TreeMap.getElem?_erase_self
  · rfl

theorem leaves?_of_not_isRemoval {i : Item} (h : ¬ i.action.isRemoval) :
    ix.leaves? i =
      match ix.offeredMetadata? i.package with
      | none => ix.installed[i.package.slot]?
      | some metadata => some ⟨i.package, { metadata with reason := some (ix.reasonAfter i) }⟩ := by
  unfold leaves? apply applyInbound
  rw [if_neg h]
  rcases ix.offeredMetadata? i.package with _ | metadata
  · rfl
  · exact Std.TreeMap.getElem?_insert_self

/-- It depends on nothing but the offers and the slot. -/
theorem SameSlot.leaves? {i : Item} (hslot : SameSlot i.package.slot ix ix')
    (hoffers : SameOffers ix ix') : ix'.leaves? i = ix.leaves? i := by
  have hreason : ix'.reasonAfter i = ix.reasonAfter i := by
    unfold reasonAfter
    rw [hslot]
  by_cases hremoval : i.action.isRemoval
  · have hinstalled : ix'.isInstalled i.package.build = ix.isInstalled i.package.build := by
      unfold isInstalled
      rw [SameSlot.installedEntry? hslot]
    rw [leaves?_of_isRemoval hremoval, leaves?_of_isRemoval hremoval, hinstalled, hslot]
  · rw [leaves?_of_not_isRemoval hremoval, leaves?_of_not_isRemoval hremoval,
      hoffers.offeredMetadata?, hreason, hslot]

end Index

/--
By induction on the items: the first leaves in its slot what it leaves there on its own, later ones do
not touch the slot, and they find their own slots as they were.
-/
theorem applyAll_alone (watch : Update → Traced Unit) {items : List Item}
    (hfits : ∀ i ∈ items, ix.Fits i) (hnodup : (items.map (·.package.slot)).Nodup)
    (total done : Nat) {i : Item} (hi : i ∈ items) :
    (Index.installer.applyAll watch total done ix items).value.state.installed[i.package.slot]? =
      ix.leaves? i := by
  induction items generalizing ix done with
  | nil => cases hi
  | cons first rest ih =>
    rw [List.map_cons, List.nodup_cons] at hnodup
    obtain ⟨hfresh, hnodup⟩ := hnodup
    have hne (j : Item) (hj : j ∈ rest) : first.package.slot ≠ j.package.slot := by
      intro heq
      exact hfresh (heq ▸ List.mem_map_of_mem hj)
    obtain ⟨next, happly, hoffers, hothers, -⟩ :=
      Index.apply_of_fits (hfits first List.mem_cons_self)
    have hrest (j : Item) (hj : j ∈ rest) : next.Fits j :=
      (hfits j (List.mem_cons_of_mem first hj)).of_same hoffers (hothers _ (hne j hj))
    rw [Installer.applyAll_cons_of_ok happly]
    rcases List.mem_cons.1 hi with rfl | hi
    · obtain ⟨outcome, hall, -, -, hrealises⟩ :=
        applyAll_realises watch hrest hnodup total (done + 1)
      have hsame := hrealises.untouched i.package.slot fun j hj heq => hne j hj heq.symm
      show (Index.installer.applyAll watch total (done + 1) next rest).value.state.installed[_]? = _
      rw [hall, hsame]
      unfold Index.leaves?
      rw [happly]
    · exact (ih hrest hnodup (done + 1) hi).trans ((hothers _ (hne i hi)).leaves? hoffers)

namespace Goal

variable {g : Goal} {items : List Item} {outcome : Solver.Outcome} {i : Item} {old : Package}

/-! ## The reasons of what is brought in -/

/-- What is brought in gets the reason that its item leaves it with. -/
theorem Solves.reason?_of_isInbound (h : g.Solves ix items outcome) (hi : i ∈ items)
    (hinbound : i.action.isInbound) (watch : Update → Traced Unit) (total done : Nat) :
    (Index.installer.applyAll watch total done ix items).value.state.reason? i.package.build =
      some (ix.reasonAfter i) := by
  have hremoval : ¬ i.action.isRemoval :=
    fun hremoval => Solver.Scope.not_isInbound_of_isRemoval hremoval hinbound
  obtain ⟨metadata, hmetadata⟩ := Option.isSome_iff_exists.1 ((h.fits i hi).inbound hinbound)
  have hslot := applyAll_alone watch h.fits h.orders.nodup total done hi
  rw [Index.leaves?_of_not_isRemoval hremoval, hmetadata] at hslot
  unfold Index.reason? Index.installedEntry?
  rw [show i.package.build.slot = i.package.slot from rfl, hslot, Option.filter_some,
    if_pos (decide_eq_true rfl)]
  rfl

theorem reason?_of_installedAt? {slot : Slot} (hold : ix.installedAt? slot = some old) :
    ix.reason? old.build = (ix.installed[slot]?).bind (·.metadata.reason) := by
  have hslot := Index.slot_installedAt? hold
  obtain ⟨entry, hentry, rfl⟩ := Option.map_eq_some_iff.1 hold
  unfold Index.reason? Index.installedEntry?
  rw [show entry.package.build.slot = slot from hslot, hentry, Option.filter_some,
    if_pos (decide_eq_true rfl)]

/-- In its own slot a package inherits the reason of what was there. -/
theorem Solves.reasonAfter_of_replaces (h : g.Solves ix items outcome) (hreasoned : ix.Reasoned)
    (hi : i ∈ items) (hold : i.replaces = some old) :
    ix.reason? old.build = some (ix.reasonAfter i) := by
  rcases h.leads hi with ⟨-, hnone⟩ | ⟨hreplaces, -⟩
  · rw [hold] at hnone
    cases hnone
  · have hinstalled := hreplaces.symm.trans hold
    rw [reason?_of_installedAt? hinstalled]
    obtain ⟨entry, hentry, -⟩ := Option.map_eq_some_iff.1 hinstalled
    obtain ⟨reason, hreason⟩ := Option.isSome_iff_exists.1 (hreasoned _ entry hentry)
    unfold Index.reasonAfter
    rw [hentry, hold, Option.bind_some, hreason]

/-- Whatever takes the place of an installed build is installed for its reason afterwards. -/
def KeepsReasons (ix : Index) (items : List Item) (after : Index) : Prop :=
  ∀ i ∈ items, i.action.isInbound → ∀ old, TakesPlaceOf items i old →
    after.reason? i.package.build = ix.reason? old.build

/--
Executing the plan of a solved goal leaves every package that replaces one in its own slot with the
reason of that one. So all reasons are kept just if what is displaced from other slots was installed
for the reason with which the item of the displacing package leaves it.
-/
theorem run_keepsReasons_iff {added : List Entry} (hbuilt : Index.Built added ix)
    {advisories : List Problem} (h : (g.resolve ix).value = .ok (.solved items advisories))
    (e : Execution) (hitems : e.transaction.items = items) (watch : Update → Traced Unit)
    (store : History.Store) (now : Int) :
    ∃ report, (e.run Index.installer ix watch store now).value = report ∧ report.isSuccess ∧
      (∀ i ∈ items, i.action.isInbound → ∀ old, i.replaces = some old →
        report.outcome.state.reason? i.package.build = ix.reason? old.build) ∧
      (KeepsReasons ix items report.outcome.state ↔
        ∀ i ∈ items, i.action.isInbound → ∀ r ∈ items, MakesRoomFor r i →
          ix.reason? r.package.build = some (ix.reasonAfter i)) := by
  obtain ⟨outcome, hsolves⟩ := resolve_cases h
  obtain ⟨report, hrun, -, hstate, -⟩ := hsolves.run hitems watch store now
  have houtcome := (Execution.run_value hrun).1
  rw [hitems] at houtcome
  have hafter (i : Item) (hi : i ∈ items) (hinbound : i.action.isInbound) :
      report.outcome.state.reason? i.package.build = some (ix.reasonAfter i) := by
    rw [houtcome]
    exact hsolves.reason?_of_isInbound hi hinbound watch _ 0
  have hinherits (i : Item) (hi : i ∈ items) (hinbound : i.action.isInbound) (old : Package)
      (hold : i.replaces = some old) :
      report.outcome.state.reason? i.package.build = ix.reason? old.build :=
    (hafter i hi hinbound).trans (hsolves.reasonAfter_of_replaces hbuilt.reasoned hi hold).symm
  refine ⟨report, hrun, decide_eq_true hstate, hinherits, ?_⟩
  constructor
  · intro hkeeps i hi hinbound r hr hroom
    rw [← hkeeps i hi hinbound r.package (.inr ⟨r, hr, hroom, rfl⟩)]
    exact hafter i hi hinbound
  · rintro hdisplaced i hi hinbound old (hold | ⟨r, hr, hroom, rfl⟩)
    · exact hinherits i hi hinbound old hold
    · rw [hafter i hi hinbound, hdisplaced i hi hinbound r hr hroom]

/-! ### An upgrade that changes the architecture -/

def plainApp : Package := ⟨⟨"app", "noarch", ⟨0, "1", none⟩⟩, systemRepo, none⟩

/-- An application for every architecture, and a newer build of it for one. -/
def plainIndex (reason : Reason) : Index :=
  (({} : Index).addInstalled plainApp { reason := some reason }).addOffered narrowOffer {}

theorem built_plainIndex (reason : Reason) :
    Index.Built [⟨narrowOffer, {}⟩] (plainIndex reason) :=
  .offered (.installed .empty plainApp { reason := some reason }) ⟨narrowOffer, {}⟩

def switchGoal : Goal where
  jobs := [⟨.upgrade, .pattern "app", {}⟩]

def arrivingItem : Item where
  package := narrowOffer
  action := .install
  reason := .user
  position := 0

def leavingItem : Item where
  package := plainApp
  action := .replaced
  reason := .dependency
  position := 1
  replacedBy := some narrowOffer

def switchItems : List Item := [arrivingItem, leavingItem]

theorem resolve_plain (reason : Reason) :
    (switchGoal.resolve (plainIndex reason)).value = .ok (.solved switchItems []) := by
  cbv

theorem reason?_plain (reason : Reason) :
    (plainIndex reason).reason? plainApp.build = some reason := by
  cbv

/-- Whatever the application was installed for, the user asked for the newer build. -/
theorem reasonAfter_arriving (reason : Reason) :
    (plainIndex reason).reasonAfter arrivingItem = .user := by
  cbv

def switchRun : Execution := ⟨⟨1, .inProgress, switchItems⟩, 0⟩

theorem run_keepsReasons_switch :
    Index.Built [⟨narrowOffer, {}⟩] (plainIndex .user) ∧
      (switchGoal.resolve (plainIndex .user)).value = .ok (.solved switchItems []) ∧
      ∃ report, (switchRun.run Index.installer (plainIndex .user) Update.ignore {} 0).value = report ∧
        report.isSuccess ∧ KeepsReasons (plainIndex .user) switchItems report.outcome.state := by
  have hbuilt := built_plainIndex .user
  have hresolve := resolve_plain .user
  obtain ⟨report, hrun, hsuccess, -, hkeeps⟩ :=
    run_keepsReasons_iff hbuilt hresolve switchRun rfl Update.ignore {} 0
  refine ⟨hbuilt, hresolve, report, hrun, hsuccess, hkeeps.2 ?_⟩
  intro i hi hinbound r hr hroom
  rcases List.mem_pair.1 hr with rfl | rfl
  · cases hroom.action
  · rcases List.mem_pair.1 hi with rfl | rfl
    · rw [reasonAfter_arriving]
      exact reason?_plain .user
    · cases hinbound

theorem not_all_keepReasons :
    ¬ ∀ (added : List Entry) (ix : Index) (g : Goal) (items : List Item) (advisories : List Problem)
      (e : Execution) (report : Report Index),
      Index.Built added ix → (g.resolve ix).value = .ok (.solved items advisories) →
        e.transaction.items = items →
          (e.run Index.installer ix Update.ignore {} 0).value = report → report.isSuccess →
            KeepsReasons ix items report.outcome.state := by
  intro hall
  have hresolve := resolve_plain .dependency
  obtain ⟨outcome, hsolves⟩ := resolve_cases hresolve
  obtain ⟨report, hrun, -, hstate, -⟩ := hsolves.run (e := switchRun) rfl Update.ignore {} 0
  have hplace : TakesPlaceOf switchItems arrivingItem plainApp :=
    .inr ⟨leavingItem, List.mem_cons_of_mem _ List.mem_cons_self, ⟨rfl, rfl⟩, rfl⟩
  have hkept := hall _ _ _ _ _ switchRun report (built_plainIndex .dependency) hresolve rfl hrun
    (decide_eq_true hstate) _ List.mem_cons_self rfl _ hplace
  have hafter : report.outcome.state.reason? arrivingItem.package.build = some .user := by
    rw [(Execution.run_value hrun).1, ← reasonAfter_arriving .dependency]
    exact hsolves.reason?_of_isInbound List.mem_cons_self rfl Update.ignore _ 0
  rw [hafter, reason?_plain] at hkept
  cases hkept

end Goal

end Provision
