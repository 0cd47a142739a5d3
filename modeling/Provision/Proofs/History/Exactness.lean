import Provision.Proofs.Goal.Solvable
import Provision.Proofs.History.Asking
import Provision.Proofs.Solver.Accepted

/-!
# When undoing restores what was installed

Each request of an undo is met in the end (`Undoing.holds`, `Undoing.not_holds`), since removals have
only what the first transaction brought into empty slots as their targets. So every build that was
in a touched slot is back. What is left to go wrong is that the search does more than it was asked:
the undo restores what was installed if and only if it stays within the slots that the first
transaction touched and brings nothing into those that were empty (`Undoing.restores_iff`).
-/

namespace Provision

open Solver

/-- The second index has the same builds installed. -/
def Index.Restores (ix ix' : Index) : Prop := ∀ b, ix'.isInstalled b ↔ ix.isInstalled b

theorem Index.restores_iff {ix ix' : Index} :
    ix.Restores ix' ↔ ∀ slot, ix'.buildAt? slot = ix.buildAt? slot := by
  constructor
  · intro h slot
    refine Option.ext fun b => ?_
    rw [buildAt?_eq_some_iff, buildAt?_eq_some_iff, h b]
  · intro h b
    have hiff := congrArg (· = some b) (h b.slot)
    simp only [buildAt?_eq_some_iff, true_and] at hiff
    exact Iff.of_eq hiff

/--
The items of a second transaction are in slots of the first, and bring nothing in where the first
installed something anew.
-/
structure Item.Within (items items' : List Item) : Prop where
  touch : ∀ j ∈ items', Touch items j.package.slot
  free : ∀ j ∈ items', j.action.isInbound → ∀ i ∈ items, i.action = .install →
    i.package.slot ≠ j.package.slot

namespace Goal

/-- A plan was carried out, and a second goal reverses its items. -/
structure Undoing (g : Goal) (ix : Index) (items : List Item) (outcome : Solver.Outcome)
    (ix' : Index) (undo : Goal) : Prop where
  solved : g.Solves ix items outcome
  realised : ix.Realises items ix'
  plain : ∀ i ∈ items, i.package.IsPlain
  jobs : List.Forall₂ (fun i job => History.Reverses ix' i (ix.buildAt? i.package.slot) job)
    items.reverse undo.jobs

namespace Undoing

variable {g undo : Goal} {ix ix' : Index} {items items' : List Item}
  {outcome outcome' : Solver.Outcome} (h : Undoing g ix items outcome ix' undo)

include h

/-! ## Requests of an undo -/

theorem mem_jobs {i : Item} (hi : i ∈ items) :
    ∃ j ∈ undo.jobs.zipIdx, History.Reverses ix' i (ix.buildAt? i.package.slot) j.1 := by
  obtain ⟨job, hjob, hreverses⟩ := exists_of_forall₂ h.jobs i (List.mem_reverse.2 hi)
  obtain ⟨k, hk⟩ := List.mem_iff_getElem?.1 hjob
  exact ⟨(job, k), List.mem_zipIdx_iff_getElem?.2 hk, hreverses⟩

theorem of_mem_jobs {j : Job × Nat} (hj : j ∈ undo.jobs.zipIdx) :
    ∃ i ∈ items, History.Reverses ix' i (ix.buildAt? i.package.slot) j.1 := by
  have hmem := List.mem_of_getElem? (List.mem_zipIdx_iff_getElem?.1 hj)
  obtain ⟨i, hi, hreverses⟩ := exists_of_forall₂ h.jobs.flip j.1 hmem
  exact ⟨i, List.mem_reverse.1 hi, hreverses⟩

theorem reversal {i : Item} (hi : i ∈ items) {job : Job}
    (hjob : History.Reverses ix' i (ix.buildAt? i.package.slot) job) (number : Nat) :
    Reversal ix' i (ix.buildAt? i.package.slot) number
      (Numbered.select ix' undo.policy ⟨number, job⟩).value :=
  reversal_select hjob (h.plain i hi) (h.realised.touched i hi) number

theorem asks_of_mem_requests {r : Request}
    (hr : r ∈ (selectAll ix' undo.policy undo.jobs).value.requests) :
    ∃ i ∈ items, r.weak = false ∧ i.Asks ix' (ix.buildAt? i.package.slot) r.task := by
  obtain ⟨j, hj, hselect⟩ := mem_requests_iff.1 hr
  obtain ⟨i, hi, hreverses⟩ := h.of_mem_jobs hj
  obtain ⟨-, hweak, hasks⟩ := (h.reversal hi hreverses j.2).asks r hselect
  exact ⟨i, hi, hweak, hasks⟩

theorem exists_request {i : Item} (hi : i ∈ items) :
    ∃ r ∈ (selectAll ix' undo.policy undo.jobs).value.requests,
      r.weak = false ∧ i.Asks ix' (ix.buildAt? i.package.slot) r.task := by
  obtain ⟨j, hj, hreverses⟩ := h.mem_jobs hi
  have hreversal := h.reversal hi hreverses j.2
  obtain ⟨r, hr⟩ := hreversal.exists_request
  obtain ⟨-, hweak, hasks⟩ := hreversal.asks r hr
  exact ⟨r, mem_requests_iff.2 ⟨j, hj, hr⟩, hweak, hasks⟩

theorem eq_of_slot {i j : Item} (hi : i ∈ items) (hj : j ∈ items)
    (hslot : i.package.slot = j.package.slot) : i = j :=
  List.inj_on_of_nodup_map h.solved.orders.nodup hi hj hslot

theorem action_of_before {i : Item} (hi : i ∈ items)
    (hbefore : ix.buildAt? i.package.slot = none) : i.action = .install := by
  have htells := h.solved.tells hi
  rw [hbefore] at htells
  cases htells
  assumption

theorem isInstalled_of_isInbound {i : Item} (hi : i ∈ items) (hinbound : i.action.isInbound) :
    i.package ∈ ix'.installedPackages := by
  rw [Index.mem_installedPackages_iff, h.realised.touched i hi, Index.holdsAfter, if_pos hinbound]

theorem wellPosed {r : Request} (hr : r ∈ (selectAll ix' undo.policy undo.jobs).value.requests) :
    r.task.WellPosed ix' := by
  obtain ⟨i, hi, -, hasks⟩ := h.asks_of_mem_requests hr
  generalize r.task = task at hasks
  generalize ix.buildAt? i.package.slot = before at hasks
  cases hasks with
  | remove haction =>
    intro t ht
    rw [List.mem_singleton.1 ht]
    have hmem := h.isInstalled_of_isInbound hi (haction ▸ rfl)
    exact Index.isInstalled_iff.2 ⟨_, hmem, rfl⟩
  | install _ _ hne _ => exact hne
  | reinstall haction hcopy =>
    have hmem := h.isInstalled_of_isInbound hi (haction ▸ rfl)
    exact Index.isInstalled_iff.2 ⟨_, hmem, hcopy.build.symm⟩

/-! ## What the requests of an undo achieve -/

variable (h' : undo.Solves ix' items' outcome')

include h'

theorem cleanRun : ∃ m, outcome'.changes = (Scope.ofIndex ix' undo.policy.solver).changes m ∧
    CleanRun ix' undo.policy.solver (selectAll ix' undo.policy undo.jobs).value.requests m :=
  cleanRun_of_solve h'.solve h'.accepted fun _ hr => h.wellPosed hr

omit h' in
/-- Only what the first transaction brought into an empty slot is a target of a removal. -/
theorem target_of_removal {c : Carried} {policy : Solver.Policy}
    (hc : c ∈ carriedOut ix' policy (selectAll ix' undo.policy undo.jobs).value.requests)
    {targets : List Package} (htask : c.request.task = .remove targets) {t : Package}
    (ht : t ∈ targets) : ∃ i ∈ items, i.action = .install ∧ t = i.package := by
  obtain ⟨i, hi, -, hasks⟩ := h.asks_of_mem_requests (mem_carriedOut hc).1
  rw [htask] at hasks
  generalize ix.buildAt? i.package.slot = before at hasks
  cases hasks with
  | remove haction => exact ⟨i, hi, haction, List.mem_singleton.1 ht⟩

section Run

variable {m : Model}
  (hrun : CleanRun ix' undo.policy.solver (selectAll ix' undo.policy undo.jobs).value.requests m)

include hrun

omit h' in
/-- A job for what was in the slot of an item before is carried out, and the slot is left alone then. -/
theorem exists_carried {i : Item} (hi : i ∈ items) {b : Build}
    (hb : ix.buildAt? i.package.slot = some b) :
    ∃ c, (Scope.ofIndex ix' undo.policy.solver).Accepts c ∧ c.before.Keyed ∧
      i.Asks ix' (some b) c.request.task ∧ c.after.Holds b ∧ Model.SameAt b.slot c.after m := by
  obtain ⟨r, hr, hweak, hasks⟩ := h.exists_request hi
  obtain ⟨earlier, c, later, hsplit, rfl, hrequest, haccepts, hbefore⟩ :=
    hrun.exists_split hr hweak
  rw [hb] at hasks
  obtain ⟨hholds, hdecided, huntargeted⟩ : c.after.Holds b ∧ c.after.isDecided b.slot ∧
      ∀ j ∈ items, j.action = .install → j.package.build ≠ b := by
    generalize htask : c.request.task = task at hasks
    cases hasks with
    | install _ hgone _ hcandidates =>
      obtain ⟨k, hk, hholds, hdecided⟩ := haccepts.install hrequest hbefore.keyed htask
      have hbuild := (hcandidates k hk).build
      rw [show k.slot = b.slot from congrArg Build.slot hbuild] at hdecided
      rw [hbuild] at hholds
      refine ⟨hholds, hdecided, fun j hj haction heq => hgone ?_⟩
      exact Index.isInstalled_iff.2 ⟨_, h.isInstalled_of_isInbound hj (haction ▸ rfl), heq⟩
    | reinstall haction hcopy =>
      obtain ⟨hpresent, -, hdecided⟩ := haccepts.reinstall hbefore.keyed htask
      have hslot := congrArg Build.slot hcopy.build
      rw [show Package.slot _ = i.package.build.slot from hslot] at hpresent hdecided
      refine ⟨⟨_, hpresent, hcopy.build⟩, hdecided, fun j hj hinstall heq => ?_⟩
      rw [h.eq_of_slot hj hi (congrArg Build.slot heq), haction] at hinstall
      cases hinstall
  refine ⟨c, haccepts, hbefore.keyed, hasks, hholds, ?_⟩
  refine hrun.holds_after hsplit hdecided hholds fun d hd targets htask t ht => ?_
  have hmem : d ∈ carriedOut ix' undo.policy.solver
      (selectAll ix' undo.policy undo.jobs).value.requests := by
    rw [hsplit]
    exact List.mem_append_right earlier (List.mem_cons_of_mem c hd)
  obtain ⟨j, hj, haction, rfl⟩ := h.target_of_removal hmem htask ht
  exact huntargeted j hj haction

omit h' in
/-- What was in the slot of an item before is there in the end. -/
theorem holds {i : Item} (hi : i ∈ items) {b : Build}
    (hb : ix.buildAt? i.package.slot = some b) : m.Holds b := by
  obtain ⟨c, -, -, -, hholds, hsame⟩ := h.exists_carried hrun hi hb
  exact hsame.holds hholds

omit h' in
/-- What the first transaction brought into an empty slot is gone in the end. -/
theorem not_holds {i : Item} (hi : i ∈ items) (hb : ix.buildAt? i.package.slot = none) :
    ¬ m.Holds i.package.build := by
  obtain ⟨r, hr, hweak, hasks⟩ := h.exists_request hi
  obtain ⟨earlier, c, later, hsplit, rfl, hrequest, haccepts, hbefore⟩ :=
    hrun.exists_split hr hweak
  rw [hb] at hasks
  generalize htask : c.request.task = task at hasks
  cases hasks with
  | remove haction =>
    have hmem := h.isInstalled_of_isInbound hi (haction ▸ rfl)
    have hinstalled : ix'.isInstalled i.package.build := Index.isInstalled_iff.2 ⟨_, hmem, rfl⟩
    obtain ⟨hdecided, hgone, -⟩ := haccepts.remove hrequest hbefore htask
      (List.mem_singleton_self i.package) (exists_installed undo.policy.solver hinstalled)
    have hsame := hrun.sameAt_after hsplit hdecided fun d hd =>
      hrun.spares_of_not_holds hinstalled hgone (by
        rw [hsplit]
        exact List.mem_append_right earlier (List.mem_cons_of_mem c hd))
    rintro ⟨p, hp, hbuild⟩
    exact hgone ⟨p, hsame.present ▸ hp, hbuild⟩

omit h' in
/-- Every item has to be undone by some change. -/
theorem changes_ne_nil {i : Item} (hi : i ∈ items) :
    (Scope.ofIndex ix' undo.policy.solver).changes m ≠ [] := by
  intro hnil
  have hdisciplined := hrun.orderly.disciplined
  have hsame (p : Package) : p ∈ ix'.installedPackages ↔ m.present[p.slot]? = some p := by
    rw [← mem_worldWith_changes_iff hdisciplined, hnil]
    exact Index.mem_exchange_nil_iff.symm
  rcases hbefore : ix.buildAt? i.package.slot with _ | b
  · have hinbound : i.action.isInbound := h.action_of_before hi hbefore ▸ rfl
    have hinstalled := h.isInstalled_of_isInbound hi hinbound
    exact h.not_holds hrun hi hbefore ⟨i.package, (hsame i.package).1 hinstalled, rfl⟩
  · obtain ⟨c, haccepts, hkeyed, hasks, hholds, hstays⟩ := h.exists_carried hrun hi hbefore
    generalize htask : c.request.task = task at hasks
    cases hasks with
    | install _ hgone =>
      obtain ⟨p, hp, rfl⟩ := hstays.holds hholds
      exact hgone (Index.isInstalled_iff.2 ⟨p, (hsame p).2 hp, rfl⟩)
    | @reinstall _ copy hcopy =>
      obtain ⟨hpresent, hmarked, -⟩ := haccepts.reinstall hkeyed htask
      rw [show i.package.build.slot = copy.slot from congrArg Build.slot hcopy.build.symm] at hstays
      have hchanged : copy ∈ (Scope.ofIndex ix' undo.policy.solver).changed m :=
        Scope.mem_changed_iff.2 ⟨hdisciplined.keyed.mem_packages_iff.2 (hstays.present ▸ hpresent),
          Scope.isChanged_of_isReinstalled (hstays.isReinstalled ▸ hmarked)⟩
      rw [← Scope.mem_broughtIn_iff_mem_changed hdisciplined.keyed, hnil] at hchanged
      cases hchanged

end Run

/-! ## What is installed after an undo -/

omit h' in
theorem cleaningJobs_eq_nil : undo.cleaningJobs = [] := by
  unfold cleaningJobs
  rw [List.map_eq_nil_iff, List.filter_eq_nil_iff]
  intro j hj hcleans
  obtain ⟨i, -, hreverses⟩ := h.of_mem_jobs hj
  generalize j.1 = job at hreverses hcleans
  generalize ix.buildAt? i.package.slot = before at hreverses
  cases hreverses <;> simp at hcleans

omit h' in
/-- What a search without problems has found can be planned. -/
theorem exists_planChanges (hends : undo.SearchEnds ix' outcome') (hnone : outcome'.problems = []) :
    ∃ items' advisories, (planChanges ix' (undo.toBePlanned ix' outcome')
      (selectAll ix' undo.policy undo.jobs).value.advisories).value = .solved items' advisories := by
  obtain ⟨m, hchanges, hrun⟩ := cleanRun_of_solve hends hnone fun _ hr => h.wellPosed hr
  rw [toBePlanned, h.cleaningJobs_eq_nil]
  refine Goal.exists_planChanges ix' ?_ fun hnil => ?_
  · show (outcome'.changes.map (·.package.slot)).Nodup
    rw [hchanges]
    exact Scope.nodup_changes hrun.orderly.disciplined.keyed Scope.slot_installed_ofIndex
  · have hitems : items = [] := List.eq_nil_iff_forall_not_mem.2 fun i hi =>
      h.changes_ne_nil hrun hi (hchanges ▸ hnil)
    have hjobs := h.jobs
    rw [hitems, List.reverse_nil, List.forall₂_nil_left_iff] at hjobs
    rw [hjobs]
    rfl

omit h' in
/-- An undo has a plan just if nothing keeps it from being planned. -/
theorem exists_resolve_iff (hix : ix'.ProvidesAgree) :
    (∃ items' advisories, (undo.resolve ix').value = .ok (.solved items' advisories)) ↔
      undo.Solvable ix' := by
  refine Goal.exists_resolve_iff hix (fun r hr => ?_) fun _ => h.exists_planChanges
  obtain ⟨i, -, hweak, -⟩ := h.asks_of_mem_requests hr
  refine ⟨hweak, fun htask => ?_⟩
  have hposed := h.wellPosed hr
  rw [htask] at hposed
  exact hposed rfl

/-- The items of the undo are the changes that the search has found. -/
theorem orders : Plan.Orders items' outcome'.changes := by
  have horders := h'.orders
  rw [h.cleaningJobs_eq_nil] at horders
  exact horders

variable {ix'' : Index} (hrealised : ix'.Realises items' ix'')

include hrealised

/-- What is installed in the end is what the search has ended with. -/
theorem installed_end {m : Model}
    (hchanges : outcome'.changes = (Scope.ofIndex ix' undo.policy.solver).changes m)
    (hrun : CleanRun ix' undo.policy.solver (selectAll ix' undo.policy undo.jobs).value.requests m)
    (p : Package) : p ∈ ix''.installedPackages ↔ m.present[p.slot]? = some p := by
  rw [hrealised.mem_iff h'.fits h'.orders.nodup, Index.mem_worldAfter_iff (h.orders h'), hchanges,
    mem_worldWith_changes_iff hrun.orderly.disciplined]

omit hrealised in
/-- A package is put in place again only in a slot where the first transaction has done so. -/
theorem touch_of_reinstall {j : Item} (hj : j ∈ items') (haction : j.action = .reinstall) :
    Item.Touch items j.package.slot := by
  obtain ⟨c, hc, position, rfl⟩ := (h.orders h').of_mem j hj
  obtain ⟨m, hchanges, hm⟩ := h'.exists_model
  rw [hchanges] at hc
  rcases Scope.mem_changes_iff.1 hc with ⟨p, hp, hchange⟩ | ⟨p, -, hchange⟩
  · obtain ⟨rfl, -, harrival⟩ := Scope.inbound?_eq_some hchange
    rw [show c.action = .reinstall from haction] at harrival
    have hpresent := hm.disciplined.keyed.mem_packages_iff.1 hp
    cases harrival with
    | reinstall hold hbuild hmarked =>
      cases hm.disciplined.origin _ _ hpresent with
      | left _ hunmarked =>
        rw [hmarked] at hunmarked
        cases hunmarked
      | chosen _ hnew => exact absurd hbuild (hnew _ hold)
      | again hrequest htask _ =>
        obtain ⟨i, hi, -, hasks⟩ := h.asks_of_mem_requests hrequest
        rw [htask] at hasks
        generalize ix.buildAt? i.package.slot = before at hasks
        cases hasks with
        | reinstall _ hcopy => exact ⟨i, hi, congrArg Build.slot hcopy.build.symm⟩
  · have hremoval := (Scope.removal?_eq_some hchange).isRemoval
    rw [show c.action = .reinstall from haction] at hremoval
    cases hremoval

/-- An undo that stays within what was touched restores what was installed. -/
theorem restores_of_within (hwithin : Item.Within items items') : ix.Restores ix'' := by
  obtain ⟨m, hchanges, hrun⟩ := h.cleanRun h'
  have hend := h.installed_end h' hrealised hchanges hrun
  rw [Index.restores_iff]
  intro slot
  by_cases htouch : Item.Touch items slot
  · obtain ⟨i, hi, rfl⟩ := htouch
    rcases hbefore : ix.buildAt? i.package.slot with _ | b
    · rcases hafter : ix''.buildAt? i.package.slot with _ | b
      · rfl
      · obtain ⟨hslot, hinstalled⟩ := Index.buildAt?_eq_some_iff.1 hafter
        obtain ⟨p, hp, rfl⟩ := Index.isInstalled_iff.1 hinstalled
        have haction := h.action_of_before hi hbefore
        have hmem := hp
        rw [hrealised.mem_iff h'.fits h'.orders.nodup, Index.worldAfter, Index.mem_exchange_iff]
          at hmem
        rcases hmem with ⟨hold, -, -⟩ | hbrought
        · have heq := Index.installed_unique hold
            (h.isInstalled_of_isInbound hi (haction ▸ rfl)) hslot
          refine absurd ⟨p, ?_, congrArg Package.build heq⟩ (h.not_holds hrun hi hbefore)
          rw [← heq]
          exact (hend p).1 hp
        · obtain ⟨j, hj, hinbound, rfl⟩ := Item.mem_broughtIn_iff.1 hbrought
          exact absurd hslot.symm (hwithin.free j hj hinbound i hi haction)
    · obtain ⟨p, hp, rfl⟩ := h.holds hrun hi hbefore
      have hslot := (Index.buildAt?_eq_some_iff.1 hbefore).1
      rw [← hslot]
      have hslot' : p.slot = p.build.slot := rfl
      refine Index.buildAt?_eq_some_iff.2 ⟨rfl, Index.isInstalled_iff.2 ⟨p, ?_, rfl⟩⟩
      exact (hend p).2 hp
  · have hfirst := h.realised.untouched slot fun i hi heq => htouch ⟨i, hi, heq⟩
    have hsecond := hrealised.untouched slot fun j hj heq => htouch (heq ▸ hwithin.touch j hj)
    unfold Index.buildAt? Index.installedAt?
    rw [hsecond, hfirst]

/--
An undo restores what was installed if and only if it stays within the slots that the first
transaction touched and brings nothing into those that were empty.
-/
theorem restores_iff : ix.Restores ix'' ↔ Item.Within items items' := by
  refine ⟨fun hrestores => ?_, h.restores_of_within h' hrealised⟩
  rw [Index.restores_iff] at hrestores
  have hafter (j : Item) (hj : j ∈ items') :
      ix''.buildAt? j.package.slot = (Index.holdsAfter j).map Package.build := by
    unfold Index.buildAt?
    rw [hrealised.touched j hj]
  refine ⟨fun j hj => ?_, fun j hj hinbound i hi haction hslot => ?_⟩
  · by_contra htouch
    have hfirst := h.realised.untouched j.package.slot fun i hi heq => htouch ⟨i, hi, heq⟩
    have hsame : ix'.buildAt? j.package.slot = ix.buildAt? j.package.slot := by
      unfold Index.buildAt? Index.installedAt?
      rw [hfirst]
    -- What the item has left is what was there before it.
    have htells := h'.tells hj
    rw [hsame, ← hrestores, hafter j hj] at htells
    unfold Index.holdsAfter at htells
    split at htells
    · rename_i hinbound
      rw [Option.map_some] at htells
      generalize hbefore : some j.package.build = before at htells
      cases htells with
      | install => cases hbefore
      | change _ _ hbuild _ => exact hbuild (Option.some.inj hbefore).symm
      | reinstall haction => exact htouch (h.touch_of_reinstall h' hj haction)
      | removal hremoval => exact Scope.not_isInbound_of_isRemoval hremoval hinbound
    · rename_i houtbound
      cases htells with
      | install haction =>
        rw [haction] at houtbound
        exact houtbound rfl
  · have hbefore := (h.solved.tells hi).eq_none haction
    have hheld := hafter j hj
    rw [hrestores, ← hslot, hbefore, Index.holdsAfter, if_pos hinbound] at hheld
    cases hheld

end Undoing

end Goal

end Provision
