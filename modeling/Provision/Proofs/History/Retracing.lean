import Provision.Proofs.History.Exactness
import Provision.Proofs.Solver.Following

/-!
# Undoing step by step

An undo goes back one item at a time, and each world on its way may ask for more (`Retraced`). If what
comes along is always what stood in a slot of the plan before, and what goes along is always what the
plan put into an empty one, then these are steps back as well, only earlier than their own jobs
(`Homeward`). If besides no world gets stuck, nothing that is taken off is protected, and each package
that is put in place once more is alone under its name (`Retraceable`), then every job is carried out
(`Undoing.leads_items`). So the undo has a plan, which stays within what the first transaction touched
(`Undoing.exists_resolve`).
-/

namespace Provision

open Solver

/-! ## Steps back -/

/-- What the job that undoes an item does itself. Any offer of a build may be taken. -/
inductive StepBack (ix ix' : Index) (i : Item) (st : Stage) : Stage → Prop
  | takeOff (hbefore : ix.buildAt? i.package.slot = none) (hopen : st.IsOpen i.package.slot) :
      StepBack ix ix' i st ({ st with erases := true }.drop [i.package])
  | bringBack {b : Build} {p : Package} (hbefore : ix.buildAt? i.package.slot = some b)
      (hopen : st.IsOpen i.package.slot) (hp : ix'.Offers b p) (hnew : ¬ ix'.isInstalled b) :
      StepBack ix ix' i st ({ st with erases := false }.fetch ix' p)
  | putAgain {b : Build} {p : Package} (hbefore : ix.buildAt? i.package.slot = some b)
      (hopen : st.IsOpen i.package.slot) (hp : ix'.Offers b p) (hsame : ix'.isInstalled b) :
      StepBack ix ix' i st ({ st with erases := false }.put p)
  /-- The slot has gone back before its turn. -/
  | pass (hback : ¬ st.IsOpen i.package.slot) :
      StepBack ix ix' i st { st with erases := (ix.buildAt? i.package.slot).isNone }

/-- A stage of an undo whose jobs for the items `done` have had their turn. -/
inductive Retraced (ix ix' : Index) (policy : Solver.Policy) : List Item → Stage → Prop
  | start : Retraced ix ix' policy [] {}
  | back {done : List Item} {i : Item} {st st' : Stage} (h : Retraced ix ix' policy done st)
      (hsound : ix'.Sound st.brought (st.world ix')) (hback : StepBack ix ix' i st st') :
      Retraced ix ix' policy (done ++ [i]) st'
  | asks {done : List Item} {st st' : Stage} (h : Retraced ix ix' policy done st)
      (hasks : st.Asks ix' policy st') : Retraced ix ix' policy done st'

/-- What was exchanged is on its way back. -/
structure Homeward (ix ix' : Index) (items done : List Item) (st : Stage) : Prop where
  /-- Only what the plan put into empty slots is taken off. -/
  taken : ∀ p ∈ st.taken, ∃ i ∈ items, i.action = .install ∧ i.package = p
  /-- Only what stood in a slot of the plan is brought in. -/
  brought : ∀ p ∈ st.brought, ix.isInstalled p.build ∧ ∃ i ∈ items, i.package.slot = p.slot ∧
    (ix'.isInstalled p.build → i ∈ done)
  nodup : (st.brought.map Package.slot).Nodup

/-- Less on the way back is on its way back as well. -/
theorem Homeward.of_sublist {ix ix' : Index} {items done : List Item} {st st' : Stage}
    (h : Homeward ix ix' items done st) (htaken : st'.taken ⊆ st.taken)
    (hbrought : st'.brought.Sublist st.brought) : Homeward ix ix' items done st' :=
  ⟨fun p hp => h.taken p (htaken hp), fun p hp => h.brought p (hbrought.subset hp),
    h.nodup.sublist (hbrought.map Package.slot)⟩

/-- Nothing gets in the way of undoing the items one after the other, the last one first. -/
structure Retraceable (ix ix' : Index) (policy : Goal.Policy) (items : List Item) : Prop where
  homeward : ∀ done rest st, items.reverse = done ++ rest →
    Retraced ix ix' policy.solver done st → Homeward ix ix' items done st
  tractable : ∀ done rest st, items.reverse = done ++ rest →
    Retraced ix ix' policy.solver done st → st.Tractable ix' policy.solver
  unprotected : ∀ i ∈ items, i.action = .install → i.package.name ∉ policy.protectedNames
  alone : ∀ i ∈ items, i.action = .reinstall → ∀ q ∈ ix'.installedPackages,
    q.name = i.package.name → q = i.package

theorem StepBack.isOpen {ix ix' : Index} {i : Item} {st st' : Stage} (h : StepBack ix ix' i st st')
    {slot : Slot} (hopen : st'.IsOpen slot) : st.IsOpen slot ∧ i.package.slot ≠ slot := by
  have hslot {b : Build} {p : Package} (hbefore : ix.buildAt? i.package.slot = some b)
      (hp : ix'.Offers b p) : p.slot = i.package.slot :=
    (congrArg Build.slot hp.build).trans (Index.buildAt?_eq_some_iff.1 hbefore).1
  cases h with
  | takeOff =>
    obtain ⟨hst, hne⟩ := Stage.isOpen_drop_iff.1 hopen
    exact ⟨hst, hne _ (List.mem_singleton_self _)⟩
  | bringBack hbefore _ hp =>
    obtain ⟨hst, hne⟩ := Stage.isOpen_of_fetch hopen
    exact ⟨hst, hslot hbefore hp ▸ hne⟩
  | putAgain hbefore _ hp =>
    obtain ⟨hst, hne⟩ := Stage.isOpen_put_iff.1 hopen
    exact ⟨hst, hslot hbefore hp ▸ hne⟩
  | pass hback =>
    refine ⟨hopen, ?_⟩
    rintro rfl
    exact hback hopen

/-- The slot of an item that has had its turn has gone back. -/
theorem Retraced.not_isOpen {ix ix' : Index} {policy : Solver.Policy} {done : List Item}
    {st : Stage} (h : Retraced ix ix' policy done st) {i : Item} (hi : i ∈ done) :
    ¬ st.IsOpen i.package.slot := by
  induction h with
  | start => cases hi
  | back _ _ hback ih =>
    intro hopen
    obtain ⟨hst, hne⟩ := hback.isOpen hopen
    rcases List.mem_append.1 hi with hi | hi
    · exact ih hi hst
    · rw [List.mem_singleton.1 hi] at hne
      exact hne rfl
  | asks _ hasks ih => exact fun hopen => ih hi (hasks.isOpen hopen)

namespace Solver.Scope

/-! ## Runs without problems -/

variable {s : Scope} {m m' : Model}

/-- The requests lead from one model to the other, whatever comes after them. -/
def Leads (s : Scope) (m : Model) (requests : List Request) (m' : Model) : Prop :=
  ∀ problems more, (s.performAll m problems (requests ++ more)).value =
    (s.performAll m' problems more).value

theorem Leads.nil (m : Model) : s.Leads m [] m := fun _ _ => rfl

theorem Leads.append {between : Model} {requests more : List Request}
    (h : s.Leads m requests between) (h' : s.Leads between more m') :
    s.Leads m (requests ++ more) m' := by
  intro problems rest
  rw [List.append_assoc, h, h']

theorem Leads.cons {between : Model} {request : Request} {rest : List Request}
    (h : (({ s with job := request.job } : Scope).perform m request.task).result = .ok between)
    (h' : s.Leads between rest m') : s.Leads m (request :: rest) m' := by
  intro problems more
  rw [List.cons_append, performAll_cons, h]
  dsimp only
  rw [performAll_withJob, h']

end Solver.Scope

namespace Goal.Undoing

open Solver.Scope

variable {g undo : Goal} {ix ix' : Index} {items : List Item} {outcome : Solver.Outcome}
  (h : Undoing g ix items outcome ix' undo)

include h

/-! ## Stages on the way back -/

section Stages

variable {done rest : List Item} {i : Item} {st : Stage}

/-- Nothing is both taken off and brought in. -/
theorem taken_ne_brought (hhome : Homeward ix ix' items done st) {p q : Package}
    (hp : p ∈ st.taken) (hq : q ∈ st.brought) : p.slot ≠ q.slot := by
  intro hslot
  obtain ⟨i, hi, haction, rfl⟩ := hhome.taken p hp
  have hbefore := (h.solved.tells hi).eq_none haction
  rw [hslot, Index.buildAt?_eq_some_iff.2 ⟨rfl, (hhome.brought q hq).1⟩] at hbefore
  cases hbefore

/-- What comes on the way back comes into a slot that nothing was done about. -/
theorem isOpen_of_fetch {p : Package} (hhome : Homeward ix ix' items done (st.fetch ix' p)) :
    st.IsOpen p.slot := by
  have hp : p ∈ (st.fetch ix' p).brought := List.mem_append_right _ (List.mem_singleton_self p)
  refine Stage.isOpen_iff.2 ⟨fun q hq => ?_, fun q hq => ?_⟩
  · exact h.taken_ne_brought hhome (List.mem_append_left _ hq) hp
  · have hnodup : ((st.brought ++ [p]).map Package.slot).Nodup := hhome.nodup
    rw [List.map_append, List.nodup_append] at hnodup
    exact hnodup.2.2 _ (List.mem_map_of_mem hq) _ (List.mem_singleton_self _)

theorem admits_of_fetch {p : Package} (hhome : Homeward ix ix' items done (st.fetch ix' p))
    (hnew : ¬ ix'.isInstalled p.build) : st.Admits ix' p := by
  refine ⟨h.isOpen_of_fetch hhome, hnew, fun q hq hdisplaces => ?_⟩
  have hgone : q ∈ (st.fetch ix' p).taken := by
    refine List.mem_append_right _ (List.mem_filter.2 ⟨?_, decide_eq_true hdisplaces⟩)
    exact Index.mem_exchange_iff.2 (.inr hq)
  exact h.taken_ne_brought hhome hgone (List.mem_append_left _ hq) rfl

/-- Whatever the worlds on the way back ask for can be done, and leads on on the way back. -/
theorem guides (hback : Retraceable ix ix' undo.policy items) (hsplit : items.reverse = done ++ rest)
    (erases : Bool) : Stage.Guides ix' undo.policy.solver fun st =>
      Retraced ix ix' undo.policy.solver done st ∧ st.erases = erases := by
  refine ⟨fun st p hst hdrops => ?_, fun st p hst hfetches => ?_,
    fun st hst => hback.tractable done rest st hsplit hst.1⟩
  · have hnext : Retraced ix ix' undo.policy.solver done (st.drop [p]) := .asks hst.1 (.drop hdrops)
    have hgone : p ∈ (st.drop [p]).taken := List.mem_append_right _ (List.mem_singleton_self p)
    refine ⟨fun hp => ?_, hnext, hst.2⟩
    exact h.taken_ne_brought (hback.homeward done rest _ hsplit hnext) hgone hp rfl
  · have hnext : Retraced ix ix' undo.policy.solver done (st.fetch ix' p) :=
      .asks hst.1 (.fetch hfetches)
    have hhome := hback.homeward done rest _ hsplit hnext
    refine ⟨h.admits_of_fetch hhome fun hinstalled => ?_, hnext, hst.2⟩
    have hp : p ∈ (st.fetch ix' p).brought := List.mem_append_right _ (List.mem_singleton_self p)
    obtain ⟨-, i, -, hslot, hdone⟩ := hhome.brought p hp
    exact hst.1.not_isOpen (hdone hinstalled) (hslot ▸ h.isOpen_of_fetch hhome)

/-- A slot that has gone back holds what stood there before. -/
theorem brought_of_not_isOpen {b : Build} (hhome : Homeward ix ix' items done st)
    (hbefore : ix.buildAt? i.package.slot = some b) (hback : ¬ st.IsOpen i.package.slot) :
    ∃ p ∈ st.brought, p.build = b ∧ ∃ j ∈ items, j.package.slot = i.package.slot ∧
      (ix'.isInstalled b → j ∈ done) := by
  rw [Stage.isOpen_iff] at hback
  push Not at hback
  by_cases htaken : ∀ p ∈ st.taken, p.slot ≠ i.package.slot
  · obtain ⟨p, hp, hslot⟩ := hback htaken
    obtain ⟨hinstalled, j, hj, hjslot, hdone⟩ := hhome.brought p hp
    have hbuild := Index.buildAt?_eq_some_iff.2 ⟨hslot, hinstalled⟩
    rw [hbefore, Option.some.injEq] at hbuild
    exact ⟨p, hp, hbuild.symm, j, hj, hjslot.trans hslot, hbuild ▸ hdone⟩
  · push Not at htaken
    obtain ⟨p, hp, hslot⟩ := htaken
    obtain ⟨j, hj, haction, rfl⟩ := hhome.taken p hp
    rw [← hslot, (h.solved.tells hj).eq_none haction] at hbefore
    cases hbefore

/-- What the plan has put into an empty slot is gone once the slot has gone back. -/
theorem taken_of_not_isOpen (hi : i ∈ items) (hhome : Homeward ix ix' items done st)
    (hbefore : ix.buildAt? i.package.slot = none) (hback : ¬ st.IsOpen i.package.slot) :
    i.package ∈ st.taken ∧ ∀ q ∈ st.brought, q.slot ≠ i.package.slot := by
  have hfree (q : Package) (hq : q ∈ st.brought) : q.slot ≠ i.package.slot := by
    intro hslot
    rw [← hslot, Index.buildAt?_eq_some_iff.2 ⟨rfl, (hhome.brought q hq).1⟩] at hbefore
    cases hbefore
  refine ⟨?_, hfree⟩
  rw [Stage.isOpen_iff] at hback
  by_contra hkept
  refine hback ⟨fun p hp hslot => ?_, hfree⟩
  obtain ⟨j, hj, -, rfl⟩ := hhome.taken p hp
  rw [h.eq_of_slot hj hi hslot] at hp
  exact hkept hp

end Stages

/-! ## The job of one item -/

omit h in
/-- Between two jobs of an undo, when those for the items `done` have had their turn. -/
def Paused (ix ix' : Index) (policy : Solver.Policy) (done : List Item) (erases : Bool)
    (m : Model) : Prop :=
  (Scope.ofIndex ix' policy).Pauses ix'
    (fun st => Retraced ix ix' policy done st ∧ st.erases = erases) m

section Item

variable {done rest : List Item} {i : Item} {m : Model} {erases : Bool}
  (hsplit : items.reverse = done ++ i :: rest)

include hsplit

omit h in
theorem split_next : items.reverse = (done ++ [i]) ++ rest := by
  rw [hsplit, List.append_assoc, List.singleton_append]

omit h in
theorem mem_of_split : i ∈ items := by
  rw [← List.mem_reverse, hsplit]
  exact List.mem_append_right done List.mem_cons_self

theorem not_mem_done : i ∉ done := by
  have hnodup : items.reverse.Nodup :=
    List.nodup_reverse.2 (List.Nodup.of_map _ h.solved.orders.nodup)
  rw [hsplit, List.nodup_append] at hnodup
  exact fun hi => hnodup.2.2 i hi i List.mem_cons_self rfl

variable (hback : Retraceable ix ix' undo.policy items)

include hback

/-- The request for an item that has filled an empty slot takes its package off. -/
theorem perform_takeOff (hbefore : ix.buildAt? i.package.slot = none)
    (hm : Paused ix ix' undo.policy.solver done erases m) {r : Request}
    (htask : r.task = .remove [i.package]) :
    ∃ m', (({ Scope.ofIndex ix' undo.policy.solver with job := r.job } : Scope).perform m
        r.task).result = .ok m' ∧
      Paused ix ix' undo.policy.solver (done ++ [i]) true m' := by
  obtain ⟨st, hmirrors, ⟨hst, -⟩, hsound⟩ := hm.withJob r.job
  have hi := mem_of_split hsplit
  have hinstalled := h.isInstalled_of_isInbound hi (h.action_of_before hi hbefore ▸ rfl)
  have hwith := hmirrors.attitude true
  have hguides := h.guides hback (split_next hsplit) true
  have hserves := serves_ofIndex ix' undo.policy.solver r.job
  rw [htask]
  by_cases hopen : st.IsOpen i.package.slot
  · have hnext : Retraced ix ix' undo.policy.solver (done ++ [i]) _ :=
      .back hst hsound (.takeOff hbefore hopen)
    obtain ⟨m', hperform, hm'⟩ := remove_pauses hguides hserves rfl
      (hwith.eraseTarget_of_open hinstalled hopen) ⟨hnext, rfl⟩
    exact ⟨m', hperform, hm'.withJob 0⟩
  · have hnext : Retraced ix ix' undo.policy.solver (done ++ [i]) _ :=
      .back hst hsound (.pass hopen)
    rw [Option.isNone_iff_eq_none.2 hbefore] at hnext
    obtain ⟨htaken, hfree⟩ := h.taken_of_not_isOpen hi
      (hback.homeward _ rest _ (split_next hsplit) hnext) hbefore hopen
    obtain ⟨m', hperform, hm'⟩ := remove_pauses hguides hserves
      (hwith.eraseTarget_of_taken htaken hfree) hwith ⟨hnext, rfl⟩
    exact ⟨m', hperform, hm'.withJob 0⟩

/-- The first request for a build brings in one of its offers, unless it is back already. -/
theorem perform_bringBack {b : Build} (hbefore : ix.buildAt? i.package.slot = some b)
    (hm : Paused ix ix' undo.policy.solver done erases m) (hgone : ¬ ix'.isInstalled b)
    {c : Package} (hc : ix'.Offers b c) (others : List Package) (job : Nat) :
    ∃ m', (({ Scope.ofIndex ix' undo.policy.solver with job := job } : Scope).perform m
        (.install (c :: others))).result = .ok m' ∧
      Paused ix ix' undo.policy.solver (done ++ [i]) false m' := by
  obtain ⟨st, hmirrors, ⟨hst, -⟩, hsound⟩ := hm.withJob job
  have hguides := h.guides hback (split_next hsplit) false
  have hserves := serves_ofIndex ix' undo.policy.solver job
  have hhome {st : Stage} := hback.homeward (done ++ [i]) rest st (split_next hsplit)
  by_cases hopen : st.IsOpen i.package.slot
  · have hnext : Retraced ix ix' undo.policy.solver (done ++ [i]) _ :=
      .back hst hsound (.bringBack hbefore hopen hc hgone)
    have hadmits := h.admits_of_fetch (hhome hnext) (hc.build.symm ▸ hgone)
    obtain ⟨placed, hplace, hplaced⟩ := hmirrors.place hserves.views hadmits .user
    obtain ⟨m', hperform, hm'⟩ := install_pauses hguides hserves others hplace hplaced
      ⟨hnext, rfl⟩ rfl
    exact ⟨m', hperform, hm'.withJob 0⟩
  · have hnext : Retraced ix ix' undo.policy.solver (done ++ [i]) _ :=
      .back hst hsound (.pass hopen)
    rw [hbefore] at hnext
    obtain ⟨p, hp, hbuild, -⟩ := h.brought_of_not_isOpen (hhome hnext) hbefore hopen
    obtain ⟨m', hperform, hm'⟩ := install_pauses hguides hserves others
      (hmirrors.place_again hp (hbuild.trans hc.build.symm) .user) hmirrors ⟨hnext, rfl⟩ rfl
    exact ⟨m', hperform, hm'.withJob 0⟩

/-- A build that is still installed is put in place once more, and not before its turn. -/
theorem perform_putAgain {b : Build} (hbefore : ix.buildAt? i.package.slot = some b)
    (hm : Paused ix ix' undo.policy.solver done erases m) (hsame : ix'.isInstalled b)
    {copy : Package} (hcopy : ix'.Offers b copy) (job : Nat) :
    ∃ m', (({ Scope.ofIndex ix' undo.policy.solver with job := job } : Scope).perform m
        (.reinstall copy)).result = .ok m' ∧
      Paused ix ix' undo.policy.solver (done ++ [i]) false m' := by
  obtain ⟨st, hmirrors, ⟨hst, -⟩, hsound⟩ := hm.withJob job
  have hslot : copy.slot = i.package.slot :=
    (congrArg Build.slot hcopy.build).trans (Index.buildAt?_eq_some_iff.1 hbefore).1
  have hopen : st.IsOpen i.package.slot := by
    by_contra hopen
    obtain ⟨-, -, -, j, hj, hjslot, hdone⟩ :=
      h.brought_of_not_isOpen (hback.homeward done _ st hsplit hst) hbefore hopen
    exact h.not_mem_done hsplit (h.eq_of_slot hj (mem_of_split hsplit) hjslot ▸ hdone hsame)
  have hnext : Retraced ix ix' undo.policy.solver (done ++ [i]) _ :=
    .back hst hsound (.putAgain hbefore hopen hcopy hsame)
  obtain ⟨m', hperform, hm'⟩ := reinstall_pauses (h.guides hback (split_next hsplit) false)
    (serves_ofIndex ix' undo.policy.solver job) hmirrors (hslot.symm ▸ hopen) ⟨hnext, rfl⟩ rfl
  exact ⟨m', hperform, hm'.withJob 0⟩

/-- The first request for a build is carried out. -/
theorem perform_asked {b : Build} (hbefore : ix.buildAt? i.package.slot = some b)
    (hm : Paused ix ix' undo.policy.solver done erases m) {r : Request}
    (hasks : i.Asks ix' (some b) r.task) :
    ∃ m', (({ Scope.ofIndex ix' undo.policy.solver with job := r.job } : Scope).perform m
        r.task).result = .ok m' ∧
      Paused ix ix' undo.policy.solver (done ++ [i]) false m' := by
  generalize r.task = task at hasks
  cases hasks with
  | install _ hgone hne hcandidates =>
    obtain ⟨c, others, rfl⟩ := List.exists_cons_of_ne_nil hne
    exact h.perform_bringBack hsplit hback hbefore hm hgone (hcandidates c List.mem_cons_self)
      others r.job
  | reinstall haction hcopy =>
    have hinstalled := h.isInstalled_of_isInbound (mem_of_split hsplit) (haction ▸ rfl)
    exact h.perform_putAgain hsplit hback hbefore hm
      (Index.isInstalled_iff.2 ⟨_, hinstalled, rfl⟩) hcopy r.job

/-- Requests for a build that is back are carried out once more. -/
theorem leads_again {b : Build} (hbefore : ix.buildAt? i.package.slot = some b)
    (hm : Paused ix ix' undo.policy.solver (done ++ [i]) false m) {requests : List Request}
    (hrequests : ∀ r ∈ requests, ∃ c others, r.task = .install (c :: others) ∧ c.build = b) :
    ∃ m', (Scope.ofIndex ix' undo.policy.solver).Leads m requests m' ∧
      Paused ix ix' undo.policy.solver (done ++ [i]) false m' := by
  induction requests generalizing m with
  | nil => exact ⟨m, .nil m, hm⟩
  | cons r rest ih =>
    obtain ⟨c, others, htask, hbuild⟩ := hrequests r List.mem_cons_self
    obtain ⟨st, hmirrors, ⟨hst, hkeeps⟩, hsound⟩ := hm.withJob r.job
    have hback' := hst.not_isOpen (List.mem_append_right done (List.mem_singleton_self i))
    obtain ⟨p, hp, hp', -⟩ := h.brought_of_not_isOpen
      (hback.homeward _ _ st (split_next hsplit) hst) hbefore hback'
    have hstage : { st with erases := false } = st := by
      rw [← hkeeps]
    obtain ⟨between, hperform, hbetween⟩ := install_pauses
      (h.guides hback (split_next hsplit) false) (serves_ofIndex ix' undo.policy.solver r.job)
      others (hmirrors.place_again hp (hp'.trans hbuild.symm) .user) (hstage ▸ hmirrors)
      ⟨hst, hkeeps⟩ hkeeps
    obtain ⟨m', hleads, hm'⟩ := ih (hbetween.withJob 0) fun r' hr' =>
      hrequests r' (List.mem_cons_of_mem r hr')
    exact ⟨m', .cons (htask ▸ hperform) hleads, hm'⟩

/-- The requests for one item are carried out. -/
theorem leads_item (hm : Paused ix ix' undo.policy.solver done erases m) {job : Job}
    (hjob : History.Reverses ix' i (ix.buildAt? i.package.slot) job) (number : Nat) :
    ∃ erases' m', (Scope.ofIndex ix' undo.policy.solver).Leads m
        ((Numbered.select ix' undo.policy ⟨number, job⟩).value.filterMap Finding.request?) m' ∧
      Paused ix ix' undo.policy.solver (done ++ [i]) erases' m' := by
  have hi := mem_of_split hsplit
  have hreversal := h.reversal hi hjob number
  generalize (Numbered.select ix' undo.policy ⟨number, job⟩).value = findings at hreversal
  obtain ⟨-, hsingle⟩ := hreversal.alone (hback.alone i hi)
  have hasks (r : Request) (hr : r ∈ findings.filterMap Finding.request?) :
      i.Asks ix' (ix.buildAt? i.package.slot) r.task := by
    obtain ⟨f, hf, hrequest⟩ := List.mem_filterMap.1 hr
    cases f <;> cases hrequest
    exact (hreversal.asks r hf).2.2
  rcases hbefore : ix.buildAt? i.package.slot with _ | b <;> rw [hbefore] at hasks
  · obtain ⟨r, rfl⟩ := hsingle (.inl (h.action_of_before hi hbefore))
    have htask : r.task = .remove [i.package] := by
      have hremove := hasks r (List.mem_singleton_self r)
      generalize r.task = task at hremove
      cases hremove
      rfl
    obtain ⟨m', hperform, hm'⟩ := h.perform_takeOff hsplit hback hbefore hm htask
    exact ⟨true, m', .cons hperform (.nil m'), hm'⟩
  · obtain ⟨r, hr⟩ := hreversal.exists_request
    obtain ⟨first, more, hrequests⟩ := List.exists_cons_of_ne_nil
      (List.ne_nil_of_mem (List.mem_filterMap.2 ⟨_, hr, rfl⟩ : r ∈ findings.filterMap Finding.request?))
    rw [hrequests] at hasks
    obtain ⟨between, hperform, hbetween⟩ :=
      h.perform_asked hsplit hback hbefore hm (hasks first List.mem_cons_self)
    have hagain (r' : Request) (hr' : r' ∈ more) :
        ∃ c others, r'.task = .install (c :: others) ∧ c.build = b := by
      refine (hasks r' (List.mem_cons_of_mem first hr')).installs fun haction => ?_
      -- A reinstallation comes as the only request.
      obtain ⟨r'', rfl⟩ := hsingle (.inr haction)
      cases hrequests
      cases hr'
    obtain ⟨m', hleads, hm'⟩ := h.leads_again hsplit hback hbefore hbetween hagain
    exact ⟨false, m', hrequests ▸ .cons hperform hleads, hm'⟩

end Item

/-- By induction on the items left: the jobs are carried out one after the other. -/
theorem leads_items (hback : Retraceable ix ix' undo.policy items) {done rest : List Item}
    {m : Model} {erases : Bool} (hsplit : items.reverse = done ++ rest)
    (hm : Paused ix ix' undo.policy.solver done erases m) {jobs : List Job}
    (hjobs : List.Forall₂
      (fun i job => History.Reverses ix' i (ix.buildAt? i.package.slot) job) rest jobs)
    (number : Nat) :
    ∃ erases' m', (Scope.ofIndex ix' undo.policy.solver).Leads m
        ((jobs.zipIdx number).flatMap fun j =>
          (Numbered.select ix' undo.policy ⟨j.2, j.1⟩).value.filterMap Finding.request?) m' ∧
      Paused ix ix' undo.policy.solver items.reverse erases' m' := by
  induction hjobs generalizing done m erases number with
  | nil =>
    rw [List.append_nil] at hsplit
    exact ⟨erases, m, .nil m, hsplit ▸ hm⟩
  | @cons i job rest jobs hjob _ ih =>
    obtain ⟨between, m', hfirst, hm'⟩ := h.leads_item hsplit hback hm hjob number
    obtain ⟨erases', m'', hrest, hm''⟩ := ih (split_next hsplit) hm' (number + 1)
    rw [List.zipIdx_cons, List.flatMap_cons]
    exact ⟨erases', m'', hfirst.append hrest, hm''⟩

omit h in
theorem requests_eq (policy : Policy) (jobs : List Job) :
    (selectAll ix' policy jobs).value.requests = jobs.zipIdx.flatMap fun j =>
      (Numbered.select ix' policy ⟨j.2, j.1⟩).value.filterMap Finding.request? := by
  unfold selectAll
  rw [Traced.value_bind, Traced.value_mapM, Traced.value_pure]
  show (List.map _ jobs.zipIdx).flatten.filterMap Finding.request? = _
  rw [List.filterMap_flatten, List.map_map, List.flatMap_def]
  rfl

/-- Nothing stands in the way of the search. -/
theorem exists_solve (hback : Retraceable ix ix' undo.policy items) :
    ∃ erases m, undo.SearchEnds ix' ⟨(Scope.ofIndex ix' undo.policy.solver).changes m, []⟩ ∧
      Paused ix ix' undo.policy.solver items.reverse erases m := by
  have hstart : Paused ix ix' undo.policy.solver [] false
      (Scope.ofIndex ix' undo.policy.solver).start :=
    ⟨{}, .start (views_ofIndex ix' undo.policy.solver), ⟨.start, rfl⟩, Stage.sound_start ix'⟩
  obtain ⟨erases, m, hleads, hm⟩ :=
    h.leads_items hback (List.nil_append _).symm hstart h.jobs 0
  refine ⟨erases, m, ?_, hm⟩
  have hrun := hleads [] []
  rw [List.append_nil, ← requests_eq] at hrun
  unfold SearchEnds solve
  rw [Traced.value_bind, hrun]
  rfl

/-! ## The plan of an undo -/

theorem problems_eq_nil (hback : Retraceable ix ix' undo.policy items) :
    (selectAll ix' undo.policy undo.jobs).value.problems = [] := by
  unfold selectAll
  rw [Traced.value_bind, Traced.value_mapM, Traced.value_pure]
  refine Problem.insertAll_eq_nil_iff.2 ⟨rfl, List.filterMap_eq_nil_iff.2 fun f hf => ?_⟩
  obtain ⟨findings, hfindings, hf⟩ := List.mem_flatten.1 hf
  obtain ⟨j, hj, rfl⟩ := List.mem_map.1 hfindings
  obtain ⟨i, hi, hreverses⟩ := h.of_mem_jobs hj
  exact ((h.reversal hi hreverses j.2).alone (hback.alone i hi)).1 f hf

/-- What stays on its way back stays within what was touched. -/
theorem within_of_homeward {done : List Item} {st : Stage} (hhome : Homeward ix ix' items done st)
    {items' : List Item} (htaken : ∀ p ∈ Item.takenOff items', p ∈ st.taken)
    (hbrought : ∀ p ∈ Item.broughtIn items', p ∈ st.brought) : Item.Within items items' := by
  have hinbound (j : Item) (hj : j ∈ items') (hinbound : j.action.isInbound) :
      j.package ∈ st.brought :=
    hbrought _ (Item.mem_broughtIn_iff.2 ⟨j, hj, hinbound, rfl⟩)
  refine ⟨fun j hj => ?_, fun j hj hinb i hi haction hslot => ?_⟩
  · by_cases hinb : j.action.isInbound
    · obtain ⟨-, i, hi, hslot, -⟩ := hhome.brought _ (hinbound j hj hinb)
      exact ⟨i, hi, hslot⟩
    · have hremoval : j.action.isRemoval := by
        unfold Action.isRemoval
        rw [Bool.eq_false_iff.2 hinb]
        rfl
      obtain ⟨i, hi, -, hpackage⟩ :=
        hhome.taken _ (htaken _ (Item.mem_takenOff_iff.2 ⟨j, hj, hremoval, rfl⟩))
      exact ⟨i, hi, congrArg Package.slot hpackage⟩
  · have hinstalled := (hhome.brought _ (hinbound j hj hinb)).1
    have hbefore := (h.solved.tells hi).eq_none haction
    rw [hslot, Index.buildAt?_eq_some_iff.2 ⟨rfl, hinstalled⟩] at hbefore
    cases hbefore

/-- An undo that can be retraced has a plan, and the plan stays within what was touched. -/
theorem exists_resolve (hback : Retraceable ix ix' undo.policy items) :
    ∃ items' advisories, (undo.resolve ix').value = .ok (.solved items' advisories) ∧
      Item.Within items items' := by
  obtain ⟨erases, m, hends, st, hm, ⟨hst, -⟩, -⟩ := h.exists_solve hback
  have hhome := hback.homeward _ [] st (List.append_nil _).symm hst
  obtain ⟨items', advisories, hplan⟩ := h.exists_planChanges hends rfl
  have horders : Plan.Orders items' ((Scope.ofIndex ix' undo.policy.solver).changes m) := by
    have horders := planChanges_cases hplan
    rw [toBePlanned, h.cleaningJobs_eq_nil] at horders
    exact horders
  refine ⟨items', advisories,
    resolve_of_planChanges hends (h.problems_eq_nil hback) rfl (fun p hp => ?_) hplan,
    h.within_of_homeward hhome (fun p hp => ?_) fun p hp => ?_⟩
  · obtain ⟨i, hi, haction, rfl⟩ := hhome.taken p (hm.mem_takenOff_iff.1 hp).1
    exact hback.unprotected i hi haction
  · exact (hm.mem_takenOff_iff.1 (horders.mem_takenOff_iff.1 hp)).1
  · exact hm.mem_broughtIn_iff.1 (horders.mem_broughtIn_iff.1 hp)

end Goal.Undoing

end Provision
