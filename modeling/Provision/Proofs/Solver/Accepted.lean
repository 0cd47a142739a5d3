import Mathlib
import Provision.Proofs.Solver.Changes
import Provision.Proofs.Solver.Refusals
import Provision.Universe

/-!
# Which accepted jobs hold

A job that is carried out holds when it is done, and what it decided stays decided: no later job
touches it except a removal that has the build among its targets (`chained_sameAt`). A removal, on
the other hand, looks only for its targets. It leaves a slot alone that an earlier job has given to
another build, and it empties a slot that an earlier job has decided to keep. These are the ways in
which a removal overrides earlier jobs, or lets them override it, without a problem (`Overrides`),
and there are no others: in a run without problems every job that is not weak holds in the end if and
only if no removal overrides (`jobs_hold_iff`).
-/

namespace Provision.Solver

open Model (Reaches SameAt)

/-! ## What jobs leave alone -/

section Persistence

variable {may : Package → Prop} {s : Scope} {m m' : Model} {slot : Slot}

/-- No target of the task is in the slot. -/
def Task.Spares (task : Task) (slot : Slot) (m : Model) : Prop :=
  ∀ targets, task = .remove targets → ∀ t ∈ targets, t.slot = slot → ¬ m.Holds t.build

theorem Task.Spares.sameAt {task : Task} (h : task.Spares slot m) (hsame : SameAt slot m m') :
    task.Spares slot m' := by
  rintro targets htask t ht rfl hholds
  refine h targets htask t ht rfl ?_
  obtain ⟨p, hp, hbuild⟩ := hholds
  exact ⟨p, hsame.present ▸ hp, hbuild⟩

theorem step_sameAt {task : Task} (hslot : m.isDecided slot) (hspares : task.Spares slot m)
    (h : Model.Step may task m m') : SameAt slot m m' := by
  cases h with
  | move h => exact h.sameAt hslot
  | again htask hopen => exact Model.sameAt_fill m _ (Model.ne_of_isDecided hslot hopen)
  | @drop targets t job htask ht hholds =>
    refine Model.sameAt_clear m _ ?_
    rintro rfl
    exact hspares targets htask t ht rfl hholds
  | attitude => exact ⟨rfl, rfl⟩

theorem steps_sameAt {task : Task} (hslot : m.isDecided slot) (hspares : task.Spares slot m)
    (h : Model.Steps may task m m') : SameAt slot m m' := by
  induction h with
  | refl => exact .refl slot _
  | tail _ hstep ih =>
    exact ih.trans (step_sameAt (ih.isDecided.trans hslot) (hspares.sameAt ih) hstep)

/-- By induction along the chain: a decided slot keeps what no job on the way removes. -/
theorem chained_sameAt {requests : List Request} {cs : List Carried}
    (haccepts : ∀ c ∈ cs, c.request ∈ requests ∧ s.Accepts c) (hm : m.Keyed)
    (h : Chained m cs m') (hslot : m.isDecided slot)
    (hspares : ∀ c ∈ cs, c.request.task.Spares slot m) : SameAt slot m m' := by
  induction cs generalizing m with
  | nil =>
    cases h
    exact .refl slot _
  | cons c rest ih =>
    obtain ⟨rfl, h⟩ := h
    obtain ⟨hrequest, hc⟩ := haccepts c List.mem_cons_self
    obtain ⟨hsteps, -⟩ := hc.steps hrequest hm
    have hsame := steps_sameAt hslot (hspares c List.mem_cons_self) hsteps
    refine hsame.trans (ih (fun d hd => haccepts d (List.mem_cons_of_mem c hd)) (hm.steps hsteps) h
      (hsame.isDecided.trans hslot) fun d hd => ?_)
    exact (hspares d (List.mem_cons_of_mem c hd)).sameAt hsame

end Persistence

/-! ## What a job achieves -/

namespace Scope

variable {s : Scope} {requests : List Request} {c : Carried}

theorem Accepts.install (hrequest : c.request ∈ requests) (hm : c.before.Keyed)
    (h : s.Accepts c) {candidates : List Package} (htask : c.request.task = .install candidates) :
    ∃ k ∈ candidates, c.after.Holds k.build ∧ c.after.isDecided k.slot := by
  unfold Accepts at h
  rw [htask] at h
  have hchoices (p : Package) (hp : p ∈ s.choices) : s.Supply requests p := .inl hp
  have hcandidates (p : Package) (hp : p ∈ candidates) : s.Supply requests p :=
    .inr ⟨c.request, hrequest, candidates, htask, hp⟩
  exact (install_reaches (s := { s with job := c.request.job }) hchoices hm hcandidates h).2.2

theorem Accepts.reinstall (hm : c.before.Keyed) (h : s.Accepts c) {p : Package}
    (htask : c.request.task = .reinstall p) :
    c.after.present[p.slot]? = some p ∧ c.after.isReinstalled p.slot ∧
      c.after.isDecided p.slot := by
  unfold Accepts at h
  rw [htask] at h
  obtain ⟨hopen, hsettle⟩ := reinstall_cases h
  obtain ⟨hreaches, -⟩ := settle_reaches (s := { s with job := c.request.job })
    (fun q hq => hq) _ (hm.fill p _) hsettle
  have hdecided := Model.isDecided_decide_self
    { c.before with present := c.before.present.insert p.slot p } p.slot
    ⟨.user, c.request.job, .reinstalled⟩
  have hsame := hreaches.sameAt hdecided
  refine ⟨?_, ?_, hsame.isDecided.trans hdecided⟩
  · rw [hsame.present, Model.present_fill, if_pos rfl]
  · rw [hsame.isReinstalled]
    unfold Model.fill
    rw [isReinstalled_decide (by exact hopen)]
    rfl

/-- What a removal leaves in the slot of a target: nothing, or another build. -/
theorem Accepts.remove (hrequest : c.request ∈ requests) (hm : s.Disciplined requests c.before)
    (h : s.Accepts c) {targets : List Package} (htask : c.request.task = .remove targets)
    {t : Package} (ht : t ∈ targets)
    (hinstalled : ∃ p, s.installed[t.slot]? = some p ∧ p.build = t.build) :
    c.after.isDecided t.slot ∧ ¬ c.after.Holds t.build ∧
      (c.after.present[t.slot]? = none ∨ c.after.present[t.slot]? = c.before.present[t.slot]?) := by
  unfold Accepts at h
  rw [htask] at h
  obtain ⟨settled, hsettle, hafter⟩ := remove_cases h
  rw [hafter]
  generalize herased : eraseTargets { s with job := c.request.job }
    { c.before with erasesDependents := true } targets = erased at hsettle
  have hsteps : Model.Steps (s.Supply requests) c.request.task c.before erased := by
    rw [← herased, htask]
    exact .head (.attitude true) eraseTargets_steps
  have hdisciplined := hm.steps hrequest hsteps
  have hgone : ¬ erased.Holds t.build := by
    rw [← herased]
    exact not_holds_eraseTargets ht
  have hdecided : erased.isDecided t.slot := by
    by_contra hopen
    obtain ⟨p, hp, hbuild⟩ := hinstalled
    rw [← hdisciplined.open_eq t.slot (Bool.eq_false_iff.2 hopen)] at hp
    exact hgone ⟨p, hp, hbuild⟩
  obtain ⟨hreaches, -⟩ := settle_reaches (s := { s with job := c.request.job })
    (fun q hq => hq) _ hdisciplined.keyed hsettle
  have hsame := hreaches.sameAt hdecided
  refine ⟨hsame.isDecided.trans hdecided, fun hholds => hgone ?_, ?_⟩
  · obtain ⟨p, hp, hbuild⟩ := hholds
    exact ⟨p, hsame.present ▸ hp, hbuild⟩
  · rw [show Model.present { settled with erasesDependents := false } = settled.present from rfl,
      hsame.present, ← herased]
    exact eraseTargets_present targets t.slot

end Scope

/-! ## Jobs that hold -/

/-- In the world that the changes lead to, the task is done. -/
def Task.Met (ix : Index) (changes : List Change) : Task → Prop
  | .install candidates => ∃ k ∈ candidates, ∃ p ∈ ix.worldWith changes, p.build = k.build
  | .reinstall package => ∃ c ∈ changes, c.action = .reinstall ∧ c.package = package
  | .remove targets => ∀ t ∈ targets, ∀ p ∈ ix.worldWith changes, p.slot ≠ t.slot

/-- There is something to choose from, and what is to go or to be put in place again is installed. -/
def Task.WellPosed (ix : Index) : Task → Prop
  | .install candidates => candidates ≠ []
  | .reinstall package => ix.isInstalled package.build
  | .remove targets => ∀ t ∈ targets, ix.isInstalled t.build

/-- A removal goes against jobs carried out `earlier`, on account of one of its targets. -/
inductive Overrides (world : List Package) (earlier : List Carried) (c : Carried) (t : Package) :
    Prop
  /-- Another build has been given the slot of the target, and the removal leaves it there. -/
  | passesOver {p : Package} (hstrong : c.request.weak = false)
      (hp : c.before.present[t.slot]? = some p) (hother : p.build ≠ t.build)
  /-- The target is to be put in place once more. -/
  | reinstalled {e : Carried} {p : Package} (he : e ∈ earlier) (hstrong : e.request.weak = false)
      (htask : e.request.task = .reinstall p) (hbuild : p.build = t.build)
  /-- The target is a candidate for an installation, and no candidate is left. -/
  | installed {e : Carried} {candidates : List Package} {k : Package} (he : e ∈ earlier)
      (hstrong : e.request.weak = false) (htask : e.request.task = .install candidates)
      (hk : k ∈ candidates) (hbuild : k.build = t.build)
      (hgone : ∀ k ∈ candidates, ∀ p ∈ world, p.build ≠ k.build)

/-- No removal of a run goes against the jobs before it. -/
def NothingOverridden (world : List Package) (cs : List Carried) : Prop :=
  ∀ earlier c later, cs = earlier ++ c :: later → ∀ targets, c.request.task = .remove targets →
    ∀ t ∈ targets, ¬ Overrides world earlier c t

section Run

variable {ix : Index} {policy : Policy} {requests : List Request} {m : Model}

/-- A run from the start that reports no problem. -/
structure CleanRun (ix : Index) (policy : Policy) (requests : List Request) (m : Model) : Prop where
  chained : Chained (Scope.ofIndex ix policy).start (carriedOut ix policy requests) m
  orderly : (Scope.ofIndex ix policy).Orderly requests m
  along : ∀ c ∈ carriedOut ix policy requests,
    (Scope.ofIndex ix policy).Orderly requests c.before ∧
      (Scope.ofIndex ix policy).Orderly requests c.after
  carried : ∀ request ∈ requests, request.weak = false →
    ∃ c ∈ carriedOut ix policy requests, c.request = request
  posed : ∀ request ∈ requests, request.task.WellPosed ix

theorem cleanRun_of_solve {outcome : Outcome}
    (h : (solve ix policy requests).value = .ok outcome) (hnone : outcome.problems = [])
    (hposed : ∀ request ∈ requests, request.task.WellPosed ix) :
    ∃ m, outcome.changes = (Scope.ofIndex ix policy).changes m ∧ CleanRun ix policy requests m := by
  obtain ⟨m, hrun, hchanges⟩ := solve_cases h
  rw [hnone] at hrun
  obtain ⟨horderly, halong⟩ := performAll_orderly hrun
  refine ⟨m, hchanges, Scope.performAll_chained hrun, horderly, halong, ?_, hposed⟩
  refine (Scope.exists_carried hrun fun request hrequest htask => ?_).2
  have hwell := hposed request hrequest
  rw [htask] at hwell
  exact hwell rfl

/-- The installed package of a build is the one that an open slot holds. -/
theorem exists_installed (policy : Policy) {b : Build} (h : ix.isInstalled b) :
    ∃ p, (Scope.ofIndex ix policy).installed[b.slot]? = some p ∧ p.build = b := by
  obtain ⟨p, hp, rfl⟩ := Index.isInstalled_iff.1 h
  refine ⟨p, ?_, rfl⟩
  rw [Scope.installed_ofIndex]
  exact Index.mem_installedPackages_iff.1 hp

/-- Two installed builds in one slot are the same. -/
theorem build_eq_of_isInstalled {b b' : Build} (h : ix.isInstalled b) (h' : ix.isInstalled b')
    (hslot : b.slot = b'.slot) : b = b' := by
  obtain ⟨p, hp, rfl⟩ := Index.isInstalled_iff.1 h
  obtain ⟨q, hq, rfl⟩ := Index.isInstalled_iff.1 h'
  rw [Index.installed_unique hp hq hslot]

namespace CleanRun

variable (h : CleanRun ix policy requests m)

include h

/-- After a job a decided slot keeps what no later removal has among its targets. -/
theorem sameAt_after {earlier later : List Carried} {c : Carried}
    (hsplit : carriedOut ix policy requests = earlier ++ c :: later) {slot : Slot}
    (hslot : c.after.isDecided slot)
    (hspares : ∀ d ∈ later, d.request.task.Spares slot c.after) : SameAt slot c.after m := by
  have hchained := h.chained
  rw [hsplit] at hchained
  obtain ⟨n, -, -, hlater⟩ := Chained.append_iff.1 hchained
  have hmem (d : Carried) (hd : d ∈ c :: later) : d ∈ carriedOut ix policy requests := by
    rw [hsplit]
    exact List.mem_append_right earlier hd
  refine chained_sameAt (fun d hd => mem_carriedOut (hmem d (List.mem_cons_of_mem c hd)))
    ?_ hlater hslot hspares
  exact (h.along c (hmem c List.mem_cons_self)).2.disciplined.keyed

/-- No removal has a target among what is not the installed build. -/
theorem spares_of_not_holds {b : Build} (hb : ix.isInstalled b) {n : Model} (hn : ¬ n.Holds b)
    {d : Carried} (hd : d ∈ carriedOut ix policy requests) :
    d.request.task.Spares b.slot n := by
  intro targets htask t ht hslot hholds
  have hposed := h.posed d.request (mem_carriedOut hd).1
  rw [htask] at hposed
  rw [build_eq_of_isInstalled (hposed t ht) hb hslot] at hholds
  exact hn hholds

/-- What is present after a job is there in the end unless a later removal has it as a target. -/
theorem holds_after {earlier later : List Carried} {c : Carried}
    (hsplit : carriedOut ix policy requests = earlier ++ c :: later) {b : Build}
    (hb : c.after.isDecided b.slot) (hholds : c.after.Holds b)
    (htargets : ∀ d ∈ later, ∀ targets, d.request.task = .remove targets →
      ∀ t ∈ targets, t.build ≠ b) : SameAt b.slot c.after m := by
  refine h.sameAt_after hsplit hb fun d hd targets htask t ht hslot htarget => ?_
  refine htargets d hd targets htask t ht ?_
  obtain ⟨p, hp, hbuild⟩ := hholds
  obtain ⟨q, hq, hbuild'⟩ := htarget
  have hq : c.after.present[b.slot]? = some q := hslot ▸ hq
  rw [hp] at hq
  rw [← hbuild', ← Option.some.inj hq, hbuild]

/-- What is present in the end is there in the world that the changes lead to. -/
theorem exists_mem_world {b : Build} (hholds : m.Holds b) :
    ∃ p ∈ ix.worldWith ((Scope.ofIndex ix policy).changes m), p.build = b := by
  obtain ⟨p, hp, rfl⟩ := hholds
  exact ⟨p, (mem_worldWith_changes_iff h.orderly.disciplined).2 hp, rfl⟩

/-- What a job is carried out before and after. -/
theorem exists_split {request : Request} (hrequest : request ∈ requests)
    (hstrong : request.weak = false) :
    ∃ earlier c later, carriedOut ix policy requests = earlier ++ c :: later ∧
      c.request = request ∧ c.request ∈ requests ∧ (Scope.ofIndex ix policy).Accepts c ∧
      (Scope.ofIndex ix policy).Disciplined requests c.before := by
  obtain ⟨c, hc, rfl⟩ := h.carried request hrequest hstrong
  obtain ⟨earlier, later, hsplit⟩ := List.append_of_mem hc
  exact ⟨earlier, c, later, hsplit, rfl, hrequest, (mem_carriedOut hc).2,
    (h.along c hc).1.disciplined⟩

/-! ### Without overriding every job holds -/

section Respected

variable (hrespect : NothingOverridden (ix.worldWith ((Scope.ofIndex ix policy).changes m))
  (carriedOut ix policy requests))

include hrespect

/-- What nothing overrides stays as the job left it. -/
theorem sameAt_of_respect {earlier later : List Carried} {c : Carried}
    (hsplit : carriedOut ix policy requests = earlier ++ c :: later) {b : Build}
    (hb : c.after.isDecided b.slot) (hholds : c.after.Holds b)
    (hoverrides : ∀ earlier' d t, c ∈ earlier' → t.build = b →
      Overrides (ix.worldWith ((Scope.ofIndex ix policy).changes m)) earlier' d t) :
    SameAt b.slot c.after m := by
  refine h.holds_after hsplit hb hholds fun d hd targets htask t ht hbuild => ?_
  obtain ⟨between, rest, rfl⟩ := List.append_of_mem hd
  have hsplit' : carriedOut ix policy requests = (earlier ++ c :: between) ++ d :: rest := by
    rw [hsplit, List.append_assoc, List.cons_append]
  refine hrespect _ d rest hsplit' targets htask t ht (hoverrides _ d t ?_ hbuild)
  exact List.mem_append_right earlier List.mem_cons_self

theorem install_met {request : Request} (hrequest : request ∈ requests)
    (hstrong : request.weak = false) {candidates : List Package}
    (htask : request.task = .install candidates) :
    request.task.Met ix ((Scope.ofIndex ix policy).changes m) := by
  obtain ⟨earlier, c, later, hsplit, rfl, hmem, haccepts, hbefore⟩ :=
    h.exists_split hrequest hstrong
  obtain ⟨k, hk, hholds, hdecided⟩ := haccepts.install hmem hbefore.keyed htask
  rw [htask]
  by_contra hgone
  have hgone : ∀ k ∈ candidates,
      ∀ p ∈ ix.worldWith ((Scope.ofIndex ix policy).changes m), p.build ≠ k.build :=
    fun k hk p hp hbuild => hgone ⟨k, hk, p, hp, hbuild⟩
  have hsame := h.sameAt_of_respect hrespect hsplit hdecided hholds
    fun earlier' d t he hbuild => .installed he hstrong htask hk hbuild.symm hgone
  obtain ⟨p, hp, hbuild⟩ := h.exists_mem_world (hsame.holds hholds)
  exact hgone k hk p hp hbuild

theorem reinstall_met {request : Request} (hrequest : request ∈ requests)
    (hstrong : request.weak = false) {p : Package} (htask : request.task = .reinstall p) :
    request.task.Met ix ((Scope.ofIndex ix policy).changes m) := by
  obtain ⟨earlier, c, later, hsplit, rfl, hmem, haccepts, hbefore⟩ :=
    h.exists_split hrequest hstrong
  obtain ⟨hpresent, hmarked, hdecided⟩ := haccepts.reinstall hbefore.keyed htask
  have hsame := h.sameAt_of_respect hrespect hsplit hdecided ⟨p, hpresent, rfl⟩
    fun earlier' d t he hbuild => .reinstalled he hstrong htask hbuild.symm
  have hlast : m.present[p.slot]? = some p := hsame.present.trans hpresent
  have hposed := h.posed c.request hmem
  rw [htask] at hposed ⊢
  obtain ⟨old, hold, hbuild⟩ := exists_installed policy hposed
  rcases hchange : (Scope.ofIndex ix policy).inbound? m p with _ | change
  · rw [Scope.inbound?_eq_none_iff hlast, Scope.isChanged_of_isReinstalled
      (hsame.isReinstalled.trans hmarked)] at hchange
    cases hchange
  · obtain ⟨hpackage, -, harrival⟩ := Scope.inbound?_eq_some hchange
    refine ⟨change, Scope.mem_changes_iff.2 (.inl ⟨p, ?_, hchange⟩), ?_, hpackage⟩
    · exact h.orderly.disciplined.keyed.mem_packages_iff.2 hlast
    · generalize change.action = action at harrival
      cases harrival with
      | install hfree => rw [hfree] at hold; cases hold
      | reinstall => rfl
      | upgrade hold' hne => rw [hold] at hold'; cases hold'; exact absurd hbuild hne
      | downgrade hold' hne => rw [hold] at hold'; cases hold'; exact absurd hbuild hne

theorem remove_met {request : Request} (hrequest : request ∈ requests)
    (hstrong : request.weak = false) {targets : List Package}
    (htask : request.task = .remove targets) :
    request.task.Met ix ((Scope.ofIndex ix policy).changes m) := by
  obtain ⟨earlier, c, later, hsplit, rfl, hmem, haccepts, hbefore⟩ :=
    h.exists_split hrequest hstrong
  have hposed := h.posed c.request hmem
  rw [htask] at hposed ⊢
  intro t ht p hp hslot
  obtain ⟨hdecided, hgone, hempty⟩ :=
    haccepts.remove hmem hbefore htask ht (exists_installed policy (hposed t ht))
  have hnone : c.after.present[t.slot]? = none := by
    rcases hempty with hnone | hsame
    · exact hnone
    · rcases hbuild : c.before.present[t.slot]? with _ | q
      · rw [hsame, hbuild]
      · rw [hbuild] at hsame
        refine absurd (.passesOver hstrong hbuild fun heq => ?_) (hrespect _ c later hsplit _ htask t ht)
        exact hgone ⟨q, hsame, heq⟩
  have hsame := h.sameAt_after hsplit hdecided fun d hd => h.spares_of_not_holds (hposed t ht) hgone
    (hsplit ▸ List.mem_append_right earlier (List.mem_cons_of_mem c hd))
  rw [mem_worldWith_changes_iff h.orderly.disciplined, hslot, hsame.present, hnone] at hp
  cases hp

end Respected

/-! ### Jobs that hold were not overridden -/

/-- What a removal leaves in the slot of a target is there in the end. -/
theorem sameAt_of_remove {earlier later : List Carried} {c : Carried}
    (hsplit : carriedOut ix policy requests = earlier ++ c :: later) {targets : List Package}
    (htask : c.request.task = .remove targets) {t : Package} (ht : t ∈ targets) :
    SameAt t.slot c.after m ∧ ¬ m.Holds t.build := by
  have hc : c ∈ carriedOut ix policy requests := hsplit ▸ List.mem_append_right _ List.mem_cons_self
  obtain ⟨hmem, haccepts⟩ := mem_carriedOut hc
  have hposed := h.posed c.request hmem
  rw [htask] at hposed
  obtain ⟨hdecided, hgone, -⟩ := haccepts.remove hmem (h.along c hc).1.disciplined htask ht
    (exists_installed policy (hposed t ht))
  have hsame := h.sameAt_after hsplit hdecided fun d hd => h.spares_of_not_holds (hposed t ht) hgone
    (hsplit ▸ List.mem_append_right earlier (List.mem_cons_of_mem c hd))
  refine ⟨hsame, fun hholds => hgone ?_⟩
  obtain ⟨p, hp, hbuild⟩ := hholds
  exact ⟨p, hsame.present ▸ hp, hbuild⟩

theorem nothingOverridden_of_met
    (hmet : ∀ request ∈ requests, request.weak = false →
      request.task.Met ix ((Scope.ofIndex ix policy).changes m)) :
    NothingOverridden (ix.worldWith ((Scope.ofIndex ix policy).changes m))
      (carriedOut ix policy requests) := by
  intro earlier c later hsplit targets htask t ht hoverrides
  have hrequest (e : Carried) (he : e ∈ earlier) : e.request ∈ requests :=
    (mem_carriedOut (hsplit ▸ List.mem_append_left _ he)).1
  have hc : c ∈ carriedOut ix policy requests := hsplit ▸ List.mem_append_right _ List.mem_cons_self
  obtain ⟨hmem, haccepts⟩ := mem_carriedOut hc
  obtain ⟨hsame, hgone⟩ := h.sameAt_of_remove hsplit htask ht
  cases hoverrides with
  | @passesOver p hstrong hp hother =>
    have hposed := h.posed c.request hmem
    have hremoved := hmet c.request hmem hstrong
    rw [htask] at hposed hremoved
    have hbefore := (h.along c hc).1.disciplined
    have hdecided : c.before.isDecided t.slot := by
      by_contra hopen
      obtain ⟨q, hq, hbuild⟩ := exists_installed policy (hposed t ht)
      rw [← hbefore.open_eq t.slot (Bool.eq_false_iff.2 hopen), hp] at hq
      rw [← Option.some.inj hq] at hbuild
      exact hother hbuild
    have hleft : ¬ c.before.Holds t.build := by
      rintro ⟨q, hq, hbuild⟩
      rw [hp] at hq
      rw [← Option.some.inj hq] at hbuild
      exact hother hbuild
    have hkept := steps_sameAt hdecided (h.spares_of_not_holds (hposed t ht) hleft hc)
      (haccepts.steps hmem hbefore.keyed).1
    have hlast : m.present[t.slot]? = some p := (hkept.trans hsame).present.trans hp
    have hslot := h.orderly.disciplined.keyed _ p hlast
    refine hremoved t ht p ?_ hslot
    rw [mem_worldWith_changes_iff h.orderly.disciplined, hslot]
    exact hlast
  | @reinstalled e p he hstrong htask' hbuild =>
    have hagain := hmet e.request (hrequest e he) hstrong
    rw [htask'] at hagain
    obtain ⟨change, hchange, haction, rfl⟩ := hagain
    have hbrought := Change.mem_broughtIn_iff.2 ⟨change, hchange, haction ▸ rfl, rfl⟩
    have hlast := (Scope.mem_broughtIn_changes_iff h.orderly.disciplined.keyed).1 hbrought
    exact hgone (hbuild ▸ ⟨change.package, hlast.1, rfl⟩)
  | @installed e candidates k he hstrong htask' hk hbuild hnone =>
    have hinstalled := hmet e.request (hrequest e he) hstrong
    rw [htask'] at hinstalled
    obtain ⟨k, hk, p, hp, hbuild⟩ := hinstalled
    exact hnone k hk p hp hbuild

end CleanRun

/--
In a run without problems every job that is not weak holds in the end, just if no removal goes
against an earlier job.
-/
theorem jobs_hold_iff {outcome : Outcome} (h : (solve ix policy requests).value = .ok outcome)
    (hnone : outcome.problems = []) (hposed : ∀ request ∈ requests, request.task.WellPosed ix) :
    (∀ request ∈ requests, request.weak = false → request.task.Met ix outcome.changes) ↔
      NothingOverridden (ix.worldWith outcome.changes) (carriedOut ix policy requests) := by
  obtain ⟨m, hchanges, hclean⟩ := cleanRun_of_solve h hnone hposed
  rw [hchanges]
  refine ⟨hclean.nothingOverridden_of_met, fun hrespect request hrequest hstrong => ?_⟩
  cases htask : request.task with
  | install => exact htask ▸ hclean.install_met hrespect hrequest hstrong htask
  | reinstall => exact htask ▸ hclean.reinstall_met hrespect hrequest hstrong htask
  | remove => exact htask ▸ hclean.remove_met hrespect hrequest hstrong htask

end Run

/-! ### Contrary jobs -/

def tool (repo : String) : Package := ⟨⟨"tool", "noarch", ⟨0, "1", some "1"⟩⟩, repo, none⟩

def toolIndex : Index :=
  (({} : Index).addInstalled (tool systemRepo) {}).addOffered (tool availableRepo) {}

/-- The tool is to be put in place once more, and then it is to go. -/
def contrary : List Request :=
  [⟨0, .reinstall (tool availableRepo), false⟩, ⟨1, .remove [tool systemRepo], false⟩]

def contraryOutcome : Outcome where
  changes := [{ package := tool systemRepo, action := .remove, reason := .user, job := some 0 }]
  problems := []

theorem solve_contrary : (solve toolIndex {} contrary).value = .ok contraryOutcome := by cbv

theorem wellPosed_contrary : ∀ request ∈ contrary, request.task.WellPosed toolIndex := by
  have hinstalled : toolIndex.isInstalled (tool systemRepo).build := by cbv
  intro request hrequest
  rcases List.mem_pair.1 hrequest with rfl | rfl
  · exact hinstalled
  · intro t ht
    rw [List.mem_singleton.1 ht]
    exact hinstalled

theorem jobs_hold_iff_contrary :
    (∀ request ∈ contrary, request.weak = false →
        request.task.Met toolIndex contraryOutcome.changes) ↔
      NothingOverridden (toolIndex.worldWith contraryOutcome.changes)
        (carriedOut toolIndex {} contrary) :=
  jobs_hold_iff solve_contrary rfl wellPosed_contrary

/-- Jobs that contradict each other need not cause a problem. -/
theorem not_all_jobs_hold :
    ¬ ∀ (ix : Index) (policy : Policy) (requests : List Request) (outcome : Outcome),
      (solve ix policy requests).value = .ok outcome → outcome.problems = [] →
      (∀ request ∈ requests, request.task.WellPosed ix) →
      ∀ request ∈ requests, request.weak = false → request.task.Met ix outcome.changes := by
  intro h
  obtain ⟨c, hc, haction, -⟩ := h toolIndex {} contrary contraryOutcome solve_contrary rfl
    wellPosed_contrary _ List.mem_cons_self rfl
  rw [List.mem_singleton.1 hc] at haction
  cases haction

end Provision.Solver
