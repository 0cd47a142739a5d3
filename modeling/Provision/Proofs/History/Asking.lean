import Provision.Proofs.History.Inversion

/-!
# What undoing asks of the search

A job that reverses an item names one package. Requests come of it, and every one is about the build
that was in the slot of the item before, or about the item itself if there was none
(`reversal_select`).
-/

namespace Provision

/-- What undoing an item asks of the search, by what was in its slot before. -/
inductive Item.Asks (ix : Index) (i : Item) : Option Build → Solver.Task → Prop
  | remove (haction : i.action = .install) : Asks ix i none (.remove [i.package])
  | install {b : Build} (hslot : b.slot = i.package.slot) (hgone : ¬ ix.isInstalled b)
      {candidates : List Package} (hne : candidates ≠ [])
      (hcandidates : ∀ c ∈ candidates, ix.Offers b c) : Asks ix i (some b) (.install candidates)
  | reinstall (haction : i.action = .reinstall) {copy : Package}
      (hcopy : ix.Offers i.package.build copy) :
      Asks ix i (some i.package.build) (.reinstall copy)

theorem Item.Asks.installs {ix : Index} {i : Item} {b : Build} {task : Solver.Task}
    (h : i.Asks ix (some b) task) (haction : i.action ≠ .reinstall) :
    ∃ c others, task = .install (c :: others) ∧ c.build = b := by
  cases h with
  | install _ _ hne hcandidates =>
    obtain ⟨c, others, rfl⟩ := List.exists_cons_of_ne_nil hne
    exact ⟨c, others, rfl, (hcandidates c List.mem_cons_self).build⟩
  | reinstall h => exact absurd h haction

namespace Goal

open Numbered

variable {ix : Index} {policy : Policy} {n : Numbered} {b : Build} {t : Package}

/-! ## Copies of one build -/

/-- Of one package only its name is looked up. -/
theorem namesOf_of_forall_eq {packages : List Package} {name : String} (hne : packages ≠ [])
    (hall : ∀ p ∈ packages, p.name = name) : namesOf packages = [name] := by
  have hlength := (List.mergeSort_perm (packages.map Package.name)
    fun a b => (compare a b).isLE).length_eq
  unfold namesOf
  refine dropRepeats_of_forall_eq (beq_self_eq_true name) (fun hnil => ?_) fun s hs => ?_
  · rw [hnil, List.length_map] at hlength
    exact hne (List.length_eq_zero_iff.1 hlength.symm)
  · rw [List.mem_mergeSort, List.mem_map] at hs
    obtain ⟨p, hp, rfl⟩ := hs
    exact hall p hp

theorem build_of_mem_visible {v : Package} (h : v ∈ (lookUp ix (.exactly [t])).visible) :
    v.build = t.build := by
  have hfound := (List.mem_filter.1 h).1
  obtain ⟨u, hu, hv⟩ := List.mem_flatMap.1 hfound
  rw [List.mem_singleton.1 hu] at hv
  exact of_decide_eq_true (List.mem_filter.1 hv).2

theorem exists_mem_visible (ht : ix.Offers b t) (hplain : t.IsPlain) :
    ∃ v ∈ (lookUp ix (.exactly [t])).visible, v.SameOffer t := by
  have hanswers : ix.Answers
      { Filter.ofPattern t.name with arch := some t.arch, withExcluded := true } t := by
    refine ⟨?_, .inr ⟨nofun, ht.offered, .inl rfl⟩⟩
    unfold Filter.selects Filter.ofPattern
    rw [Bool.and_eq_true]
    exact ⟨by simp, hplain.selects rfl⟩
  obtain ⟨v, hv, hsame⟩ := Index.exists_mem_query hanswers
  refine ⟨v, List.mem_filter.2 ⟨?_, ?_⟩, hsame⟩
  · refine List.mem_flatMap.2 ⟨t, List.mem_singleton_self t, List.mem_filter.2 ⟨hv, ?_⟩⟩
    exact decide_eq_true hsame.1
  · show (!(ix.isExcluded v.build && !ix.isInstalled v.build)) = true
    rw [hsame.1, ht.build, ht.visible]
    rfl

/-- What is not installed is visible only where it is offered. -/
theorem offers_of_mem_visible (ht : ix.Offers b t) (hgone : ¬ ix.isInstalled b) {v : Package}
    (h : v ∈ (lookUp ix (.exactly [t])).visible) : ix.Offers b v := by
  have hbuild := (build_of_mem_visible h).trans ht.build
  refine ⟨(admits_of_mem_visible h).known.resolve_left fun hv => hgone ?_, hbuild, ht.visible⟩
  exact Index.isInstalled_iff.2 ⟨v, hv, hbuild⟩

/-- A request for some of the candidates, in any case for one. -/
theorem requestAmong_eq (policy : Policy) (n : Numbered) {candidates : List Package}
    (hne : candidates ≠ []) :
    ∃ chosen, chosen ≠ [] ∧ (∀ c ∈ chosen, c ∈ candidates) ∧
      n.requestAmong policy candidates =
        [.request ⟨n.number, .install chosen, n.job.flags.weak⟩] := by
  unfold Numbered.requestAmong
  split
  · refine ⟨candidates.take 1, fun hnil => hne ?_, fun c hc => List.mem_of_mem_take hc, rfl⟩
    rcases List.take_eq_nil_iff.1 hnil with h | h
    · cases h
    · exact h
  · exact ⟨candidates, hne, fun c hc => hc, rfl⟩

/-! ## Taking an installation back -/

theorem installedEntry?_eq_none (h : ¬ ix.isInstalled b) : ix.installedEntry? b = none := by
  unfold Index.isInstalled at h
  rw [Bool.not_eq_true, Option.isSome_eq_false_iff, Option.isNone_iff_eq_none] at h
  exact h

theorem select_remove {p : Package} (hp : p ∈ ix.installedPackages) (hbuild : t.build = p.build)
    (number : Nat) :
    (select ix policy ⟨number, ⟨.remove, .exactly [t], {}⟩⟩).value =
      [.request ⟨number, .remove [p], false⟩] := by
  have htargets : removalTargets ix (.exactly [t]) = [p] := by
    unfold removalTargets
    dsimp only
    rw [List.filterMap_cons, hbuild, Index.package_installedEntry? hp]
    rfl
  unfold Numbered.select
  rw [if_pos rfl]
  unfold Numbered.selectRemove
  dsimp only
  rw [htargets]
  rfl

/-! ## Bringing a build back -/

theorem select_exactly {verb : Verb} (hverb : verb ≠ .remove) (flags : Flags)
    (ht : ix.Offers b t) (hplain : t.IsPlain) (number : Nat) :
    select ix policy ⟨number, ⟨verb, .exactly [t], flags⟩⟩ =
      if verb = .install then
        selectInstall ⟨number, ⟨verb, .exactly [t], flags⟩⟩ ix policy
          (lookUp ix (.exactly [t])).visible
      else
        selectSlots ⟨number, ⟨verb, .exactly [t], flags⟩⟩ ix policy
          (lookUp ix (.exactly [t])).visible := by
  obtain ⟨v, hv, -⟩ := exists_mem_visible ht hplain
  have hempty : ¬ (lookUp ix (.exactly [t])).visible.isEmpty := by
    rw [List.isEmpty_iff]
    exact List.ne_nil_of_mem hv
  unfold Numbered.select
  rw [if_neg hverb]
  dsimp only
  rw [if_neg hempty]

/-- Whatever is not installed is requested if versions do not matter. -/
theorem selectName_of_gone (ix : Index) (policy : Policy) {n : Numbered}
    {candidates : List Package} (hflags : n.job.flags.allowDowngrade) (hne : candidates ≠ [])
    (hgone : ∀ p ∈ candidates, ¬ ix.isInstalled p.build) :
    ∃ eligible, eligible ≠ [] ∧ (∀ p ∈ eligible, p ∈ candidates) ∧
      (n.selectName ix policy candidates).value = n.requestAmong policy eligible := by
  have heligible : candidates.filter (isEligible ix n.job.flags) = candidates := by
    refine List.filter_eq_self.2 fun p _ => ?_
    unfold isEligible
    split
    · rw [hflags, Bool.true_or]
    · rfl
  unfold Numbered.selectName
  dsimp only
  rw [heligible]
  generalize hsort : sortByPreference _ candidates = eligible
  have hmem (p : Package) : p ∈ eligible ↔ p ∈ candidates := by
    rw [← hsort]
    exact mem_sortByPreference_iff
  cases eligible with
  | nil =>
    obtain ⟨p, hp⟩ := List.exists_mem_of_ne_nil candidates hne
    cases (hmem p).2 hp
  | cons top rest =>
    have htop := hgone top ((hmem top).1 List.mem_cons_self)
    dsimp only
    rw [installedEntry?_eq_none htop]
    exact ⟨top :: rest, List.cons_ne_nil top rest, fun p hp => (hmem p).1 hp, rfl⟩

theorem select_install (policy : Policy) (ht : ix.Offers b t) (hplain : t.IsPlain)
    (hgone : ¬ ix.isInstalled b) (number : Nat) :
    ∃ candidates, candidates ≠ [] ∧ (∀ c ∈ candidates, ix.Offers b c) ∧
      (select ix policy ⟨number, ⟨.install, .exactly [t], { allowDowngrade := true }⟩⟩).value =
        [.request ⟨number, .install candidates, false⟩] := by
  obtain ⟨v, hv, -⟩ := exists_mem_visible ht hplain
  have hoffers (p : Package) (hp : p ∈ (lookUp ix (.exactly [t])).visible) : ix.Offers b p :=
    offers_of_mem_visible ht hgone hp
  have hname (p : Package) (hp : p ∈ (lookUp ix (.exactly [t])).visible) : p.name = b.name :=
    congrArg Build.name (hoffers p hp).build
  rw [select_exactly (by decide) _ ht hplain, if_pos rfl]
  generalize (lookUp ix (.exactly [t])).visible = visible at hv hoffers hname
  have hsame : visible.filter (fun p => decide (p.name = b.name)) = visible :=
    List.filter_eq_self.2 fun p hp => decide_eq_true (hname p hp)
  obtain ⟨eligible, hne, heligible, hselect⟩ :=
    selectName_of_gone ix policy
      (n := ⟨number, ⟨.install, .exactly [t], { allowDowngrade := true }⟩⟩) rfl
      (List.ne_nil_of_mem hv) fun p hp => (hoffers p hp).build ▸ hgone
  obtain ⟨chosen, hchosen, hmem, hrequest⟩ :=
    requestAmong_eq policy ⟨number, ⟨.install, .exactly [t], { allowDowngrade := true }⟩⟩ hne
  refine ⟨chosen, hchosen, fun c hc => hoffers c (heligible c (hmem c hc)), ?_⟩
  unfold Numbered.selectInstall
  rw [namesOf_of_forall_eq (List.ne_nil_of_mem hv) hname, Traced.value_bind, Traced.value_mapM]
  rw [List.map_cons, hsame, hselect, hrequest]
  rfl

/-! ## Changing a build back, and putting one in place again -/

/-- Only what is visible is offered in exchange. -/
theorem offers_of_mem_offersFor (ht : ix.Offers b t) {old p : Package}
    (h : p ∈ offersFor ix (lookUp ix (.exactly [t])).visible old) : ix.Offers b p := by
  obtain ⟨-, hfilter⟩ := List.mem_filter.1 (mem_sortByPreference_iff.1 h)
  rw [Bool.and_eq_true, List.any_eq_true] at hfilter
  obtain ⟨-, v, hv, hsame⟩ := hfilter
  have hbuild : p.build = b := by
    rw [← (of_decide_eq_true hsame).1, build_of_mem_visible hv, ht.build]
  exact ⟨(shows_of_mem_offersFor h).offered, hbuild, ht.visible⟩

theorem exists_mem_offersFor (ht : ix.Offers b t) (hplain : t.IsPlain) {old : Package}
    (hslot : b.slot = old.slot) :
    ∃ p ∈ offersFor ix (lookUp ix (.exactly [t])).visible old, p.build = b := by
  have hname : t.name = old.name :=
    (congrArg Build.name ht.build).trans (congrArg Slot.name hslot)
  have harch : t.arch = old.arch :=
    (congrArg Build.arch ht.build).trans (congrArg Slot.arch hslot)
  have hanswers : ix.Answers (Filter.ofName old.name .offered) t := by
    refine ⟨?_, .inr ⟨nofun, ht.offered, .inr ?_⟩⟩
    · unfold Filter.selects Filter.ofName
      rw [Bool.and_eq_true, ← hname]
      exact ⟨rfl, hplain.selects rfl⟩
    · rw [ht.build]
      exact ht.visible
  obtain ⟨p, hp, hsame⟩ := Index.exists_mem_query hanswers
  obtain ⟨v, hv, hvsame⟩ := exists_mem_visible ht hplain
  refine ⟨p, mem_sortByPreference_iff.2 (List.mem_filter.2 ⟨hp, ?_⟩), hsame.1.trans ht.build⟩
  rw [Bool.and_eq_true, Bool.and_eq_true, decide_eq_true_eq, decide_eq_true_eq, List.any_eq_true]
  refine ⟨⟨?_, .inl ?_⟩, v, hv, decide_eq_true ?_⟩
  · exact (congrArg Build.name hsame.1).trans hname
  · exact (congrArg Build.arch hsame.1).trans harch
  · exact ⟨hvsame.1.trans hsame.1.symm, hvsame.2.trans hsame.2.symm⟩

theorem mem_installedOfName_iff {name : String} {q : Package} (hplain : q.IsPlain) :
    q ∈ installedOfName ix name ↔ q ∈ ix.installedPackages ∧ q.name = name := by
  unfold installedOfName
  rw [List.mem_filter, decide_eq_true_eq, Index.mem_query_installed_iff rfl]
  constructor
  · rintro ⟨⟨-, hq⟩, hname⟩
    exact ⟨hq, hname⟩
  · rintro ⟨hq, rfl⟩
    refine ⟨⟨?_, hq⟩, rfl⟩
    unfold Filter.selects Filter.ofName
    rw [Bool.and_eq_true]
    exact ⟨rfl, hplain.selects rfl⟩

/-- The slots that a job for one build looks at are those of its name. -/
theorem select_slots {verb : Verb} (hverb : verb ≠ .remove ∧ verb ≠ .install)
    (ht : ix.Offers b t) (hplain : t.IsPlain) (number : Nat) {q : Package}
    (hq : q ∈ ix.installedPackages) (hname : q.name = b.name) :
    (select ix policy ⟨number, ⟨verb, .exactly [t], {}⟩⟩).value =
      (installedOfName ix b.name).flatMap fun old =>
        (selectFor ⟨number, ⟨verb, .exactly [t], {}⟩⟩ ix policy
          (lookUp ix (.exactly [t])).visible old).value := by
  have htname : t.name = b.name := congrArg Build.name ht.build
  have hqplain : q.IsPlain := hplain.of_name (hname.trans htname.symm)
  obtain ⟨v, hv, -⟩ := exists_mem_visible ht hplain
  have hnames : namesOf (lookUp ix (.exactly [t])).visible = [b.name] := by
    refine namesOf_of_forall_eq (List.ne_nil_of_mem hv) fun p hp => ?_
    exact congrArg Build.name ((build_of_mem_visible hp).trans ht.build)
  have hmem : q ∈ installedOfName ix b.name := (mem_installedOfName_iff hqplain).2 ⟨hq, hname⟩
  rw [select_exactly hverb.1 _ ht hplain, if_neg hverb.2]
  unfold Numbered.selectSlots
  rw [hnames, List.flatMap_singleton]
  split
  · rename_i hnil
    rw [hnil] at hmem
    cases hmem
  · rw [Traced.value_bind, Traced.value_mapM]
    rfl

/-- The finding is no problem, and if it is a request, one for offers of the build. -/
structure Finding.Brings (ix : Index) (b : Build) (number : Nat) (f : Finding) : Prop where
  noProblem : f.problem? = none
  request : ∀ r, f = .request r → ∃ candidates, candidates ≠ [] ∧
    (∀ c ∈ candidates, ix.Offers b c) ∧ r = ⟨number, .install candidates, false⟩

theorem selectFor_brings (ht : ix.Offers b t) {verb : Verb}
    (hverb : verb = .upgrade ∨ verb = .downgrade) (number : Nat) (old : Package) :
    ∀ f ∈ (selectFor ⟨number, ⟨verb, .exactly [t], {}⟩⟩ ix policy
      (lookUp ix (.exactly [t])).visible old).value, f.Brings ix b number := by
  have hoffers (candidates : List Package) (hne : candidates ≠ [])
      (hsub : ∀ p ∈ candidates, p ∈ offersFor ix (lookUp ix (.exactly [t])).visible old) :
      ∀ f ∈ requestAmong ⟨number, ⟨verb, .exactly [t], {}⟩⟩ policy candidates,
        f.Brings ix b number := by
    obtain ⟨chosen, hchosen, hmem, hrequest⟩ :=
      requestAmong_eq policy ⟨number, ⟨verb, .exactly [t], {}⟩⟩ hne
    rw [hrequest]
    intro f hf
    rw [List.mem_singleton.1 hf]
    refine ⟨rfl, fun r hr => ⟨chosen, hchosen, fun c hc => ?_, (Finding.request.inj hr).symm⟩⟩
    exact offers_of_mem_offersFor ht (hsub c (hmem c hc))
  unfold Numbered.selectFor
  rcases hverb with rfl | rfl
  · dsimp only
    split
    · exact fun f hf => by cases hf
    · rename_i hne
      exact hoffers _ hne fun p hp => (List.mem_filter.1 hp).1
  · dsimp only
    split
    · intro f hf
      rw [List.mem_singleton.1 hf]
      exact ⟨rfl, nofun⟩
    · rename_i hne
      exact hoffers _ hne fun p hp => (List.mem_filter.1 hp).1

/-- For the slot of the build itself there is a request. -/
theorem selectFor_exchange (policy : Policy) (ht : ix.Offers b t) (hplain : t.IsPlain)
    {verb : Verb} {old : Package} (hslot : b.slot = old.slot) (hbuild : b ≠ old.build)
    (hverb : verb = if b.evr.Older old.evr then .downgrade else .upgrade) (number : Nat) :
    ∃ r, .request r ∈ (selectFor ⟨number, ⟨verb, .exactly [t], {}⟩⟩ ix policy
      (lookUp ix (.exactly [t])).visible old).value := by
  obtain ⟨p, hp, hpbuild⟩ := exists_mem_offersFor ht hplain hslot
  have hrequest (candidates : List Package) (hne : candidates ≠ []) :
      ∃ r, .request r ∈ requestAmong ⟨number, ⟨verb, .exactly [t], {}⟩⟩ policy candidates := by
    obtain ⟨chosen, -, -, hrequest⟩ :=
      requestAmong_eq policy ⟨number, ⟨verb, .exactly [t], {}⟩⟩ hne
    rw [hrequest]
    exact ⟨_, List.mem_singleton_self _⟩
  have hevr : p.evr = b.evr := congrArg Build.evr hpbuild
  unfold Numbered.selectFor
  by_cases holder : b.evr.Older old.evr
  · rw [if_pos holder] at hverb
    subst hverb
    have hmem : p ∈ (offersFor ix (lookUp ix (.exactly [t])).visible old).filter
        fun p => decide (p.evr.Older old.evr) :=
      List.mem_filter.2 ⟨hp, decide_eq_true (hevr ▸ holder)⟩
    dsimp only
    split
    · rename_i hnil
      rw [hnil] at hmem
      cases hmem
    · exact hrequest _ (List.ne_nil_of_mem hmem)
  · rw [if_neg holder] at hverb
    subst hverb
    have hnewer : old.evr.Older b.evr := by
      refine (Evr.older_or_older fun hsame => hbuild ?_).resolve_right holder
      exact Build.eq_of_slot_of_evr hslot hsame.symm
    have hmem : p ∈ (offersFor ix (lookUp ix (.exactly [t])).visible old).filter
        fun p => decide (old.evr.Older p.evr) :=
      List.mem_filter.2 ⟨hp, decide_eq_true (hevr ▸ hnewer)⟩
    dsimp only
    split
    · rename_i hnil
      rw [hnil] at hmem
      cases hmem
    · exact hrequest _ (List.ne_nil_of_mem hmem)

/-- A copy is put in place again just where its build is. -/
theorem selectFor_reinstall (ht : ix.Offers b t) (number : Nat) (old : Package) {r : Solver.Request}
    (h : .request r ∈ (selectFor ⟨number, ⟨.reinstall, .exactly [t], {}⟩⟩ ix policy
      (lookUp ix (.exactly [t])).visible old).value) :
    ∃ copy, ix.Offers b copy ∧ r = ⟨number, .reinstall copy, false⟩ := by
  unfold Numbered.selectFor at h
  dsimp only at h
  split at h
  · rename_i copy hcopy
    refine ⟨copy, offers_of_mem_offersFor ht (List.mem_of_find?_eq_some hcopy), ?_⟩
    exact Finding.request.inj (List.mem_singleton.1 h)
  · unfold Numbered.failNotOffered Numbered.fail at h
    cases List.mem_singleton.1 h

theorem selectFor_again (policy : Policy) (ht : ix.Offers b t) (hplain : t.IsPlain)
    (old : Package) (hbuild : old.build = b) (number : Nat) :
    ∃ copy, ix.Offers b copy ∧ (selectFor ⟨number, ⟨.reinstall, .exactly [t], {}⟩⟩ ix policy
      (lookUp ix (.exactly [t])).visible old).value =
        [.request ⟨number, .reinstall copy, false⟩] := by
  obtain ⟨p, hp, hpbuild⟩ := exists_mem_offersFor ht hplain (congrArg Build.slot hbuild.symm)
  unfold Numbered.selectFor
  dsimp only
  split
  · rename_i copy hcopy
    exact ⟨copy, offers_of_mem_offersFor ht (List.mem_of_find?_eq_some hcopy), rfl⟩
  · rename_i hnone
    refine absurd ?_ (List.find?_eq_none.1 hnone p hp)
    exact decide_eq_true (hpbuild.trans hbuild.symm)

/-! ## Every kind of item -/

section Items

open History (Reverses)

variable {i : Item} {before : Option Build} {job : Job}

/-- Where an item has left something else, a build is not installed. -/
theorem not_isInstalled_of_holdsAfter
    (hholds : ix.installedAt? i.package.slot = Index.holdsAfter i)
    (hslot : b.slot = i.package.slot) (hne : i.action.isInbound → b ≠ i.package.build) :
    ¬ ix.isInstalled b := by
  intro hb
  have hat := Index.buildAt?_eq_some_iff.2 ⟨hslot, hb⟩
  unfold Index.buildAt? at hat
  rw [hholds, Index.holdsAfter] at hat
  split at hat
  · rename_i hinbound
    exact hne hinbound (Option.some.inj hat).symm
  · cases hat

/-- What the findings of a job that reverses an item come to. -/
structure Reversal (ix : Index) (i : Item) (before : Option Build) (number : Nat)
    (findings : List Finding) : Prop where
  /-- Every request is about what was in the slot before, or about the item to be taken back. -/
  asks : ∀ r, .request r ∈ findings → r.job = number ∧ r.weak = false ∧ i.Asks ix before r.task
  exists_request : ∃ r, .request r ∈ findings
  /-- Only where other packages of its name are installed can a reinstallation fail. -/
  alone : (i.action = .reinstall → ∀ q ∈ ix.installedPackages, q.name = i.package.name →
      q = i.package) →
    (∀ f ∈ findings, f.problem? = none) ∧
      (i.action = .install ∨ i.action = .reinstall → ∃ r, findings = [.request r])

theorem Reversal.of_singleton {number : Nat} {task : Solver.Task} (h : i.Asks ix before task) :
    Reversal ix i before number [.request ⟨number, task, false⟩] where
  asks r hr := by
    cases Finding.request.inj (List.mem_singleton.1 hr)
    exact ⟨rfl, rfl, h⟩
  exists_request := ⟨_, List.mem_singleton_self _⟩
  alone _ := by
    refine ⟨fun f hf => ?_, fun _ => ⟨_, rfl⟩⟩
    rw [List.mem_singleton.1 hf]
    rfl

theorem installedOfName_of_alone {p : Package} (hp : p ∈ ix.installedPackages)
    (hplain : p.IsPlain) (halone : ∀ q ∈ ix.installedPackages, q.name = p.name → q = p) :
    installedOfName ix p.name = [p] := by
  have hnodup : (installedOfName ix p.name).Nodup :=
    (Index.nodup_query_installed rfl).filter _
  have hmem : p ∈ installedOfName ix p.name := (mem_installedOfName_iff hplain).2 ⟨hp, rfl⟩
  have hall (q : Package) (hq : q ∈ installedOfName ix p.name) : q = p := by
    obtain ⟨hquery, hname⟩ := List.mem_filter.1 hq
    exact halone q ((Index.mem_query_installed_iff rfl).1 hquery).2 (of_decide_eq_true hname)
  rw [List.eq_replicate_of_mem hall, List.nodup_replicate] at hnodup
  have hpos := List.length_pos_of_mem hmem
  rw [List.eq_replicate_of_mem hall, show (installedOfName ix p.name).length = 1 by omega]
  rfl

/-- What comes of a job that reverses an item which was carried out. -/
theorem reversal_select (h : Reverses ix i before job) (hplain : i.package.IsPlain)
    (hholds : ix.installedAt? i.package.slot = Index.holdsAfter i) (number : Nat) :
    Reversal ix i before number (select ix policy ⟨number, job⟩).value := by
  have hinstalled (hinbound : i.action.isInbound) : i.package ∈ ix.installedPackages := by
    rw [Index.mem_installedPackages_iff, hholds, Index.holdsAfter, if_pos hinbound]
  cases h with
  | remove haction hbuild =>
    rw [select_remove (hinstalled (haction ▸ rfl)) hbuild]
    exact .of_singleton (.remove haction)
  | @change haction old hslot hbuild verb hverb target htarget =>
    have hinbound : i.action.isInbound := by
      rcases haction with haction | haction <;> rw [haction] <;> rfl
    have htplain : target.IsPlain := hplain.of_name
      ((congrArg Build.name htarget.build).trans (congrArg Slot.name hslot))
    have hupdown : verb = .upgrade ∨ verb = .downgrade := hverb ▸ (ite_eq_or_eq _ _ _).symm
    have hverbs : verb ≠ .remove ∧ verb ≠ .install := by
      rcases hupdown with rfl | rfl <;> decide
    have hgone := not_isInstalled_of_holdsAfter hholds hslot fun _ => hbuild
    have hname : i.package.name = old.name := (congrArg Slot.name hslot).symm
    rw [select_slots hverbs htarget htplain number (hinstalled hinbound) hname]
    refine ⟨fun r hr => ?_, ?_, fun _ => ⟨fun f hf => ?_, fun hother => ?_⟩⟩
    · obtain ⟨q, -, hr⟩ := List.mem_flatMap.1 hr
      obtain ⟨candidates, hne, hcandidates, rfl⟩ :=
        (selectFor_brings htarget hupdown number q _ hr).request r rfl
      exact ⟨rfl, rfl, .install hslot hgone hne hcandidates⟩
    · obtain ⟨r, hr⟩ :=
        selectFor_exchange policy htarget htplain hslot hbuild hverb number
      refine ⟨r, List.mem_flatMap.2 ⟨i.package, ?_, hr⟩⟩
      exact (mem_installedOfName_iff hplain).2 ⟨hinstalled hinbound, hname⟩
    · obtain ⟨q, -, hf⟩ := List.mem_flatMap.1 hf
      exact (selectFor_brings htarget hupdown number q f hf).noProblem
    · rcases haction with haction | haction <;> rw [haction] at hother <;> simp at hother
  | @reinstall haction target htarget =>
    have htplain : target.IsPlain := hplain.of_name (congrArg Build.name htarget.build)
    have hmem := hinstalled (haction ▸ rfl)
    obtain ⟨copy, hcopy, hselect⟩ :=
      selectFor_again policy htarget htplain i.package rfl number
    rw [select_slots (by decide) htarget htplain number hmem rfl]
    refine ⟨fun r hr => ?_, ?_, fun halone => ?_⟩
    · obtain ⟨q, -, hr⟩ := List.mem_flatMap.1 hr
      obtain ⟨copy, hcopy, rfl⟩ := selectFor_reinstall htarget number q hr
      exact ⟨rfl, rfl, .reinstall haction hcopy⟩
    · refine ⟨_, List.mem_flatMap.2 ⟨i.package, ?_, hselect ▸ List.mem_singleton_self _⟩⟩
      exact (mem_installedOfName_iff hplain).2 ⟨hmem, rfl⟩
    · rw [installedOfName_of_alone hmem hplain (halone haction), List.flatMap_singleton, hselect]
      exact (Reversal.of_singleton (.reinstall haction hcopy)).alone halone
  | @install haction target htarget =>
    have htplain : target.IsPlain := hplain.of_name (congrArg Build.name htarget.build)
    have hgone := not_isInstalled_of_holdsAfter hholds rfl fun hinbound =>
      absurd hinbound (Solver.Scope.not_isInbound_of_isRemoval haction)
    obtain ⟨candidates, hne, hcandidates, hselect⟩ :=
      select_install policy htarget htplain hgone number
    rw [hselect]
    exact .of_singleton (.install rfl hgone hne hcandidates)

end Items

end Goal

end Provision
