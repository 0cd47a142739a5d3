import Mathlib.Data.List.Perm.Basic
import Provision.Goal.Orphans
import Provision.Proofs.Solver.Sound

/-!
# Sweeping keeps worlds sound

A sweep takes off installed packages that nothing left requires. What is left was among the packages
that the sweep asked about, so none of them loses a requirement (`Sound.without`), and by induction
along the sweep and from sweep to sweep the world stays sound (`sweepAll_sound`).
-/

namespace Provision

open Goal

variable {ix : Index} {taken brought : List Package}

/-! ## Taking one package off -/

theorem Index.mem_exchange_without_iff {p : Package} (hfree : ∀ q ∈ brought, q.slot ≠ p.slot)
    {q : Package} :
    q ∈ ix.exchange (taken ++ [p]) brought ↔ q ∈ ix.exchange taken brought ∧ q ≠ p := by
  rw [mem_exchange_iff, mem_exchange_iff, List.mem_append, List.mem_singleton]
  constructor
  · rintro (⟨hq, hkept, hslot⟩ | hq)
    · exact ⟨.inl ⟨hq, fun h => hkept (.inl h), hslot⟩, fun h => hkept (.inr h)⟩
    · refine ⟨.inr hq, ?_⟩
      rintro rfl
      exact hfree q hq rfl
  · rintro ⟨⟨hq, hkept, hslot⟩ | hq, hne⟩
    · refine .inl ⟨hq, ?_, hslot⟩
      rintro (h | h)
      · exact hkept h
      · exact hne h
    · exact .inr hq

/-- Beside an installed package whose slot was left alone there is no second one of its build. -/
theorem Index.eq_of_build_eq {p q : Package} (hp : p ∈ ix.installedPackages)
    (hfree : ∀ q ∈ brought, q.slot ≠ p.slot) (hq : q ∈ ix.exchange taken brought)
    (hbuild : q.build = p.build) : q = p := by
  have hslot : q.slot = p.slot := congrArg Build.slot hbuild
  rcases mem_exchange_iff.1 hq with ⟨hq, -⟩ | hq
  · exact installed_unique hq hp hslot
  · exact absurd hslot (hfree q hq)

/-- The first package requires or recommends something that the second provides. -/
def Index.Needs (ix : Index) (p q : Package) : Prop :=
  ∃ metadata, ix.metadata? p = some metadata ∧
    ∃ r ∈ metadata.requires ++ metadata.recommends, ix.meets q r

theorem dependsOn_iff {p q : Package} (hq : (ix.metadata? q).isSome) :
    dependsOn ix p q ↔ ix.Needs p q := by
  obtain ⟨own, hown⟩ := Option.isSome_iff_exists.1 hq
  unfold dependsOn Index.Needs Index.meets
  rw [hown]
  rcases ix.metadata? p with _ | metadata
  · simp
  · simp only [List.any_eq_true, Option.some.injEq, exists_eq_left']

/-- A package that nothing else depends on can go. -/
theorem Index.Sound.without {p : Package} (h : ix.Sound brought (ix.exchange taken brought))
    (hp : p ∈ ix.installedPackages) (hfree : ∀ q ∈ brought, q.slot ≠ p.slot)
    (hknown : (ix.metadata? p).isSome)
    (hdeserted : ∀ q ∈ ix.exchange taken brought, q.build ≠ p.build → ¬ dependsOn ix q p) :
    ix.Sound brought (ix.exchange (taken ++ [p]) brought) := by
  have hprovider {q : Package} (hq : q ∈ ix.exchange taken brought) (hne : q ≠ p)
      {metadata : Metadata} (hmetadata : ix.metadata? q = some metadata) {r : Requirement}
      (hr : r ∈ metadata.requires) (h : ∃ x ∈ ix.exchange taken brought, ix.meets x r) :
      ∃ x ∈ ix.exchange (taken ++ [p]) brought, ix.meets x r := by
    obtain ⟨x, hx, hmeets⟩ := h
    refine ⟨x, (mem_exchange_without_iff hfree).2 ⟨hx, ?_⟩, hmeets⟩
    rintro rfl
    refine hdeserted q hq (fun hbuild => hne (eq_of_build_eq hp hfree hq hbuild)) ?_
    exact (dependsOn_iff hknown).2 ⟨metadata, hmetadata, r, List.mem_append_left _ hr, hmeets⟩
  constructor
  · intro q hq metadata hmetadata r hr
    have hne : q ≠ p := by
      rintro rfl
      exact hfree q hq rfl
    exact hprovider (mem_exchange_iff.2 (.inr hq)) hne hmetadata hr
      (h.requires q hq metadata hmetadata r hr)
  · intro q hq hstays metadata hmetadata r hr hbefore
    obtain ⟨hq, hne⟩ := (mem_exchange_without_iff hfree).1 hq
    exact hprovider hq hne hmetadata hr (h.keeps q hq hstays metadata hmetadata r hr hbefore)
  · intro q hq x hx hne
    exact h.conflicts q ((mem_exchange_without_iff hfree).1 hq).1 x
      ((mem_exchange_without_iff hfree).1 hx).1 hne
  · intro q hq metadata hmetadata o ho x hx
    exact h.obsoletes q hq metadata hmetadata o ho x ((mem_exchange_without_iff hfree).1 hx).1

namespace Goal

/-! ## One sweep -/

theorem findOrphan?_cases {touched : List Slot} {names : List String} {w : Sweep} {i : Nat}
    {p : Package} (h : w.findOrphan? ix touched names = some i) (hp : w.present[i]? = some p) :
    p.slot ∉ touched ∧ p.name ∉ names ∧ isAuxiliary ix p ∧ w.isDeserted ix p := by
  unfold Sweep.findOrphan? at h
  obtain ⟨hi, horphan, -⟩ := List.findIdx?_eq_some_iff_getElem.1 h
  rw [List.getElem?_eq_getElem hi] at hp
  rw [Option.some.inj hp, Bool.and_eq_true, Bool.and_eq_true, Bool.and_eq_true] at horphan
  obtain ⟨⟨⟨htouched, hname⟩, hauxiliary⟩, hdeserted⟩ := horphan
  refine ⟨?_, ?_, hauxiliary, hdeserted⟩
  · simpa using htouched
  · simpa using hname

theorem isSome_metadata?_of_isAuxiliary {p : Package} (h : isAuxiliary ix p) :
    (ix.metadata? p).isSome := by
  unfold isAuxiliary at h
  rcases hmetadata : ix.metadata? p with _ | metadata
  · rw [hmetadata] at h
    cases h
  · rfl

theorem not_dependsOn_of_isDeserted {w : Sweep} {p q : Package} (h : w.isDeserted ix p)
    (hq : q ∈ w.present) (hbuild : q.build ≠ p.build) : ¬ dependsOn ix q p := by
  intro hdepends
  unfold Sweep.isDeserted at h
  rw [Bool.and_eq_true, Bool.not_eq_true', List.any_eq_false] at h
  refine h.2 q hq ?_
  rw [Bool.and_eq_true, decide_eq_true_eq]
  exact ⟨hbuild, hdepends⟩

theorem exists_dependsOn_of_isDeserted {w : Sweep} {p : Package} (h : w.isDeserted ix p) :
    ∃ q ∈ w.removed, dependsOn ix q p := by
  unfold Sweep.isDeserted at h
  rw [Bool.and_eq_true, List.any_eq_true] at h
  exact h.1

/-- What a sweep asks about: all that is left, and in slots that nothing touched only that. -/
structure Sweep.Watches (ix : Index) (touched : List Slot) (world : List Package) (w : Sweep) :
    Prop where
  present : ∀ q ∈ world, q ∈ w.present
  installed : ∀ q ∈ w.present, q.slot ∉ touched → q ∈ ix.installedPackages

/-- The sweep takes an orphan and goes on from the next state. -/
structure Sweep.Takes (ix : Index) (touched : List Slot) (names : List String) (w : Sweep)
    (p : Package) (next : Sweep) : Prop where
  perm : (p :: next.present).Perm w.present
  removed : next.removed = w.removed ++ [p]
  untouched : p.slot ∉ touched
  unprotected : p.name ∉ names
  auxiliary : isAuxiliary ix p
  deserted : w.isDeserted ix p

/-- From the first state on the sweep may take the packages, one after the other. -/
inductive Sweep.Runs (ix : Index) (touched : List Slot) (names : List String) :
    Sweep → List Package → Prop
  | stop (w : Sweep) : Runs ix touched names w []
  | take {w next : Sweep} {p : Package} {rest : List Package}
      (htakes : w.Takes ix touched names p next) (hrest : Runs ix touched names next rest) :
      Runs ix touched names w (p :: rest)

theorem run_runs (ix : Index) (touched : List Slot) (names : List String) (bound : Nat)
    (w : Sweep) : w.Runs ix touched names (Sweep.run ix touched names bound w).value := by
  induction bound generalizing w with
  | zero => exact .stop w
  | succ bound ih =>
    unfold Sweep.run
    split
    · exact .stop w
    · rename_i i p hfound
      obtain ⟨j, hj, hfound⟩ := Option.bind_eq_some_iff.1 hfound
      obtain ⟨q, hget, heq⟩ := Option.map_eq_some_iff.1 hfound
      cases heq
      obtain ⟨hi, rfl⟩ := List.getElem?_eq_some_iff.1 hget
      obtain ⟨htouched, hname, hauxiliary, hdeserted⟩ := findOrphan?_cases hj hget
      rw [Traced.value_bind, Traced.value_bind, Traced.value_pure]
      exact .take ⟨List.getElem_cons_eraseIdx_perm hi, rfl, htouched, hname, hauxiliary, hdeserted⟩
        (ih _)

theorem Sweep.Takes.watches {touched : List Slot} {names : List String} {w next : Sweep}
    {p : Package} (h : w.Takes ix touched names p next) (hfree : ∀ q ∈ brought, q.slot ≠ p.slot)
    (hw : w.Watches ix touched (ix.exchange taken brought)) :
    next.Watches ix touched (ix.exchange (taken ++ [p]) brought) := by
  refine ⟨fun q hq => ?_, fun q hq => ?_⟩
  · obtain ⟨hq, hne⟩ := (Index.mem_exchange_without_iff hfree).1 hq
    exact (List.mem_cons.1 (h.perm.mem_iff.2 (hw.present q hq))).resolve_left hne
  · exact hw.installed q (h.perm.subset (List.mem_cons_of_mem p hq))

/-- By induction on the sweep: each orphan leaves a sound world behind. -/
theorem Sweep.Runs.sound {touched : List Slot} {names : List String} {w : Sweep}
    {swept : List Package} (h : w.Runs ix touched names swept)
    (hbrought : ∀ q ∈ brought, q.slot ∈ touched)
    (hsound : ix.Sound brought (ix.exchange taken brought))
    (hw : w.Watches ix touched (ix.exchange taken brought)) :
    ix.Sound brought (ix.exchange (taken ++ swept) brought) ∧
      ∀ p ∈ swept, p ∈ ix.installedPackages := by
  induction h generalizing taken with
  | stop w =>
    rw [List.append_nil]
    exact ⟨hsound, nofun⟩
  | @take w next p rest htakes _ ih =>
    have hpresent : p ∈ w.present := htakes.perm.subset List.mem_cons_self
    have hp : p ∈ ix.installedPackages := hw.installed p hpresent htakes.untouched
    have hfree (q : Package) (hq : q ∈ brought) : q.slot ≠ p.slot := by
      intro hslot
      exact htakes.untouched (hslot ▸ hbrought q hq)
    have hwithout := hsound.without hp hfree (isSome_metadata?_of_isAuxiliary htakes.auxiliary)
      fun q hq hbuild => not_dependsOn_of_isDeserted htakes.deserted (hw.present q hq) hbuild
    obtain ⟨hrest, hswept⟩ := ih hwithout (htakes.watches hfree hw)
    rw [List.append_assoc] at hrest
    refine ⟨hrest, fun q hq => ?_⟩
    rcases List.mem_cons.1 hq with rfl | hq
    · exact hp
    · exact hswept q hq

/-! ## All sweeps -/

/-- The world that changes lead to is sound, and what they take off was installed. -/
structure SoundChanges (ix : Index) (changes : List Change) : Prop where
  sound : ix.Sound (Change.broughtIn changes) (ix.worldWith changes)
  installed : ∀ p ∈ Change.takenOff changes, p ∈ ix.installedPackages

theorem mem_present_start_iff {changes : List Change} {job : Nat} {q : Package} :
    q ∈ (Sweep.start ix changes job).present ↔
      (q ∈ ix.installedPackages ∧
        ∀ c ∈ changes, c.action.isRemoval → c.package.build ≠ q.build) ∨
      q ∈ Change.broughtIn changes := by
  have hquery : q ∈ ix.query { side := some .installed } ↔ q ∈ ix.installedPackages := by
    rw [Index.mem_query_installed_iff rfl]
    exact and_iff_right rfl
  unfold Sweep.start Change.broughtIn
  rw [List.mem_append, List.mem_filter, hquery, Bool.not_eq_true', List.any_eq_false]
  simp only [List.mem_map, List.mem_filter, decide_eq_true_eq]
  refine or_congr_left (and_congr_right fun _ => ⟨fun hkept c hc hremoval => ?_, ?_⟩)
  · exact hkept c.package ⟨c, ⟨hc, hremoval⟩, rfl⟩
  · rintro hkept _ ⟨c, ⟨hc, hremoval⟩, rfl⟩
    exact hkept c hc hremoval

theorem installed_of_mem_present_start {changes : List Change} {job : Nat} {q : Package}
    (hq : q ∈ (Sweep.start ix changes job).present) (hfree : q.slot ∉ changes.map (·.package.slot)) :
    q ∈ ix.installedPackages := by
  rcases mem_present_start_iff.1 hq with ⟨hq, -⟩ | hq
  · exact hq
  · obtain ⟨c, hc, -, rfl⟩ := Change.mem_broughtIn_iff.1 hq
    exact absurd (List.mem_map_of_mem hc) hfree

theorem start_watches {changes : List Change} (h : SoundChanges ix changes) (job : Nat) :
    (Sweep.start ix changes job).Watches ix (changes.map (·.package.slot))
      (ix.worldWith changes) := by
  refine ⟨fun q hq => mem_present_start_iff.2 ?_, fun q => installed_of_mem_present_start⟩
  rcases Index.mem_exchange_iff.1 hq with ⟨hq, hkept, -⟩ | hq
  · refine .inl ⟨hq, fun c hc hremoval hbuild => ?_⟩
    have htaken : c.package ∈ Change.takenOff changes :=
      Change.mem_takenOff_iff.2 ⟨c, hc, hremoval, rfl⟩
    rw [Index.installed_unique (h.installed _ htaken) hq (congrArg Build.slot hbuild)] at htaken
    exact hkept htaken
  · exact .inr hq

/-- The removals that a sweep adds. -/
def sweptChange (job : Nat) (p : Package) : Change :=
  { package := p, action := .remove, reason := .clean, job := some job }

theorem broughtIn_swept (job : Nat) (swept : List Package) :
    Change.broughtIn (swept.map (sweptChange job)) = [] := by
  induction swept with
  | nil => rfl
  | cons p rest ih => exact ih

theorem takenOff_swept (job : Nat) (swept : List Package) :
    Change.takenOff (swept.map (sweptChange job)) = swept := by
  induction swept with
  | nil => rfl
  | cons p rest ih => exact congrArg (p :: ·) ih

theorem sweepOrphans_value (ix : Index) (changes : List Change) (names : List String) (job : Nat) :
    ∃ swept : List Package,
      (sweepOrphans ix changes names job).value = swept.map (sweptChange job) ∧
      (Sweep.start ix changes job).Runs ix (changes.map (·.package.slot)) names swept :=
  ⟨_, rfl, run_runs ix _ names _ _⟩

/-- What every sweep keeps, all of them keep. -/
theorem sweepAll_keeps {names : List String} {changes : List Change} {jobs : List Nat}
    {motive : List Change → Prop} (hstart : motive changes)
    (hstep : ∀ before, motive before → ∀ job ∈ jobs, ∀ swept,
      (Sweep.start ix before job).Runs ix (before.map (·.package.slot)) names swept →
        motive (before ++ swept.map (sweptChange job))) :
    motive (sweepAll ix names changes jobs).value := by
  induction jobs generalizing changes with
  | nil => exact hstart
  | cons job rest ih =>
    obtain ⟨swept, hvalue, hruns⟩ := sweepOrphans_value ix changes names job
    unfold sweepAll
    rw [Traced.value_bind, Traced.value_bind, hvalue]
    exact ih (hstep changes hstart job List.mem_cons_self swept hruns) fun before hbefore other hother =>
      hstep before hbefore other (List.mem_cons_of_mem job hother)

/-- A sweep keeps changes sound. -/
theorem SoundChanges.sweep {changes : List Change} (h : SoundChanges ix changes)
    {names : List String} {job : Nat} {swept : List Package}
    (hruns : (Sweep.start ix changes job).Runs ix (changes.map (·.package.slot)) names swept) :
    SoundChanges ix (changes ++ swept.map (sweptChange job)) := by
  have hbrought (q : Package) (hq : q ∈ Change.broughtIn changes) :
      q.slot ∈ changes.map (·.package.slot) := by
    obtain ⟨c, hc, -, rfl⟩ := Change.mem_broughtIn_iff.1 hq
    exact List.mem_map_of_mem hc
  obtain ⟨hsound, hswept⟩ := hruns.sound hbrought h.sound (start_watches h job)
  constructor
  · rw [Index.worldWith, Change.broughtIn_append, Change.takenOff_append, broughtIn_swept,
      takenOff_swept, List.append_nil]
    exact hsound
  · intro p hp
    rw [Change.takenOff_append, takenOff_swept, List.mem_append] at hp
    exact hp.elim (h.installed p) (hswept p)

theorem sweepAll_sound {changes : List Change} (h : SoundChanges ix changes) (names : List String)
    (jobs : List Nat) : SoundChanges ix (sweepAll ix names changes jobs).value :=
  sweepAll_keeps h fun _ hbefore _ _ _ hruns => hbefore.sweep hruns

/-- Sweeps add to the changes. -/
theorem mem_sweepAll_of_mem {changes : List Change} (names : List String) (jobs : List Nat)
    {c : Change} (hc : c ∈ changes) : c ∈ (sweepAll ix names changes jobs).value :=
  sweepAll_keeps hc fun _ hbefore _ _ _ _ => List.mem_append_left _ hbefore

/-- Sweeps add removals only. -/
theorem mem_sweepAll {changes : List Change} {names : List String} {jobs : List Nat} :
    ∀ c ∈ (sweepAll ix names changes jobs).value, c ∈ changes ∨ ∃ job p, c = sweptChange job p := by
  refine sweepAll_keeps (motive := fun cs => ∀ c ∈ cs, c ∈ changes ∨ ∃ job p, c = sweptChange job p)
    (fun c hc => .inl hc) fun before hbefore job _ swept _ c hc => ?_
  rcases List.mem_append.1 hc with hc | hc
  · exact hbefore c hc
  · obtain ⟨p, -, rfl⟩ := List.mem_map.1 hc
    exact .inr ⟨job, p, rfl⟩

/-- Sweeps bring nothing in. -/
theorem broughtIn_sweepAll (changes : List Change) (names : List String) (jobs : List Nat) :
    Change.broughtIn (sweepAll ix names changes jobs).value = Change.broughtIn changes := by
  refine sweepAll_keeps (motive := fun cs => Change.broughtIn cs = Change.broughtIn changes) rfl ?_
  intro before hbefore job _ swept _
  rw [Change.broughtIn_append, broughtIn_swept, List.append_nil, hbefore]

end Goal

end Provision
