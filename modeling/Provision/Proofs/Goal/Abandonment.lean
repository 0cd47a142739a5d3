import Provision.Proofs.Goal.Exhaustion

/-!
# What sweeps take does not depend on their order

Each sweep starts from the removals of its own job and takes one package after the other, and what
it takes is gone for the sweeps after it. What all of them take together can be told without any
order (`Abandoned`): it is the least set with each package that may be taken, has lost something to
a job or to the set, and is needed by nothing present outside the set.

1. A sweep takes nothing else: what it knows to be gone is gone on account of the jobs or in the set,
   and each package that it takes joins the set (`Sweep.Tracks.takes`).
2. The sweeps leave nothing of the set: after all of them, what has lost something and still is there
   is held by something that is there, which is not so for the first of the set to be left over
   (`mem_swept_of_abandoned`).

As the set only asks which jobs there are, their order decides no more than which of them a removal is
put down to (`sweepAll_comm`).
-/

namespace Provision.Goal

variable {ix : Index} {names : List String} {changes swept : List Change} {job : Nat}
  {jobs others : List Nat} {p q : Package}

/-- Packages that can be taken, have lost what needed them to a job or to one another, and are needed
by nothing present but one another. -/
inductive Abandoned (ix : Index) (names : List String) (changes : List Change) (jobs : List Nat) :
    Package → Prop
  | bereft {p : Package} (hp : Sweepable ix names changes p) (hlost : Bereft ix changes jobs p)
      (hothers : ∀ q, ix.Present changes q → q.build ≠ p.build → ix.Needs q p →
        Abandoned ix names changes jobs q) :
      Abandoned ix names changes jobs p
  | further {p q : Package} (hp : Sweepable ix names changes p)
      (hq : Abandoned ix names changes jobs q) (hneeds : ix.Needs q p)
      (hothers : ∀ q, ix.Present changes q → q.build ≠ p.build → ix.Needs q p →
        Abandoned ix names changes jobs q) :
      Abandoned ix names changes jobs p

/-! ## Nothing else is taken -/

/-- What a sweep knows: who is gone is gone on account of the jobs or abandoned, who is there was
there before the sweeps, and who was there before them and is not any more is abandoned. -/
structure Sweep.Tracks (ix : Index) (names : List String) (changes : List Change) (jobs : List Nat)
    (w : Sweep) : Prop where
  removed : ∀ q ∈ w.removed,
    (∃ c ∈ changes, c.action.isRemoval ∧ (∃ job ∈ jobs, c.job = some job) ∧ c.package = q) ∨
      Abandoned ix names changes jobs q
  present : ∀ q ∈ w.present, ix.Present changes q
  gone : ∀ q, ix.Present changes q → q ∈ w.present ∨ Abandoned ix names changes jobs q

theorem Sweep.Tracks.takes {touched : List Slot} {w next : Sweep}
    (h : w.Tracks ix names changes jobs) (htouched : ∀ c ∈ changes, c.package.slot ∈ touched)
    (htakes : w.Takes ix touched names p next) :
    Abandoned ix names changes jobs p ∧ next.Tracks ix names changes jobs := by
  have hknown := isSome_metadata?_of_isAuxiliary htakes.auxiliary
  have huntouched (c : Change) (hc : c ∈ changes) : c.package.slot ≠ p.slot := fun hslot =>
    htakes.untouched (hslot ▸ htouched c hc)
  have hinstalled : p ∈ ix.installedPackages := by
    rcases h.present p (htakes.perm.subset List.mem_cons_self) with ⟨hp, -⟩ | hp
    · exact hp
    · obtain ⟨c, hc, -, hsame⟩ := Change.mem_broughtIn_iff.1 hp
      exact absurd (congrArg Package.slot hsame) (huntouched c hc)
  have hp : Sweepable ix names changes p := ⟨hinstalled, huntouched, htakes.unprotected,
    (isAuxiliary_iff hinstalled).1 htakes.auxiliary⟩
  have hothers (q : Package) (hq : ix.Present changes q) (hbuild : q.build ≠ p.build)
      (hneeds : ix.Needs q p) : Abandoned ix names changes jobs q := by
    refine (h.gone q hq).resolve_left fun hpresent => ?_
    exact not_dependsOn_of_isDeserted htakes.deserted hpresent hbuild
      ((dependsOn_iff hknown).2 hneeds)
  obtain ⟨r, hr, hdepends⟩ := exists_dependsOn_of_isDeserted htakes.deserted
  have hneeds := (dependsOn_iff hknown).1 hdepends
  have habandoned : Abandoned ix names changes jobs p := by
    rcases h.removed r hr with ⟨c, hc, hremoval, hjob, rfl⟩ | hr
    · exact .bereft hp ⟨c, hc, hremoval, hjob, hneeds⟩ hothers
    · exact .further hp hr hneeds hothers
  refine ⟨habandoned, fun q hq => ?_, fun q hq => ?_, fun q hq => ?_⟩
  · rw [htakes.removed] at hq
    rcases List.mem_append.1 hq with hq | hq
    · exact h.removed q hq
    · cases List.mem_singleton.1 hq
      exact .inr habandoned
  · exact h.present q (htakes.perm.subset (List.mem_cons_of_mem p hq))
  · rcases h.gone q hq with hq | hq
    · rcases List.mem_cons.1 (htakes.perm.mem_iff.2 hq) with rfl | hq
      · exact .inr habandoned
      · exact .inl hq
    · exact .inr hq

/-- By induction on the sweep: whatever it takes is abandoned. -/
theorem Sweep.Runs.abandoned {touched : List Slot} {w : Sweep} {taken : List Package}
    (h : w.Runs ix touched names taken) (hw : w.Tracks ix names changes jobs)
    (htouched : ∀ c ∈ changes, c.package.slot ∈ touched) :
    ∀ p ∈ taken, Abandoned ix names changes jobs p := by
  induction h with
  | stop w => exact fun p hp => absurd hp List.not_mem_nil
  | take htakes _ ih =>
    obtain ⟨habandoned, hnext⟩ := hw.takes htouched htakes
    intro p hp
    rcases List.mem_cons.1 hp with rfl | hp
    · exact habandoned
    · exact ih hnext p hp

theorem start_tracks (hadds : Adds ix jobs changes swept)
    (habandoned : ∀ c ∈ swept, Abandoned ix names changes jobs c.package) (hjob : job ∈ jobs) :
    (Sweep.start ix (changes ++ swept) job).Tracks ix names changes jobs := by
  have hremoves (c : Change) (hc : c ∈ swept) : c.action.isRemoval := hadds.isRemoval hc
  refine ⟨fun q hq => ?_, fun q hq => ?_, fun q hq => ?_⟩
  · obtain ⟨c, hc, rfl⟩ := List.mem_map.1 hq
    obtain ⟨hc, hgone⟩ := List.mem_filter.1 hc
    rw [Bool.and_eq_true, beq_iff_eq] at hgone
    rcases List.mem_append.1 hc with hc | hc
    · exact .inl ⟨c, hc, hgone.1, ⟨job, hjob, hgone.2⟩, rfl⟩
    · exact .inr (habandoned c hc)
  · exact present_of_append hremoves (mem_present_start_iff.1 hq)
  · rcases present_append_or_mem hadds.installed hq with hq | ⟨c, hc, rfl⟩
    · exact .inl (mem_present_start_iff.2 hq)
    · exact .inr (habandoned c hc)

theorem exists_abandoned (ix : Index) (names : List String) (changes : List Change)
    (jobs : List Nat) :
    ∃ swept, (sweepAll ix names changes jobs).value = changes ++ swept ∧
      Adds ix jobs changes swept ∧ ∀ c ∈ swept, Abandoned ix names changes jobs c.package := by
  refine sweepAll_keeps (motive := fun cs => ∃ swept, cs = changes ++ swept ∧
    Adds ix jobs changes swept ∧ ∀ c ∈ swept, Abandoned ix names changes jobs c.package)
    ⟨[], (List.append_nil _).symm, .nil, fun c hc => absurd hc List.not_mem_nil⟩ ?_
  rintro _ ⟨swept, rfl, hadds, habandoned⟩ job hjob taken hruns
  refine ⟨_, List.append_assoc _ _ _, hadds.sweep hjob hruns, fun c hc => ?_⟩
  rcases List.mem_append.1 hc with hc | hc
  · exact habandoned c hc
  · obtain ⟨t, ht, rfl⟩ := List.mem_map.1 hc
    exact hruns.abandoned (start_tracks hadds habandoned hjob)
      (fun d hd => List.mem_map_of_mem (List.mem_append_left _ hd)) t ht

/-! ## Nothing is left over -/

section

variable (hvalue : (sweepAll ix names changes jobs).value = changes ++ swept)
  (hadds : Adds ix jobs changes swept)

include hvalue hadds

/-- What may be taken and has lost something is taken, if all that needs it is. -/
theorem mem_swept_of_bereft (hp : Sweepable ix names changes p)
    (hlost : Bereft ix (changes ++ swept) jobs p)
    (hothers : ∀ q, ix.Present changes q → q.build ≠ p.build → ix.Needs q p →
      ∃ c ∈ swept, c.package = q) : ∃ c ∈ swept, c.package = p := by
  by_contra hleft
  have hstays : Sweepable ix names (changes ++ swept) p := by
    refine { hp with untouched := fun c hc hslot => ?_ }
    rcases List.mem_append.1 hc with hc | hc
    · exact hp.untouched c hc hslot
    · exact hleft ⟨c, hc, Index.installed_unique (hadds.installed c hc) hp.installed hslot⟩
  rw [← hvalue] at hstays hlost
  obtain ⟨q, hq, hbuild, hneeds⟩ := held_of_bereft changes jobs hstays hlost
  rw [hvalue] at hq
  have hremoves (c : Change) (hc : c ∈ swept) : c.action.isRemoval := hadds.isRemoval hc
  obtain ⟨c, hc, rfl⟩ := hothers q (present_of_append hremoves hq) hbuild hneeds
  exact not_present_append hremoves hc (hadds.untouched c hc) hq

/-- By induction on why the package is abandoned: all that needs it is taken before. -/
theorem mem_swept_of_abandoned (h : Abandoned ix names changes jobs p) :
    ∃ c ∈ swept, c.package = p := by
  induction h with
  | bereft hp hlost _ ih =>
    obtain ⟨c, hc, hremoval, hjob, hneeds⟩ := hlost
    exact mem_swept_of_bereft hvalue hadds hp
      ⟨c, List.mem_append_left _ hc, hremoval, hjob, hneeds⟩ ih
  | further hp _ hneeds _ ihq ih =>
    obtain ⟨c, hc, rfl⟩ := ihq
    exact mem_swept_of_bereft hvalue hadds hp
      ⟨c, List.mem_append_right _ hc, hadds.isRemoval hc, hadds.exists_job hc, hneeds⟩ ih

end

/-- What sweeps take is what is abandoned. -/
theorem exists_swept_iff (ix : Index) (names : List String) (changes : List Change)
    (jobs : List Nat) :
    ∃ swept, (sweepAll ix names changes jobs).value = changes ++ swept ∧
      Adds ix jobs changes swept ∧
        ∀ p, p ∈ swept.map Change.package ↔ Abandoned ix names changes jobs p := by
  obtain ⟨swept, hvalue, hadds, habandoned⟩ := exists_abandoned ix names changes jobs
  refine ⟨swept, hvalue, hadds, fun p => ?_⟩
  rw [List.mem_map]
  constructor
  · rintro ⟨c, hc, rfl⟩
    exact habandoned c hc
  · exact mem_swept_of_abandoned hvalue hadds

/-! ## Other orders -/

theorem Bereft.imp (h : Bereft ix changes jobs p) (hsub : jobs ⊆ others) :
    Bereft ix changes others p := by
  obtain ⟨c, hc, hremoval, ⟨job, hjob, hattributed⟩, hneeds⟩ := h
  exact ⟨c, hc, hremoval, ⟨job, hsub hjob, hattributed⟩, hneeds⟩

theorem Abandoned.imp (h : Abandoned ix names changes jobs p) (hsub : jobs ⊆ others) :
    Abandoned ix names changes others p := by
  induction h with
  | bereft hp hlost _ ih => exact .bereft hp (hlost.imp hsub) ih
  | further hp _ hneeds _ ihq ih => exact .further hp ihq hneeds ih

/-- The change, but for the job on whose account it is made. -/
def unattributed (c : Change) : Change := { c with job := none }

/-- The removal of an orphan, whichever job it is put down to. -/
def orphanRemoval (p : Package) : Change := { package := p, action := .remove, reason := .clean }

theorem Adds.nodup_packages (h : Adds ix jobs changes swept) :
    (swept.map Change.package).Nodup := by
  have hslots := h.nodup
  rw [List.Nodup, List.pairwise_map] at hslots ⊢
  exact hslots.imp fun hne heq => hne (congrArg Package.slot heq)

theorem Adds.map_unattributed (h : Adds ix jobs changes swept) :
    swept.map unattributed = (swept.map Change.package).map orphanRemoval := by
  rw [List.map_map]
  refine List.map_congr_left fun c hc => ?_
  obtain ⟨job, -, heq⟩ := h.removes c hc
  rw [heq]
  rfl

/--
Sweeping for the same jobs in another order adds the same removals, in some order and each on account
of one of the jobs.
-/
theorem sweepAll_comm (ix : Index) (names : List String) (changes : List Change)
    (h : ∀ job, job ∈ jobs ↔ job ∈ others) :
    ∃ swept sweptOtherwise, (sweepAll ix names changes jobs).value = changes ++ swept ∧
      (sweepAll ix names changes others).value = changes ++ sweptOtherwise ∧
      (swept.map unattributed).Perm (sweptOtherwise.map unattributed) := by
  obtain ⟨swept, hvalue, hadds, hmem⟩ := exists_swept_iff ix names changes jobs
  obtain ⟨sweptOtherwise, hvalueOtherwise, haddsOtherwise, hmemOtherwise⟩ :=
    exists_swept_iff ix names changes others
  refine ⟨swept, sweptOtherwise, hvalue, hvalueOtherwise, ?_⟩
  rw [hadds.map_unattributed, haddsOtherwise.map_unattributed]
  refine List.Perm.map _
    ((List.perm_ext_iff_of_nodup hadds.nodup_packages haddsOtherwise.nodup_packages).2 fun p => ?_)
  rw [hmem, hmemOtherwise]
  exact ⟨fun hp => hp.imp fun job => (h job).1, fun hp => hp.imp fun job => (h job).2⟩

/-! ### Two removals of what needs one library -/

/-- Two applications, and a library that was installed on their account. -/
def sharedIndex : Index :=
  ((({} : Index).addInstalled (samplePackage "app" systemRepo)
    { requires := [⟨"lib", .any⟩] }).addInstalled (samplePackage "tool" systemRepo)
    { recommends := [⟨"lib", .any⟩] }).addInstalled (samplePackage "lib" systemRepo)
    { reason := some .dependency }

/-- The applications are taken off, each by a job of its own. -/
def sharedChanges : List Change :=
  [{ package := samplePackage "app" systemRepo, action := .remove, reason := .user, job := some 0 },
    { package := samplePackage "tool" systemRepo, action := .remove, reason := .user, job := some 1 }]

/-- The library is put down to the job that is swept for first. -/
theorem sweepAll_comm_shared :
    (sweepAll sharedIndex [] sharedChanges [0, 1]).value =
        sharedChanges ++ [sweptChange 0 (samplePackage "lib" systemRepo)] ∧
      (sweepAll sharedIndex [] sharedChanges [1, 0]).value =
        sharedChanges ++ [sweptChange 1 (samplePackage "lib" systemRepo)] ∧
      ([sweptChange 0 (samplePackage "lib" systemRepo)].map unattributed).Perm
        ([sweptChange 1 (samplePackage "lib" systemRepo)].map unattributed) := by
  have hfirst : (sweepAll sharedIndex [] sharedChanges [0, 1]).value =
      sharedChanges ++ [sweptChange 0 (samplePackage "lib" systemRepo)] := by cbv
  have hsecond : (sweepAll sharedIndex [] sharedChanges [1, 0]).value =
      sharedChanges ++ [sweptChange 1 (samplePackage "lib" systemRepo)] := by cbv
  have hjobs (job : Nat) : job ∈ [0, 1] ↔ job ∈ [1, 0] := by
    simp only [List.mem_cons, List.not_mem_nil, or_false]
    exact or_comm
  obtain ⟨swept, sweptOtherwise, hswept, hsweptOtherwise, hperm⟩ :=
    sweepAll_comm sharedIndex [] sharedChanges hjobs
  rw [List.append_cancel_left (hswept.symm.trans hfirst),
    List.append_cancel_left (hsweptOtherwise.symm.trans hsecond)] at hperm
  exact ⟨hfirst, hsecond, hperm⟩

end Provision.Goal
