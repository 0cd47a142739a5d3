import Provision.Proofs.Goal.Orphaned

/-!
# Sweeps end when nothing is left to take

A sweep has steps enough for all packages that it asks about, so it ends where it finds no orphan
(`run_exhausts`): what has lost something that needed it is still needed by something present. A
package that keeps another from being taken may be taken itself by a later sweep, but then that
sweep knows of the loss. So after all sweeps it is as after each one (`held_of_bereft`).

What a sweep takes to be present is more than what remains in the end: a build that makes room for
another one in its slot is still looked at (`Index.Present`).
-/

namespace Provision

/--
What sweeps take to be there: what the changes bring in, and what is installed and not removed, also
if something else comes into its slot.
-/
def Index.Present (ix : Index) (changes : List Change) (p : Package) : Prop :=
  (p ∈ ix.installedPackages ∧ ∀ c ∈ changes, c.action.isRemoval → c.package.build ≠ p.build) ∨
    p ∈ Change.broughtIn changes

namespace Goal

variable {ix : Index} {names : List String} {changes further : List Change} {job : Nat}
  {jobs : List Nat} {p q : Package}

/-- An installed package that a sweep may take: the changes leave it alone, nothing protects it, and
it was installed on account of others. -/
structure Sweepable (ix : Index) (names : List String) (changes : List Change) (p : Package) :
    Prop where
  installed : p ∈ ix.installedPackages
  untouched : ∀ c ∈ changes, c.package.slot ≠ p.slot
  unprotected : p.name ∉ names
  auxiliary : ∃ reason, ix.reason? p.build = some reason ∧ reason ≠ .user

/-- A removal on account of one of the jobs takes off something that needs the package. -/
def Bereft (ix : Index) (changes : List Change) (jobs : List Nat) (p : Package) : Prop :=
  ∃ c ∈ changes, c.action.isRemoval ∧ (∃ job ∈ jobs, c.job = some job) ∧ ix.Needs c.package p

/-- Something else that is present needs the package. -/
def Held (ix : Index) (changes : List Change) (p : Package) : Prop :=
  ∃ q, ix.Present changes q ∧ q.build ≠ p.build ∧ ix.Needs q p

theorem Sweepable.of_append (h : Sweepable ix names (changes ++ further) p) :
    Sweepable ix names changes p where
  installed := h.installed
  untouched c hc := h.untouched c (List.mem_append_left _ hc)
  unprotected := h.unprotected
  auxiliary := h.auxiliary

theorem Sweepable.present (h : Sweepable ix names changes p) : ix.Present changes p :=
  .inl ⟨h.installed, fun c hc _ hbuild => h.untouched c hc (congrArg Build.slot hbuild)⟩

/-! ## Further removals -/

section Removals

variable (hremoves : ∀ c ∈ further, c.action.isRemoval)

include hremoves

theorem present_of_append (h : ix.Present (changes ++ further) q) : ix.Present changes q := by
  rcases h with ⟨hq, hkept⟩ | hq
  · exact .inl ⟨hq, fun c hc => hkept c (List.mem_append_left _ hc)⟩
  · obtain ⟨c, hc, hinbound, rfl⟩ := Change.mem_broughtIn_iff.1 hq
    rcases List.mem_append.1 hc with hc | hc
    · exact .inr (Change.mem_broughtIn_iff.2 ⟨c, hc, hinbound, rfl⟩)
    · exact absurd hinbound (Solver.Scope.not_isInbound_of_isRemoval (hremoves c hc))

/-- What further removals take off is not present after them. -/
theorem not_present_append {c : Change} (hc : c ∈ further)
    (huntouched : ∀ d ∈ changes, d.package.slot ≠ c.package.slot) :
    ¬ ix.Present (changes ++ further) c.package := by
  rintro (⟨-, hkept⟩ | hbrought)
  · exact hkept c (List.mem_append_right _ hc) (hremoves c hc) rfl
  · obtain ⟨d, hd, hinbound, hsame⟩ := Change.mem_broughtIn_iff.1 hbrought
    rcases List.mem_append.1 hd with hd | hd
    · exact huntouched d hd (congrArg Package.slot hsame)
    · exact absurd hinbound (Solver.Scope.not_isInbound_of_isRemoval (hremoves d hd))

end Removals

/-- What is no longer present after the removal of installed packages is one of them. -/
theorem present_append_or_mem (hinstalled : ∀ c ∈ further, c.package ∈ ix.installedPackages)
    (h : ix.Present changes q) :
    ix.Present (changes ++ further) q ∨ ∃ c ∈ further, c.package = q := by
  rcases h with ⟨hq, hkept⟩ | hq
  · by_cases htaken : ∃ c ∈ further, c.package.build = q.build
    · obtain ⟨c, hc, hbuild⟩ := htaken
      exact .inr ⟨c, hc, Index.installed_unique (hinstalled c hc) hq (congrArg Build.slot hbuild)⟩
    · refine .inl (.inl ⟨hq, fun c hc hremoval hbuild => ?_⟩)
      rcases List.mem_append.1 hc with hc | hc
      · exact hkept c hc hremoval hbuild
      · exact htaken ⟨c, hc, hbuild⟩
  · rw [Index.Present, Change.broughtIn_append]
    exact .inl (.inr (List.mem_append_left _ hq))

/-! ## One sweep -/

theorem dependsOn_of_findOrphan?_eq_none {touched : List Slot} {w : Sweep}
    (h : w.findOrphan? ix touched names = none) (hp : p ∈ w.present) (hslot : p.slot ∉ touched)
    (hname : p.name ∉ names) (hauxiliary : isAuxiliary ix p)
    (hlost : ∃ q ∈ w.removed, dependsOn ix q p) :
    ∃ q ∈ w.present, q.build ≠ p.build ∧ dependsOn ix q p := by
  unfold Sweep.findOrphan? at h
  have hnot := List.findIdx?_eq_none_iff.1 h p hp
  have hremoved : w.removed.any (fun q => dependsOn ix q p) = true := List.any_eq_true.2 hlost
  simp only [List.contains_eq_mem, decide_eq_false hslot, decide_eq_false hname, hauxiliary,
    Sweep.isDeserted, hremoved, Bool.not_false, Bool.true_and, Bool.not_eq_false',
    List.any_eq_true, Bool.and_eq_true, decide_eq_true_eq] at hnot
  exact hnot

/-- A sweep that finds an orphan takes it and goes on with the others. -/
theorem run_of_findOrphan? {touched : List Slot} {w : Sweep} {i : Nat} (hi : i < w.present.length)
    (h : w.findOrphan? ix touched names = some i) (bound : Nat) :
    (Sweep.run ix touched names (bound + 1) w).value = w.present[i] ::
      (Sweep.run ix touched names bound
        ⟨w.removed ++ [w.present[i]], w.present.eraseIdx i⟩).value := by
  rw [Sweep.run, h, Option.bind_some, List.getElem?_eq_getElem hi]
  rfl

theorem run_of_findOrphan?_eq_none {touched : List Slot} {w : Sweep}
    (h : w.findOrphan? ix touched names = none) (bound : Nat) :
    (Sweep.run ix touched names bound w).value = [] := by
  cases bound with
  | zero => rfl
  | succ bound =>
    rw [Sweep.run, h]
    rfl

/-- A sweep that finds no orphan to begin with adds nothing. -/
theorem sweepOrphans_of_findOrphan?_eq_none
    (h : (Sweep.start ix changes job).findOrphan? ix (changes.map (·.package.slot)) names = none) :
    (sweepOrphans ix changes names job).value = [] := by
  unfold sweepOrphans
  rw [Traced.value_bind, run_of_findOrphan?_eq_none h]
  rfl

/-- By induction on the steps: with enough of them a sweep comes to where it finds no orphan. -/
theorem run_exhausts (ix : Index) (touched : List Slot) (names : List String) {bound : Nat}
    {w : Sweep} (hbound : w.present.length ≤ bound) :
    ∃ last : Sweep, last.findOrphan? ix touched names = none ∧
      last.removed = w.removed ++ (Sweep.run ix touched names bound w).value ∧
      ((Sweep.run ix touched names bound w).value ++ last.present).Perm w.present := by
  induction bound generalizing w with
  | zero =>
    have hnone : w.findOrphan? ix touched names = none := by
      unfold Sweep.findOrphan?
      rw [List.eq_nil_of_length_eq_zero (Nat.le_zero.1 hbound)]
      rfl
    exact ⟨w, hnone, (List.append_nil _).symm, .refl _⟩
  | succ bound ih =>
    rcases hfound : w.findOrphan? ix touched names with _ | i
    · rw [run_of_findOrphan?_eq_none hfound]
      exact ⟨w, hfound, (List.append_nil _).symm, .refl _⟩
    · obtain ⟨hi, -⟩ := List.findIdx?_eq_some_iff_getElem.1 hfound
      have hlength : (w.present.eraseIdx i).length ≤ bound := by
        rw [List.length_eraseIdx_of_lt hi]
        omega
      obtain ⟨last, hnone, hremoved, hperm⟩ :=
        ih (w := ⟨w.removed ++ [w.present[i]], w.present.eraseIdx i⟩) hlength
      rw [run_of_findOrphan? hi hfound]
      refine ⟨last, hnone, ?_, (hperm.cons _).trans (List.getElem_cons_eraseIdx_perm hi)⟩
      rw [hremoved, List.append_assoc]
      rfl

/-- Where the sweep for a job ends: what it has taken, and the state in which it finds no orphan. -/
structure Sweep.Ends (ix : Index) (names : List String) (changes : List Change) (job : Nat)
    (taken : List Package) (last : Sweep) : Prop where
  exhausted : last.findOrphan? ix (changes.map (·.package.slot)) names = none
  removed : last.removed = (Sweep.start ix changes job).removed ++ taken
  perm : (taken ++ last.present).Perm (Sweep.start ix changes job).present
  installed : ∀ t ∈ taken, t ∈ ix.installedPackages
  untouched : ∀ t ∈ taken, t.slot ∉ changes.map (·.package.slot)

theorem sweepOrphans_ends (ix : Index) (names : List String) (changes : List Change) (job : Nat) :
    ∃ taken last, (sweepOrphans ix changes names job).value = taken.map (sweptChange job) ∧
      Sweep.Ends ix names changes job taken last := by
  obtain ⟨last, hnone, hremoved, hperm⟩ := run_exhausts ix (changes.map (·.package.slot)) names
    (le_refl (Sweep.start ix changes job).present.length)
  have hfree := ((run_runs ix (changes.map (·.package.slot)) names
    (Sweep.start ix changes job).present.length
    (Sweep.start ix changes job)).exclusive (start_exclusive changes job)).2
  exact ⟨_, last, rfl, hnone, hremoved, hperm,
    fun t ht => installed_of_mem_present_start (hfree t ht).1 (hfree t ht).2,
    fun t ht => (hfree t ht).2⟩

namespace Sweep.Ends

variable {taken : List Package} {last : Sweep}
  (h : Sweep.Ends ix names changes job taken last)

include h

theorem mem_present (hp : ix.Present changes p) (htaken : p ∉ taken) : p ∈ last.present :=
  (List.mem_append.1 (h.perm.mem_iff.2 (mem_present_start_iff.2 hp))).resolve_left htaken

/-- What a sweep leaves there is present after its removals. -/
theorem present_of_mem (hq : q ∈ last.present) :
    ix.Present (changes ++ taken.map (sweptChange job)) q := by
  have hpresent : ix.Present changes q :=
    mem_present_start_iff.1 (h.perm.subset (List.mem_append_right _ hq))
  refine (present_append_or_mem (fun c hc => ?_) hpresent).resolve_right ?_
  · obtain ⟨t, ht, rfl⟩ := List.mem_map.1 hc
    exact h.installed t ht
  · rintro ⟨c, hc, rfl⟩
    obtain ⟨t, ht, rfl⟩ := List.mem_map.1 hc
    -- A package that is taken does not stand twice among those that the sweep asked about.
    have hpairwise := (h.perm.pairwise_iff fun {_ _} h hslot => hslot ▸ h hslot.symm).2
      (start_exclusive changes job)
    exact h.untouched t ht ((List.pairwise_append.1 hpairwise).2.2 t ht t hq rfl)

theorem mem_removed {c : Change} (hc : c ∈ changes ++ taken.map (sweptChange job))
    (hremoval : c.action.isRemoval) (hjob : c.job = some job) : c.package ∈ last.removed := by
  rw [h.removed, List.mem_append]
  rcases List.mem_append.1 hc with hc | hc
  · refine .inl (List.mem_map_of_mem (List.mem_filter.2 ⟨hc, ?_⟩))
    rw [hremoval, hjob, beq_self_eq_true]
    rfl
  · obtain ⟨t, ht, rfl⟩ := List.mem_map.1 hc
    exact .inr ht

theorem held (hp : Sweepable ix names (changes ++ taken.map (sweptChange job)) p)
    (hlost : Bereft ix (changes ++ taken.map (sweptChange job)) [job] p) :
    Held ix (changes ++ taken.map (sweptChange job)) p := by
  have hpresent : p ∈ last.present := h.mem_present hp.of_append.present fun htaken =>
    hp.untouched _ (List.mem_append_right _ (List.mem_map_of_mem htaken)) rfl
  have hslot : p.slot ∉ changes.map (·.package.slot) := by
    intro hmem
    obtain ⟨c, hc, hslot⟩ := List.mem_map.1 hmem
    exact hp.untouched c (List.mem_append_left _ hc) hslot
  have hauxiliary := (isAuxiliary_iff hp.installed).2 hp.auxiliary
  have hknown := isSome_metadata?_of_isAuxiliary hauxiliary
  obtain ⟨c, hc, hremoval, ⟨other, hother, hjob⟩, hneeds⟩ := hlost
  rw [List.mem_singleton.1 hother] at hjob
  obtain ⟨q, hq, hbuild, hdepends⟩ := dependsOn_of_findOrphan?_eq_none h.exhausted hpresent hslot
    hp.unprotected hauxiliary ⟨_, h.mem_removed hc hremoval hjob, (dependsOn_iff hknown).2 hneeds⟩
  exact ⟨q, h.present_of_mem hq, hbuild, (dependsOn_iff hknown).1 hdepends⟩

end Sweep.Ends

/-! ## All sweeps -/

/-- What sweeps add to changes: removals for the jobs, of installed packages in slots of their own. -/
structure Adds (ix : Index) (jobs : List Nat) (changes swept : List Change) : Prop where
  removes : ∀ c ∈ swept, ∃ job ∈ jobs, c = sweptChange job c.package
  installed : ∀ c ∈ swept, c.package ∈ ix.installedPackages
  untouched : ∀ c ∈ swept, ∀ d ∈ changes, d.package.slot ≠ c.package.slot
  nodup : (swept.map (·.package.slot)).Nodup

theorem Adds.nil : Adds ix jobs changes [] where
  removes _ hc := absurd hc List.not_mem_nil
  installed _ hc := absurd hc List.not_mem_nil
  untouched _ hc := absurd hc List.not_mem_nil
  nodup := List.nodup_nil

namespace Adds

variable {swept : List Change} (h : Adds ix jobs changes swept)

include h

theorem isRemoval {c : Change} (hc : c ∈ swept) : c.action.isRemoval := by
  obtain ⟨job, -, heq⟩ := h.removes c hc
  rw [heq]
  rfl

theorem exists_job {c : Change} (hc : c ∈ swept) : ∃ job ∈ jobs, c.job = some job := by
  obtain ⟨job, hjob, heq⟩ := h.removes c hc
  exact ⟨job, hjob, by rw [heq]; rfl⟩

theorem sweep (hjob : job ∈ jobs) {taken : List Package}
    (hruns : (Sweep.start ix (changes ++ swept) job).Runs ix
      ((changes ++ swept).map (·.package.slot)) names taken) :
    Adds ix jobs changes (swept ++ taken.map (sweptChange job)) := by
  obtain ⟨hnodup, hfree⟩ := hruns.exclusive (start_exclusive (changes ++ swept) job)
  refine ⟨fun c hc => ?_, fun c hc => ?_, fun c hc d hd hslot => ?_, ?_⟩
  · rcases List.mem_append.1 hc with hc | hc
    · exact h.removes c hc
    · obtain ⟨t, -, rfl⟩ := List.mem_map.1 hc
      exact ⟨job, hjob, rfl⟩
  · rcases List.mem_append.1 hc with hc | hc
    · exact h.installed c hc
    · obtain ⟨t, ht, rfl⟩ := List.mem_map.1 hc
      exact installed_of_mem_present_start (hfree t ht).1 (hfree t ht).2
  · rcases List.mem_append.1 hc with hc | hc
    · exact h.untouched c hc d hd hslot
    · obtain ⟨t, ht, rfl⟩ := List.mem_map.1 hc
      exact (hfree t ht).2 (List.mem_map.2 ⟨d, List.mem_append_left _ hd, hslot⟩)
  · rw [List.map_append, List.map_map, List.nodup_append]
    refine ⟨h.nodup, hnodup, fun slot hslot other hother heq => ?_⟩
    obtain ⟨t, ht, rfl⟩ := List.mem_map.1 hother
    refine (hfree t ht).2 ?_
    rw [show t.slot = slot from heq.symm, List.map_append]
    exact List.mem_append_right _ hslot

end Adds

theorem exists_swept (ix : Index) (names : List String) (changes : List Change) (jobs : List Nat) :
    ∃ swept, (sweepAll ix names changes jobs).value = changes ++ swept ∧
      Adds ix jobs changes swept := by
  refine sweepAll_keeps (motive := fun cs => ∃ swept, cs = changes ++ swept ∧
    Adds ix jobs changes swept) ⟨[], (List.append_nil _).symm, .nil⟩ ?_
  rintro _ ⟨swept, rfl, hadds⟩ job hjob taken hruns
  exact ⟨_, List.append_assoc _ _ _, hadds.sweep hjob hruns⟩

/--
After all sweeps, what has lost something to one of their jobs is held by something else. The
induction is on the jobs: if what holds a package after a sweep is taken by a later one, then the
package has lost it to the job of that one.
-/
theorem held_of_bereft (changes : List Change) (jobs : List Nat)
    (hp : Sweepable ix names (sweepAll ix names changes jobs).value p)
    (hlost : Bereft ix (sweepAll ix names changes jobs).value jobs p) :
    Held ix (sweepAll ix names changes jobs).value p := by
  induction jobs generalizing changes with
  | nil =>
    obtain ⟨c, -, -, ⟨job, hjob, -⟩, -⟩ := hlost
    cases hjob
  | cons job rest ih =>
    obtain ⟨taken, last, htaken, hends⟩ := sweepOrphans_ends ix names changes job
    have hcons : (sweepAll ix names changes (job :: rest)).value =
        (sweepAll ix names (changes ++ taken.map (sweptChange job)) rest).value := by
      rw [sweepAll, Traced.value_bind, Traced.value_bind, htaken]
    rw [hcons] at hp hlost ⊢
    by_cases hlater :
        Bereft ix (sweepAll ix names (changes ++ taken.map (sweptChange job)) rest).value rest p
    · exact ih _ hp hlater
    · obtain ⟨swept, hvalue, hswept⟩ :=
        exists_swept ix names (changes ++ taken.map (sweptChange job)) rest
      rw [hvalue] at hp hlost hlater ⊢
      have hkept (c : Change) (hc : c ∈ swept) : ¬ ix.Needs c.package p := fun hneeds =>
        hlater ⟨c, List.mem_append_right _ hc, hswept.isRemoval hc, hswept.exists_job hc, hneeds⟩
      have hfirst : Bereft ix (changes ++ taken.map (sweptChange job)) [job] p := by
        obtain ⟨c, hc, hremoval, ⟨other, hother, hattributed⟩, hneeds⟩ := hlost
        have hsame : other = job := (List.mem_cons.1 hother).resolve_right fun hother =>
          hlater ⟨c, hc, hremoval, ⟨other, hother, hattributed⟩, hneeds⟩
        refine ⟨c, (List.mem_append.1 hc).resolve_right fun hc => hkept c hc hneeds, hremoval,
          ⟨other, List.mem_singleton.2 hsame, hattributed⟩, hneeds⟩
      obtain ⟨q, hq, hbuild, hneeds⟩ := hends.held hp.of_append hfirst
      rcases present_append_or_mem hswept.installed hq with hq | ⟨c, hc, rfl⟩
      · exact ⟨q, hq, hbuild, hneeds⟩
      · exact absurd hneeds (hkept c hc)

end Goal

end Provision
