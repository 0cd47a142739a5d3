import Provision.Proofs.Goal.Exclusive

/-!
# Sweeps take orphans only

A package that a sweep takes was installed on account of others, is not protected and has its slot
to itself. One that needed it is gone on account of the same job, and of those that are left none
does (`Orphaned`, `Unneeded`): both are so in the state in which the package is taken
(`Sweep.Runs.exists_takes`), and later sweeps only take further packages off. So after all sweeps
nothing that remains needs anything that they took (`sweepAll_safe`).
-/

namespace Provision

/-- The package is there once the changes have been made. -/
def Index.Remains (ix : Index) (changes : List Change) (p : Package) : Prop :=
  (p ∈ ix.installedPackages ∧
    (∀ c ∈ changes, c.action.isRemoval → c.package.build ≠ p.build) ∧
      ∀ c ∈ changes, c.action.isInbound → c.package.slot ≠ p.slot) ∨
    ∃ c ∈ changes, c.action.isInbound ∧ c.package = p

/-- Further removals leave nothing there that was not there before. -/
theorem Index.Remains.of_append {ix : Index} {changes further : List Change} {p : Package}
    (h : ix.Remains (changes ++ further) p) (hremoves : ∀ c ∈ further, c.action.isRemoval) :
    ix.Remains changes p := by
  rcases h with ⟨hp, hkept, hfree⟩ | ⟨c, hc, hinbound, rfl⟩
  · exact .inl ⟨hp, fun c hc => hkept c (List.mem_append_left _ hc),
      fun c hc => hfree c (List.mem_append_left _ hc)⟩
  · rcases List.mem_append.1 hc with hc | hc
    · exact .inr ⟨c, hc, hinbound, rfl⟩
    · exact absurd hinbound (Solver.Scope.not_isInbound_of_isRemoval (hremoves c hc))

namespace Goal

variable {ix : Index} {names : List String}

/-! ## One sweep -/

/-- A sweep comes to a state in which it takes the package. -/
theorem Sweep.Runs.exists_takes {touched : List Slot} {w : Sweep} {swept : List Package}
    (h : w.Runs ix touched names swept) {earlier later : List Package} {p : Package}
    (hswept : swept = earlier ++ p :: later) :
    ∃ v next : Sweep, v.Takes ix touched names p next ∧ v.removed = w.removed ++ earlier ∧
      (earlier ++ v.present).Perm w.present := by
  induction h generalizing earlier with
  | stop w => simp at hswept
  | @take w next first rest htakes _ ih =>
    cases earlier with
    | nil =>
      cases hswept
      exact ⟨w, next, htakes, (List.append_nil _).symm, .refl _⟩
    | cons q earlier =>
      cases hswept
      obtain ⟨v, after, hv, hremoved, hperm⟩ := ih rfl
      refine ⟨v, after, hv, ?_, (hperm.cons first).trans htakes.perm⟩
      rw [hremoved, htakes.removed, List.append_assoc]
      rfl

/-- An installed package is auxiliary just if it was not the user who asked for it. -/
theorem isAuxiliary_iff {p : Package} (hp : p ∈ ix.installedPackages) :
    isAuxiliary ix p ↔ ∃ reason, ix.reason? p.build = some reason ∧ reason ≠ .user := by
  obtain ⟨entry, hentry, hpackage⟩ := Option.map_eq_some_iff.1 (Index.package_installedEntry? hp)
  have hmetadata : ix.metadata? p = some entry.metadata := by
    unfold Index.metadata?
    rw [hentry]
    exact if_pos (congrArg Package.repo hpackage)
  unfold isAuxiliary Index.reason?
  rw [hmetadata, hentry, Option.bind_some, Option.bind_some, Option.any_eq_true]
  simp only [decide_eq_true_eq]

/-! ## The changes of a sweep -/

/-- A removal of an orphan, after the changes that were planned before. -/
structure Orphaned (ix : Index) (names : List String) (jobs : List Nat) (before : List Change)
    (c : Change) : Prop where
  action : c.action = .remove
  reason : c.reason = .clean
  installed : c.package ∈ ix.installedPackages
  auxiliary : ∃ reason, ix.reason? c.package.build = some reason ∧ reason ≠ .user
  unprotected : c.package.name ∉ names
  untouched : ∀ d ∈ before, d.package.slot ≠ c.package.slot
  lost : ∃ job ∈ jobs, c.job = some job ∧
    ∃ d ∈ before, d.action.isRemoval ∧ d.job = some job ∧ ix.Needs d.package c.package

/-- Nothing that is there once the changes have been made needs the package. -/
def Unneeded (ix : Index) (changes : List Change) (p : Package) : Prop :=
  ∀ q, ix.Remains changes q → ¬ ix.Needs q p

variable {before : List Change} {job : Nat} {jobs : List Nat} {earlier later : List Package}
  {p : Package}

/-- What is still there after a sweep is of no build that it took. -/
theorem build_ne_of_remains {taken : List Package} {q : Package}
    (h : ix.Remains (before ++ taken.map (sweptChange job)) q)
    (hfree : ∀ t ∈ taken, t.slot ∉ before.map (·.package.slot)) {t : Package} (ht : t ∈ taken) :
    q.build ≠ t.build := by
  intro hbuild
  rcases h with ⟨-, hkept, -⟩ | ⟨c, hc, hinbound, rfl⟩
  · exact hkept (sweptChange job t) (List.mem_append_right _ (List.mem_map_of_mem ht)) rfl hbuild.symm
  · rcases List.mem_append.1 hc with hc | hc
    · refine hfree t ht ?_
      rw [show t.slot = c.package.slot from (congrArg Build.slot hbuild).symm]
      exact List.mem_map_of_mem hc
    · obtain ⟨u, -, rfl⟩ := List.mem_map.1 hc
      cases hinbound

theorem mem_present_start_of_remains {taken : List Package} {q : Package}
    (h : ix.Remains (before ++ taken.map (sweptChange job)) q) :
    q ∈ (Sweep.start ix before job).present := by
  have hremains : ix.Remains before q := h.of_append fun c hc => by
    obtain ⟨t, -, rfl⟩ := List.mem_map.1 hc
    rfl
  rcases hremains with ⟨hq, hkept, -⟩ | hq
  · exact mem_present_start_iff.2 (.inl ⟨hq, hkept⟩)
  · exact mem_present_start_iff.2 (.inr (Change.mem_broughtIn_iff.2 hq))

section

variable (hruns : (Sweep.start ix before job).Runs ix (before.map (·.package.slot)) names
  (earlier ++ p :: later))

include hruns

theorem unneeded_of_runs : Unneeded ix (before ++ (earlier ++ [p]).map (sweptChange job)) p := by
  obtain ⟨v, next, htakes, -, hperm⟩ := hruns.exists_takes rfl
  obtain ⟨-, hfree⟩ := hruns.exclusive (start_exclusive before job)
  intro q hq
  have hne (t : Package) (ht : t ∈ earlier ++ [p]) : q.build ≠ t.build := by
    refine build_ne_of_remains hq (fun t ht => (hfree t ?_).2) ht
    rw [List.append_cons]
    exact List.mem_append_left _ ht
  have hpresent : q ∈ v.present := by
    have hstart := hperm.mem_iff.2 (mem_present_start_of_remains hq)
    refine (List.mem_append.1 hstart).resolve_left fun hearlier => ?_
    exact hne q (List.mem_append_left _ hearlier) rfl
  rw [← dependsOn_iff (isSome_metadata?_of_isAuxiliary htakes.auxiliary)]
  exact not_dependsOn_of_isDeserted htakes.deserted hpresent
    (hne p (List.mem_append_right _ List.mem_cons_self))

theorem orphaned_of_runs (hjob : job ∈ jobs) :
    Orphaned ix names jobs (before ++ earlier.map (sweptChange job)) (sweptChange job p) := by
  obtain ⟨v, next, htakes, hremoved, -⟩ := hruns.exists_takes rfl
  obtain ⟨hnodup, hfree⟩ := hruns.exclusive (start_exclusive before job)
  have hinstalled : p ∈ ix.installedPackages := by
    have hp := hfree p (List.mem_append_right _ List.mem_cons_self)
    exact installed_of_mem_present_start hp.1 hp.2
  refine ⟨rfl, rfl, hinstalled, (isAuxiliary_iff hinstalled).1 htakes.auxiliary,
    htakes.unprotected, fun d hd hslot => ?_, job, hjob, rfl, ?_⟩
  · rcases List.mem_append.1 hd with hd | hd
    · refine htakes.untouched ?_
      rw [show p.slot = d.package.slot from hslot.symm]
      exact List.mem_map_of_mem hd
    · obtain ⟨q, hq, rfl⟩ := List.mem_map.1 hd
      rw [List.map_append, List.nodup_append] at hnodup
      exact hnodup.2.2 _ (List.mem_map_of_mem hq) p.slot (by simp) hslot
  · obtain ⟨d, hd, hdepends⟩ := exists_dependsOn_of_isDeserted htakes.deserted
    have hneeds := (dependsOn_iff (isSome_metadata?_of_isAuxiliary htakes.auxiliary)).1 hdepends
    rw [hremoved, List.mem_append] at hd
    rcases hd with hd | hd
    · obtain ⟨c, hc, rfl⟩ := List.mem_map.1 hd
      obtain ⟨hc, hgone⟩ := List.mem_filter.1 hc
      rw [Bool.and_eq_true, beq_iff_eq] at hgone
      exact ⟨c, List.mem_append_left _ hc, hgone.1, hgone.2, hneeds⟩
    · exact ⟨sweptChange job d, List.mem_append_right _ (List.mem_map_of_mem hd), rfl, rfl, hneeds⟩

end

/-! ## All sweeps -/

/-- Each change of the list is for an orphan that the changes up to it leave unneeded. -/
def Cleans (ix : Index) (names : List String) (jobs : List Nat) (changes swept : List Change) :
    Prop :=
  ∀ earlier c later, swept = earlier ++ c :: later →
    Orphaned ix names jobs (changes ++ earlier) c ∧
      Unneeded ix (changes ++ earlier ++ [c]) c.package

theorem Cleans.sweep {changes swept : List Change} {taken : List Package}
    (h : Cleans ix names jobs changes swept) (hjob : job ∈ jobs)
    (hruns : (Sweep.start ix (changes ++ swept) job).Runs ix
      ((changes ++ swept).map (·.package.slot)) names taken) :
    Cleans ix names jobs changes (swept ++ taken.map (sweptChange job)) := by
  have hnew {first rest : List Change} {c : Change}
      (hsplit : taken.map (sweptChange job) = first ++ c :: rest) :
      Orphaned ix names jobs (changes ++ (swept ++ first)) c ∧
        Unneeded ix (changes ++ (swept ++ first) ++ [c]) c.package := by
    obtain ⟨earlier, others, rfl, rfl, hothers⟩ := List.map_eq_append_iff.1 hsplit
    obtain ⟨p, later, rfl, rfl, -⟩ := List.map_eq_cons_iff.1 hothers
    have hunneeded := unneeded_of_runs hruns
    rw [List.map_append, ← List.append_assoc] at hunneeded
    rw [← List.append_assoc]
    exact ⟨orphaned_of_runs hruns hjob, hunneeded⟩
  -- The change is one of the new sweep or, with some of the old ones behind it, an old one.
  intro earlier c later hsplit
  rcases List.append_eq_append_iff.1 hsplit with ⟨first, rfl, hfirst⟩ | ⟨rest, rfl, hrest⟩
  · exact hnew hfirst
  · cases rest with
    | nil =>
      have hstart := hnew (show taken.map (sweptChange job) = [] ++ c :: later from hrest.symm)
      rw [List.append_nil, List.append_nil] at hstart
      exact hstart
    | cons d rest =>
      cases hrest
      exact h earlier c rest rfl

theorem sweepAll_cleans (ix : Index) (names : List String) (changes : List Change)
    (jobs : List Nat) :
    ∃ swept, (sweepAll ix names changes jobs).value = changes ++ swept ∧
      Cleans ix names jobs changes swept := by
  refine sweepAll_keeps (motive := fun cs => ∃ swept, cs = changes ++ swept ∧
    Cleans ix names jobs changes swept) ⟨[], (List.append_nil _).symm, ?_⟩ ?_
  · intro earlier c later hsplit
    simp at hsplit
  · rintro _ ⟨swept, rfl, hcleans⟩ job hjob taken hruns
    exact ⟨_, List.append_assoc _ _ _, hcleans.sweep hjob hruns⟩

/--
What sweeps add to any changes are removals of orphans, each in a slot that no other change touches,
and what is there after all of them needs none of the packages that they took.
-/
theorem sweepAll_safe (ix : Index) (names : List String) (changes : List Change)
    (jobs : List Nat) :
    ∃ swept, (sweepAll ix names changes jobs).value = changes ++ swept ∧
      (∀ earlier c later, swept = earlier ++ c :: later →
        Orphaned ix names jobs (changes ++ earlier) c ∧
          ∀ d ∈ later, d.package.slot ≠ c.package.slot) ∧
      ∀ c ∈ swept, Unneeded ix (changes ++ swept) c.package := by
  obtain ⟨swept, hvalue, hcleans⟩ := sweepAll_cleans ix names changes jobs
  refine ⟨swept, hvalue, fun earlier c later hsplit => ⟨(hcleans _ _ _ hsplit).1, ?_⟩, ?_⟩
  · intro d hd hslot
    obtain ⟨first, rest, rfl⟩ := List.append_of_mem hd
    have hlater := (hcleans (earlier ++ c :: first) d rest (by rw [hsplit]; simp)).1
    exact hlater.untouched c (by simp) hslot.symm
  · intro c hc q hq
    obtain ⟨earlier, later, rfl⟩ := List.append_of_mem hc
    have hremoves (d : Change) (hd : d ∈ later) : d.action.isRemoval := by
      obtain ⟨first, rest, rfl⟩ := List.append_of_mem hd
      have hd := (hcleans (earlier ++ c :: first) d rest (by simp)).1
      rw [hd.action]
      rfl
    -- The changes behind `c` only take off, so what remains in the end remained after `c`.
    refine (hcleans earlier c later rfl).2 q (Index.Remains.of_append ?_ hremoves)
    rw [List.append_assoc, List.append_assoc]
    exact hq

/-! ### Orphans of orphans -/

/-- An application, a library that it requires, and what the library recommends. -/
def chainIndex : Index :=
  ((({} : Index).addInstalled (samplePackage "app" systemRepo)
    { requires := [⟨"base", .any⟩] }).addInstalled (samplePackage "base" systemRepo)
    { recommends := [⟨"core", .any⟩], reason := some .dependency }).addInstalled
    (samplePackage "core" systemRepo) { reason := some .weakDependency }

/-- The application is taken off. -/
def chainChanges : List Change :=
  [{ package := samplePackage "app" systemRepo, action := .remove, reason := .user, job := some 0 }]

def sweptBase : Change := sweptChange 0 (samplePackage "base" systemRepo)

def sweptCore : Change := sweptChange 0 (samplePackage "core" systemRepo)

theorem sweepAll_safe_chain :
    (sweepAll chainIndex [] chainChanges [0]).value = chainChanges ++ [sweptBase, sweptCore] ∧
      Orphaned chainIndex [] [0] chainChanges sweptBase ∧
      Orphaned chainIndex [] [0] (chainChanges ++ [sweptBase]) sweptCore ∧
      ∀ c ∈ [sweptBase, sweptCore],
        Unneeded chainIndex (chainChanges ++ [sweptBase, sweptCore]) c.package := by
  have hvalue : (sweepAll chainIndex [] chainChanges [0]).value =
      chainChanges ++ [sweptBase, sweptCore] := by cbv
  obtain ⟨swept, hswept, horphaned, hunneeded⟩ := sweepAll_safe chainIndex [] chainChanges [0]
  obtain rfl := List.append_cancel_left (hswept.symm.trans hvalue)
  exact ⟨hvalue, (horphaned [] sweptBase [sweptCore] rfl).1,
    (horphaned [sweptBase] sweptCore [] rfl).1, hunneeded⟩

end Goal

end Provision
