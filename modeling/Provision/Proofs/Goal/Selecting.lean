import Provision.Goal.Selection
import Provision.Proofs.Query

/-!
# What selection asks for

Every package that a request names is one that may be named: targets are installed, what is to be put
in place once more is offered and its build installed, and candidates are one or the other. Of an
offer that the index hides only a candidate is ever made, and only if its build is installed
(`selectAll_admitted`).
-/

namespace Provision

/-! ## Sequences of traced steps -/

theorem Traced.value_mapM_loop {α β : Type} (f : α → Traced β) (xs : List α) (done : List β) :
    (List.mapM.loop f xs done).value = done.reverse ++ xs.map fun x => (f x).value := by
  induction xs generalizing done with
  | nil => exact (List.append_nil _).symm
  | cons x rest ih =>
    unfold List.mapM.loop
    rw [value_bind, ih, List.reverse_cons, List.append_assoc]
    rfl

@[simp] theorem Traced.value_mapM {α β : Type} (f : α → Traced β) (xs : List α) :
    (xs.mapM f).value = xs.map fun x => (f x).value :=
  value_mapM_loop f xs []

/-! ## Packages that may be named -/

namespace Index

/-- The package is installed or offered. -/
def Knows (ix : Index) (p : Package) : Prop :=
  p ∈ ix.installedPackages ∨ p ∈ ix.offeredPackages

/-- The package is offered, and the index does not hide it. -/
structure Shows (ix : Index) (p : Package) : Prop where
  offered : p ∈ ix.offeredPackages
  visible : ix.isExcluded p.build = false

/-- The package is known, and hidden only where its build is installed as well. -/
structure Admits (ix : Index) (p : Package) : Prop where
  known : ix.Knows p
  visible : ix.isExcluded p.build → ix.isInstalled p.build

variable {ix : Index} {f : Filter} {p : Package}

theorem Shows.admits (h : ix.Shows p) : ix.Admits p := by
  refine ⟨.inr h.offered, fun hhidden => ?_⟩
  rw [h.visible] at hhidden
  cases hhidden

/-- What is admitted and no installed build is an offer that anyone may choose. -/
theorem Admits.shows (h : ix.Admits p) (hgone : ¬ ix.isInstalled p.build) : ix.Shows p := by
  refine ⟨h.known.resolve_left fun hp => hgone (isInstalled_iff.2 ⟨p, hp, rfl⟩), ?_⟩
  exact Bool.eq_false_iff.2 fun hhidden => hgone (h.visible hhidden)

theorem knows_of_mem_query (h : p ∈ ix.query f) : ix.Knows p :=
  (mem_of_mem_query h).2.imp And.right fun h => h.2.1

theorem admits_of_mem_query (hplain : f.withExcluded = false) (h : p ∈ ix.query f) :
    ix.Admits p := by
  rcases (mem_of_mem_query h).2 with ⟨-, hp⟩ | ⟨-, hp, hwith | hvisible⟩
  · exact ⟨.inl hp, fun _ => isInstalled_iff.2 ⟨p, hp, rfl⟩⟩
  · rw [hplain] at hwith
    cases hwith
  · exact Shows.admits ⟨hp, hvisible⟩

theorem shows_of_mem_query (hside : f.side = some .offered) (hplain : f.withExcluded = false)
    (h : p ∈ ix.query f) : ix.Shows p := by
  rcases (mem_of_mem_query h).2 with ⟨hne, -⟩ | ⟨-, hp, hwith | hvisible⟩
  · exact absurd hside hne
  · rw [hplain] at hwith
    cases hwith
  · exact ⟨hp, hvisible⟩

end Index

/-- The packages that the task names may be named from where the task takes them. -/
def Solver.Task.Admitted (ix : Index) : Solver.Task → Prop
  | .install candidates => ∀ p ∈ candidates, ix.Admits p
  | .reinstall package => ix.Shows package ∧ ix.isInstalled package.build
  | .remove targets => ∀ t ∈ targets, t ∈ ix.installedPackages

namespace Goal

/-- If the finding is a request, its packages may be named. -/
def Finding.Admitted (ix : Index) (f : Finding) : Prop :=
  ∀ request, f = .request request → request.task.Admitted ix

open Numbered

variable {ix : Index} {policy : Policy} {n : Numbered}

theorem admitted_request {task : Solver.Task} (h : task.Admitted ix) :
    ∀ f ∈ n.request task, f.Admitted ix := by
  intro f hf request heq
  rw [List.mem_singleton.1 hf] at heq
  cases heq
  exact h

theorem admitted_advise {kind : ProblemKind} {p : Package} {message : String} :
    ∀ f ∈ Numbered.advise kind p message, f.Admitted ix := by
  intro f hf request heq
  rw [List.mem_singleton.1 hf] at heq
  cases heq

theorem admitted_fail {problem : Problem} : ∀ f ∈ (n.fail problem).value, f.Admitted ix := by
  intro f hf request heq
  unfold Numbered.fail at hf
  split at hf
  · cases hf
  · rw [List.mem_singleton.1 hf] at heq
    cases heq

theorem admitted_requestAmong {candidates : List Package} (h : ∀ p ∈ candidates, ix.Admits p) :
    ∀ f ∈ n.requestAmong policy candidates, f.Admitted ix := by
  refine admitted_request fun p hp => h p ?_
  split at hp
  · exact List.mem_of_mem_take hp
  · exact hp

/-! ## Selection of each kind of job -/

theorem mem_sortByPreference_iff {origin : Option String} {packages : List Package} {p : Package} :
    p ∈ sortByPreference origin packages ↔ p ∈ packages := by
  unfold sortByPreference
  exact List.mem_mergeSort

theorem admits_of_mem_visible {target : Target} {p : Package} (h : p ∈ (lookUp ix target).visible) :
    ix.Admits p := by
  obtain ⟨hfound, hvisible⟩ := List.mem_filter.1 h
  rw [Bool.not_eq_true', Bool.and_eq_false_iff, Bool.not_eq_false'] at hvisible
  refine ⟨?_, fun hhidden => hvisible.resolve_left ((Bool.not_eq_false _).mpr hhidden)⟩
  split at hfound
  · exact Index.knows_of_mem_query hfound
  · obtain ⟨q, -, hp⟩ := List.mem_flatMap.1 hfound
    exact Index.knows_of_mem_query (List.mem_filter.1 hp).1

theorem shows_of_offeredCopy? {p copy : Package} {origin : String}
    (h : offeredCopy? ix p origin = some copy) : ix.Shows copy ∧ copy.build = p.build := by
  have hmem := mem_sortByPreference_iff.1 (List.mem_of_head? h)
  obtain ⟨hquery, hbuild⟩ := List.mem_filter.1 hmem
  exact ⟨Index.shows_of_mem_query rfl rfl hquery, of_decide_eq_true hbuild⟩

theorem admitted_selectInstalled {old : Package} (hold : ix.isInstalled old.build) :
    ∀ f ∈ (n.selectInstalled ix old).value, f.Admitted ix := by
  unfold Numbered.selectInstalled
  split
  · split
    · rename_i copy hcopy
      obtain ⟨hshows, hbuild⟩ := shows_of_offeredCopy? hcopy
      exact admitted_request ⟨hshows, hbuild ▸ hold⟩
    · exact admitted_fail
  · exact admitted_advise

theorem isInstalled_of_entry {b : Build} {entry : Entry}
    (h : ix.installedEntry? b = some entry) : ix.isInstalled entry.package.build := by
  have hbuild : entry.package.build = b := by
    unfold Index.installedEntry? at h
    exact of_decide_eq_true (Option.filter_eq_some_iff.1 h).2
  unfold Index.isInstalled
  rw [hbuild, h]
  rfl

theorem admitted_selectName {candidates : List Package} (h : ∀ p ∈ candidates, ix.Admits p) :
    ∀ f ∈ (n.selectName ix policy candidates).value, f.Admitted ix := by
  unfold Numbered.selectName
  dsimp only
  split
  · split
    · exact nofun
    · exact admitted_advise
  · split
    · rename_i entry hentry
      exact admitted_selectInstalled (isInstalled_of_entry hentry)
    · refine admitted_requestAmong fun p hp => h p ?_
      exact (List.mem_filter.1 (mem_sortByPreference_iff.1 hp)).1

theorem admitted_selectInstall {visible : List Package} (h : ∀ p ∈ visible, ix.Admits p) :
    ∀ f ∈ (n.selectInstall ix policy visible).value, f.Admitted ix := by
  intro f hf
  unfold Numbered.selectInstall at hf
  rw [Traced.value_bind, Traced.value_mapM] at hf
  obtain ⟨findings, hfindings, hf⟩ := List.mem_flatten.1 hf
  obtain ⟨name, -, rfl⟩ := List.mem_map.1 hfindings
  exact admitted_selectName (fun p hp => h p (List.mem_filter.1 hp).1) f hf

theorem mem_installed_of_mem_removalTargets {target : Target} {t : Package}
    (h : t ∈ removalTargets ix target) : t ∈ ix.installedPackages := by
  unfold removalTargets at h
  split at h
  · exact ((Index.mem_query_installed_iff rfl).1 h).2
  · obtain ⟨p, -, hp⟩ := List.mem_filterMap.1 h
    obtain ⟨entry, hentry, rfl⟩ := Option.map_eq_some_iff.1 hp
    unfold Index.installedEntry? at hentry
    have hslot := (Option.filter_eq_some_iff.1 hentry).1
    rw [Index.mem_installedPackages_iff]
    unfold Index.installedAt?
    rw [ix.slot_eq _ _ hslot, hslot]
    rfl

theorem admitted_selectRemove : ∀ f ∈ (n.selectRemove ix).value, f.Admitted ix := by
  unfold Numbered.selectRemove
  split
  · exact admitted_fail
  · exact admitted_request fun t ht => mem_installed_of_mem_removalTargets ht

theorem shows_of_mem_offersFor {visible : List Package} {old p : Package}
    (h : p ∈ offersFor ix visible old) : ix.Shows p := by
  have hmem := (List.mem_filter.1 (mem_sortByPreference_iff.1 h)).1
  exact Index.shows_of_mem_query rfl rfl hmem

theorem admitted_selectFor {visible : List Package} {old : Package}
    (hold : old ∈ ix.installedPackages) :
    ∀ f ∈ (n.selectFor ix policy visible old).value, f.Admitted ix := by
  have hoffer {p : Package} (h : p ∈ offersFor ix visible old) : ix.Admits p :=
    (shows_of_mem_offersFor h).admits
  unfold Numbered.selectFor
  dsimp only
  split
  · split
    · exact nofun
    · exact admitted_requestAmong fun p hp => hoffer (List.mem_filter.1 hp).1
  · split
    · exact admitted_advise
    · exact admitted_requestAmong fun p hp => hoffer (List.mem_filter.1 hp).1
  · split
    · rename_i copy hcopy
      have hsame := List.find?_some hcopy
      have hbuild : copy.build = old.build := of_decide_eq_true hsame
      exact admitted_request ⟨shows_of_mem_offersFor (List.mem_of_find?_eq_some hcopy),
        Index.isInstalled_iff.2 ⟨old, hold, hbuild.symm⟩⟩
    · exact admitted_fail
  · split
    · rename_i top rest hoffers
      split
      · exact nofun
      · refine admitted_request fun p hp => hoffer ?_
        rw [List.mem_singleton.1 hp, hoffers]
        exact List.mem_cons_self
    · exact nofun
  · exact nofun
  · exact nofun

theorem admitted_selectSlots {visible : List Package} :
    ∀ f ∈ (n.selectSlots ix policy visible).value, f.Admitted ix := by
  unfold Numbered.selectSlots
  split
  · exact admitted_fail
  · intro f hf
    rw [Traced.value_bind, Traced.value_mapM] at hf
    obtain ⟨findings, hfindings, hf⟩ := List.mem_flatten.1 hf
    obtain ⟨old, hold, rfl⟩ := List.mem_map.1 hfindings
    obtain ⟨name, -, hold⟩ := List.mem_flatMap.1 hold
    have hquery := (List.mem_filter.1 hold).1
    exact admitted_selectFor ((Index.mem_query_installed_iff rfl).1 hquery).2 f hf

theorem admitted_select : ∀ f ∈ (Numbered.select ix policy n).value, f.Admitted ix := by
  unfold Numbered.select
  split
  · exact admitted_selectRemove
  · dsimp only
    split
    · exact admitted_fail
    · split
      · exact admitted_selectInstall fun p hp => admits_of_mem_visible hp
      · exact admitted_selectSlots

/-! ## All jobs -/

theorem mem_requests_iff {jobs : List Job} {request : Solver.Request} :
    request ∈ (selectAll ix policy jobs).value.requests ↔
      ∃ j ∈ jobs.zipIdx, .request request ∈ (Numbered.select ix policy ⟨j.2, j.1⟩).value := by
  unfold selectAll
  rw [Traced.value_bind, Traced.value_mapM, Traced.value_pure]
  unfold Selection.ofFindings
  rw [List.mem_filterMap]
  constructor
  · rintro ⟨f, hf, hrequest⟩
    obtain ⟨findings, hfindings, hf⟩ := List.mem_flatten.1 hf
    obtain ⟨j, hj, rfl⟩ := List.mem_map.1 hfindings
    cases f <;> cases hrequest
    exact ⟨j, hj, hf⟩
  · rintro ⟨j, hj, hf⟩
    exact ⟨_, List.mem_flatten.2 ⟨_, List.mem_map_of_mem hj, hf⟩, rfl⟩

theorem selectAll_admitted {jobs : List Job} {request : Solver.Request}
    (h : request ∈ (selectAll ix policy jobs).value.requests) : request.task.Admitted ix := by
  obtain ⟨j, -, hf⟩ := mem_requests_iff.1 h
  exact admitted_select _ hf request rfl

end Goal

end Provision
