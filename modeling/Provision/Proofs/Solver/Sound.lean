import Provision.Proofs.Solver.Changes

/-!
# Sound worlds

A world is sound towards what was brought in if nothing that was brought in lacks a requirement,
nothing that stays loses one, and nothing in it is excluded or superseded by what was brought in
(`Index.Sound`). That a model is settled means just that (`settled_iff_sound`), one kind of flaw for
each pass of settling. So the world that the changes of an orderly model lead to is sound
(`sound_changes`).
-/

namespace Provision

/-- What a world owes to the packages that were brought into it. -/
structure Index.Sound (ix : Index) (brought world : List Package) : Prop where
  /-- What was brought in has all that it requires. -/
  requires : ∀ p ∈ brought, ∀ metadata, ix.metadata? p = some metadata →
    ∀ r ∈ metadata.requires, ∃ q ∈ world, ix.meets q r
  /-- What was left alone keeps the requirements that were met before. -/
  keeps : ∀ p ∈ world, p ∉ brought → ∀ metadata, ix.metadata? p = some metadata →
    ∀ r ∈ metadata.requires, (∃ q ∈ ix.installedPackages, ix.meets q r) →
      ∃ q ∈ world, ix.meets q r
  /-- Two packages conflict only if both were left alone. -/
  conflicts : ∀ p ∈ world, ∀ q ∈ world, q ≠ p → p ∈ brought ∨ q ∈ brought →
    ∀ metadata, ix.metadata? p = some metadata → ∀ c ∈ metadata.conflicts, ix.meets q c = false
  /-- What was brought in obsoletes nothing of another name. -/
  obsoletes : ∀ p ∈ brought, ∀ metadata, ix.metadata? p = some metadata →
    ∀ o ∈ metadata.obsoletes, ∀ q ∈ world, q.name ≠ p.name → q.meets o = false

/-- Only which packages there are matters. -/
theorem Index.Sound.congr {ix : Index} {brought brought' world world' : List Package}
    (h : ix.Sound brought world) (hbrought : ∀ p, p ∈ brought' ↔ p ∈ brought)
    (hworld : ∀ p, p ∈ world' ↔ p ∈ world) : ix.Sound brought' world' where
  requires p hp metadata hmetadata r hr := by
    obtain ⟨q, hq, hmeets⟩ := h.requires p ((hbrought p).1 hp) metadata hmetadata r hr
    exact ⟨q, (hworld q).2 hq, hmeets⟩
  keeps p hp hstays metadata hmetadata r hr hbefore := by
    obtain ⟨q, hq, hmeets⟩ := h.keeps p ((hworld p).1 hp) (mt (hbrought p).2 hstays) metadata
      hmetadata r hr hbefore
    exact ⟨q, (hworld q).2 hq, hmeets⟩
  conflicts p hp q hq hne hside := by
    rw [hbrought, hbrought] at hside
    exact h.conflicts p ((hworld p).1 hp) q ((hworld q).1 hq) hne hside
  obsoletes p hp metadata hmetadata o ho q hq :=
    h.obsoletes p ((hbrought p).1 hp) metadata hmetadata o ho q ((hworld q).1 hq)

namespace Solver

namespace Scope

variable {s : Scope} {m : Model}

/-! ## Scopes and indices -/

/-- The scope has what the index has. -/
structure Views (s : Scope) (ix : Index) : Prop where
  index : s.index = ix
  installed : ∀ slot : Slot, s.installed[slot]? = ix.installedAt? slot

theorem views_ofIndex (ix : Index) (policy : Policy) : (ofIndex ix policy).Views ix :=
  ⟨rfl, installed_ofIndex ix policy⟩

theorem Views.withJob {ix : Index} (hs : s.Views ix) (job : Nat) :
    Views { s with job := job } ix := ⟨hs.index, hs.installed⟩

theorem mem_values_installed_iff {ix : Index} (hs : s.Views ix) {p : Package} :
    p ∈ s.installed.values ↔ p ∈ ix.installedPackages := by
  rw [mem_values_iff, Index.mem_installedPackages_iff]
  simp only [hs.installed]
  constructor
  · rintro ⟨slot, hp⟩
    rw [Index.slot_installedAt? hp]
    exact hp
  · intro hp
    exact ⟨p.slot, hp⟩

/-- What a package states in a field of its metadata; a package without metadata states nothing. -/
theorem mem_metadataOf_iff {α : Type} (field : Metadata → List α) (hfield : field {} = [])
    {p : Package} {a : α} :
    a ∈ field (s.metadataOf p) ↔
      ∃ metadata, s.index.metadata? p = some metadata ∧ a ∈ field metadata := by
  unfold metadataOf
  rcases s.index.metadata? p with _ | metadata
  · rw [Option.getD_none, hfield]
    exact iff_of_false nofun nofun
  · exact ⟨fun h => ⟨metadata, rfl, h⟩, fun ⟨_, heq, h⟩ => Option.some.inj heq ▸ h⟩

theorem forall_mem_metadataOf_iff {ix : Index} (hs : s.Views ix) {α : Type}
    (field : Metadata → List α) (hfield : field {} = []) {p : Package} {holds : α → Prop} :
    (∀ a ∈ field (s.metadataOf p), holds a) ↔
      ∀ metadata, ix.metadata? p = some metadata → ∀ a ∈ field metadata, holds a := by
  rw [← hs.index]
  constructor
  · intro h metadata hmetadata a ha
    exact h a ((mem_metadataOf_iff field hfield).2 ⟨metadata, hmetadata, ha⟩)
  · intro h a ha
    obtain ⟨metadata, hmetadata, ha⟩ := (mem_metadataOf_iff field hfield).1 ha
    exact h metadata hmetadata a ha

/-! ## Settled models -/

theorem satisfied_iff {packages : List Package} {r : Requirement} :
    s.satisfied packages r ↔ ∃ p ∈ packages, s.index.meets p r := by
  unfold satisfied
  rw [List.any_eq_true]

section Flaws

variable {ix : Index} (hs : s.Views ix)

include hs

theorem victimOf?_eq_none_iff {p : Package} :
    s.victimOf? m p = none ↔ ∀ metadata, ix.metadata? p = some metadata →
      ∀ o ∈ metadata.obsoletes, ∀ q ∈ m.packages, q.name ≠ p.name → q.meets o = false := by
  unfold victimOf?
  rw [List.findSome?_eq_none_iff, forall_mem_metadataOf_iff hs Metadata.obsoletes rfl]
  simp only [Option.map_eq_none_iff, List.find?_eq_none, Bool.and_eq_true, decide_eq_true_eq,
    not_and, Bool.not_eq_true]

theorem clashes_eq_nil_iff :
    s.clashes m = [] ↔ ∀ p ∈ m.packages, ∀ metadata, ix.metadata? p = some metadata →
      ∀ c ∈ metadata.conflicts, ∀ q ∈ m.packages, q.slot ≠ p.slot →
        s.isChanged m p.slot ∨ s.isChanged m q.slot → ix.meets q c = false := by
  unfold clashes
  rw [List.flatMap_eq_nil_iff]
  refine forall₂_congr fun p _ => ?_
  rw [List.flatMap_eq_nil_iff, forall_mem_metadataOf_iff hs Metadata.conflicts rfl]
  have hcollides (c : Requirement) (q : Package) :
      ¬ (q.slot ≠ p.slot && s.index.meets q c &&
          (s.isChanged m p.slot || s.isChanged m q.slot)) ↔
        (q.slot ≠ p.slot → s.isChanged m p.slot ∨ s.isChanged m q.slot →
          ix.meets q c = false) := by
    rw [Bool.and_eq_true, Bool.and_eq_true, Bool.or_eq_true, decide_eq_true_eq, hs.index,
      and_right_comm, not_and, and_imp, Bool.not_eq_true]
  simp only [List.map_eq_nil_iff, List.filter_eq_nil_iff, hcollides]

theorem firstBroken?_eq_none_iff :
    s.firstBroken? m = none ↔ ∀ p ∈ m.packages, ∀ metadata, ix.metadata? p = some metadata →
      ∀ r ∈ metadata.requires,
        s.isChanged m p.slot ∨ (∃ q ∈ ix.installedPackages, ix.meets q r) →
          ∃ q ∈ m.packages, ix.meets q r := by
  unfold firstBroken?
  rw [List.findSome?_eq_none_iff]
  refine forall₂_congr fun p _ => ?_
  rw [Option.map_eq_none_iff, List.find?_eq_none, forall_mem_metadataOf_iff hs Metadata.requires rfl]
  have hbroken (r : Requirement) : ¬ s.isBroken m p r ↔
      (s.isChanged m p.slot ∨ (∃ q ∈ ix.installedPackages, ix.meets q r) →
        ∃ q ∈ m.packages, ix.meets q r) := by
    unfold isBroken
    rw [Bool.and_eq_true, Bool.not_eq_true', ← Bool.not_eq_true, Bool.or_eq_true, satisfied_iff,
      satisfied_iff, hs.index]
    rw [not_and', not_not]
    simp only [mem_values_installed_iff hs]
  simp only [hbroken]

/-- A model is settled just if its world is sound towards what it has changed. -/
theorem settled_iff_sound (hm : m.Keyed) :
    s.Settled m ↔ ix.Sound (s.changed m) m.packages := by
  have hchanged {p : Package} (hp : p ∈ m.packages) : p ∈ s.changed m ↔ s.isChanged m p.slot := by
    rw [mem_changed_iff, and_iff_right hp]
  constructor
  · intro h
    have hmet := (firstBroken?_eq_none_iff hs).1 h.requires
    have hfree := (clashes_eq_nil_iff hs).1 h.conflicts
    refine ⟨fun p hp metadata hmetadata r hr => ?_, fun p hp _ metadata hmetadata r hr hbefore => ?_,
      fun p hp q hq hne hside metadata hmetadata c hc => ?_, fun p hp => ?_⟩
    · obtain ⟨hp, hchanged⟩ := mem_changed_iff.1 hp
      exact hmet p hp metadata hmetadata r hr (.inl hchanged)
    · exact hmet p hp metadata hmetadata r hr (.inr hbefore)
    · rw [hchanged hp, hchanged hq] at hside
      exact hfree p hp metadata hmetadata c hc q hq (fun hslot => hne (hm.unique hq hp hslot)) hside
    · exact (victimOf?_eq_none_iff hs).1 (h.obsoletes p hp)
  · intro h
    refine ⟨fun p hp => (victimOf?_eq_none_iff hs).2 (h.obsoletes p hp),
      (clashes_eq_nil_iff hs).2 fun p hp metadata hmetadata c hc q hq hslot hside => ?_,
      (firstBroken?_eq_none_iff hs).2 fun p hp metadata hmetadata r hr hwanted => ?_⟩
    · rw [← hchanged hp, ← hchanged hq] at hside
      exact h.conflicts p hp q hq (fun heq => hslot (congrArg Package.slot heq)) hside metadata
        hmetadata c hc
    · by_cases hp' : p ∈ s.changed m
      · exact h.requires p hp' metadata hmetadata r hr
      · exact h.keeps p hp hp' metadata hmetadata r hr (hwanted.resolve_left (mt (hchanged hp).2 hp'))

end Flaws

end Scope

/-! ## Changes of an orderly model -/

section Changes

variable {ix : Index} {policy : Policy} {requests : List Request} {m : Model}

theorem sound_changes (hm : (Scope.ofIndex ix policy).Orderly requests m) :
    ix.Sound (Change.broughtIn ((Scope.ofIndex ix policy).changes m))
      (ix.worldWith ((Scope.ofIndex ix policy).changes m)) := by
  have hkeyed := hm.disciplined.keyed
  refine ((Scope.settled_iff_sound (Scope.views_ofIndex ix policy) hkeyed).1 hm.settled).congr
    (fun _ => Scope.mem_broughtIn_iff_mem_changed hkeyed) fun p => ?_
  rw [mem_worldWith_changes_iff hm.disciplined, hkeyed.mem_packages_iff]

end Changes

end Solver

end Provision
