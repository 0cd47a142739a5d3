import Provision.Proofs.Solver.Runs
import Provision.Proofs.World

/-!
# Changes lead to the model

The changes that are read off a model bring in what it holds besides what was left alone, and take
off what it lacks. So the world that they lead to is the model (`mem_worldWith_changes_iff`).
-/

namespace Provision.Solver

/-- The package on whose account the slot was emptied. -/
def Fate.cause? : Fate → Option Package
  | .plain | .reinstalled => none
  | .obsoletedBy p | .replacedBy p => some p

/-- How the removal of a package is called if this was decided about its slot. -/
def Fate.removal : Fate → Action
  | .obsoletedBy _ => .obsolete
  | .replacedBy _ => .replaced
  | .plain | .reinstalled => .remove

namespace Scope

variable {s : Scope} {m : Model}

/-! ## Single changes -/

/-- A present package means a change just if its slot is changed. -/
theorem inbound?_eq_none_iff {p : Package} (hp : m.present[p.slot]? = some p) :
    s.inbound? m p = none ↔ s.isChanged m p.slot = false := by
  unfold inbound? isChanged
  rw [hp]
  rcases s.installed[p.slot]? with _ | old
  · simp
  · by_cases hbuild : old.build = p.build
    · by_cases hreinstalled : m.isReinstalled p.slot <;> simp [hbuild, hreinstalled]
    · by_cases hold : old.evr.Older p.evr <;> simp [hbuild, hold, Ne.symm hbuild]

/-- How a package comes in, by what its slot held before. -/
inductive Arrival (s : Scope) (m : Model) (p : Package) : Action → Prop
  | install (hfree : s.installed[p.slot]? = none) : Arrival s m p .install
  | reinstall {old : Package} (hold : s.installed[p.slot]? = some old)
      (hbuild : old.build = p.build) (hmarked : m.isReinstalled p.slot) : Arrival s m p .reinstall
  | upgrade {old : Package} (hold : s.installed[p.slot]? = some old)
      (hbuild : old.build ≠ p.build) (hnewer : old.evr.Older p.evr) : Arrival s m p .upgrade
  | downgrade {old : Package} (hold : s.installed[p.slot]? = some old)
      (hbuild : old.build ≠ p.build) (hnewer : ¬ old.evr.Older p.evr) : Arrival s m p .downgrade

theorem inbound?_eq_some {p : Package} {c : Change} (h : s.inbound? m p = some c) :
    c.package = p ∧ c.replaces = s.installed[p.slot]? ∧ s.Arrival m p c.action := by
  unfold inbound? at h
  dsimp only at h
  split at h
  · rename_i hfree
    cases h
    exact ⟨rfl, rfl, .install hfree⟩
  · rename_i old hold
    split at h
    · rename_i hbuild
      split at h
      · rename_i hmarked
        cases h
        exact ⟨rfl, rfl, .reinstall hold hbuild hmarked⟩
      · cases h
    · rename_i hbuild
      split at h
      · rename_i hnewer
        cases h
        exact ⟨rfl, rfl, .upgrade hold hbuild hnewer⟩
      · rename_i hnewer
        cases h
        exact ⟨rfl, rfl, .downgrade hold hbuild hnewer⟩

theorem Arrival.isInbound {p : Package} {a : Action} (h : s.Arrival m p a) : a.isInbound := by
  cases h <;> rfl

theorem removal?_eq_none_iff {p : Package} :
    removal? m p = none ↔ ∃ q, m.present[p.slot]? = some q := by
  unfold removal?
  rw [Std.TreeMap.contains_eq_isSome_getElem?]
  rcases m.present[p.slot]? with _ | q
  · simp only [Option.isSome_none, Bool.false_eq_true, if_false, reduceCtorEq, exists_false,
      iff_false]
    split <;> exact Option.some_ne_none _
  · simp

/-- What is said of a package that goes, by what was decided about its slot. -/
structure Departure (m : Model) (p : Package) (c : Change) : Prop where
  package : c.package = p
  replaces : c.replaces = none
  gone : m.present[p.slot]? = none
  reason : c.reason = ((m.decided[p.slot]?).map Decision.reason).getD .dependency
  action : c.action = (m.decided[p.slot]?).elim .remove fun d => d.fate.removal
  cause : c.replacedBy = (m.decided[p.slot]?).bind fun d => d.fate.cause?

theorem removal?_eq_some {p : Package} {c : Change} (h : removal? m p = some c) :
    Departure m p c := by
  have hgone : m.present[p.slot]? = none := by
    by_contra hpresent
    rw [removal?_eq_none_iff.2 (Option.ne_none_iff_exists'.1 hpresent)] at h
    cases h
  unfold removal? at h
  rw [if_neg (by rw [Std.TreeMap.contains_eq_isSome_getElem?, hgone]; exact Bool.false_ne_true)] at h
  rcases hdecided : m.decided[p.slot]? with _ | ⟨reason, job, fate⟩ <;> rw [hdecided] at h
  · cases h
    refine ⟨rfl, rfl, hgone, ?_, ?_, ?_⟩ <;> rw [hdecided] <;> rfl
  · cases fate <;>
    · cases h
      refine ⟨rfl, rfl, hgone, ?_, ?_, ?_⟩ <;> rw [hdecided] <;> rfl

theorem Departure.isRemoval {p : Package} {c : Change} (h : Departure m p c) :
    c.action.isRemoval := by
  rw [h.action]
  rcases m.decided[p.slot]? with _ | ⟨reason, job, fate⟩
  · rfl
  · cases fate <;> rfl

/-- Only a plain removal has no cause. -/
theorem Departure.cause_eq_none_iff {p : Package} {c : Change} (h : Departure m p c) :
    c.replacedBy = none ↔ c.action = .remove := by
  rw [h.action, h.cause]
  rcases m.decided[p.slot]? with _ | ⟨reason, job, fate⟩
  · exact iff_of_true rfl rfl
  · cases fate <;> simp [Fate.cause?, Fate.removal]

/-! ## All changes -/

theorem mem_changes_iff {c : Change} :
    c ∈ s.changes m ↔ (∃ p ∈ m.packages, s.inbound? m p = some c) ∨
      ∃ p ∈ s.installed.values, removal? m p = some c := by
  unfold changes
  rw [List.mem_append, List.mem_filterMap, List.mem_filterMap]

theorem not_isInbound_of_isRemoval {a : Action} (h : a.isRemoval) : ¬ a.isInbound := by
  cases a <;> simp_all [Action.isRemoval, Action.isInbound]

/-- What changes bring in is what the model holds in changed slots. -/
theorem mem_broughtIn_changes_iff (hm : m.Keyed) {p : Package} :
    p ∈ Change.broughtIn (s.changes m) ↔
      m.present[p.slot]? = some p ∧ s.isChanged m p.slot := by
  rw [Change.mem_broughtIn_iff]
  constructor
  · rintro ⟨c, hc, hinbound, rfl⟩
    rcases mem_changes_iff.1 hc with ⟨q, hq, hchange⟩ | ⟨q, -, hchange⟩
    · obtain ⟨rfl, -⟩ := inbound?_eq_some hchange
      have hpresent := hm.mem_packages_iff.1 hq
      refine ⟨hpresent, ?_⟩
      by_contra hunchanged
      rw [(inbound?_eq_none_iff hpresent).2 (Bool.eq_false_iff.2 hunchanged)] at hchange
      cases hchange
    · exact absurd hinbound (not_isInbound_of_isRemoval (removal?_eq_some hchange).isRemoval)
  · rintro ⟨hpresent, hchanged⟩
    rcases hchange : s.inbound? m p with _ | c
    · rw [inbound?_eq_none_iff hpresent, hchanged] at hchange
      cases hchange
    · obtain ⟨hpackage, -, harrival⟩ := inbound?_eq_some hchange
      refine ⟨c, mem_changes_iff.2 (.inl ⟨p, ?_, hchange⟩), harrival.isInbound, hpackage⟩
      exact hm.mem_packages_iff.2 hpresent

theorem mem_changed_iff {p : Package} :
    p ∈ s.changed m ↔ p ∈ m.packages ∧ s.isChanged m p.slot := List.mem_filter

theorem mem_broughtIn_iff_mem_changed (hm : m.Keyed) {p : Package} :
    p ∈ Change.broughtIn (s.changes m) ↔ p ∈ s.changed m := by
  rw [mem_broughtIn_changes_iff hm, mem_changed_iff, hm.mem_packages_iff]

/-- What changes take off is what was installed in slots that the model leaves empty. -/
theorem mem_takenOff_changes_iff
    (hinstalled : ∀ (slot : Slot) (p : Package), s.installed[slot]? = some p → p.slot = slot)
    {p : Package} :
    p ∈ Change.takenOff (s.changes m) ↔
      s.installed[p.slot]? = some p ∧ m.present[p.slot]? = none := by
  have hmem : p ∈ s.installed.values ↔ s.installed[p.slot]? = some p := by
    rw [mem_values_iff]
    constructor
    · rintro ⟨slot, hp⟩
      rw [hinstalled slot p hp]
      exact hp
    · intro hp
      exact ⟨_, hp⟩
  rw [Change.mem_takenOff_iff]
  constructor
  · rintro ⟨c, hc, hremoval, rfl⟩
    rcases mem_changes_iff.1 hc with ⟨q, -, hchange⟩ | ⟨q, hq, hchange⟩
    · have harrival := (inbound?_eq_some hchange).2.2
      exact absurd harrival.isInbound (not_isInbound_of_isRemoval hremoval)
    · obtain ⟨rfl, -⟩ := removal?_eq_some hchange
      exact ⟨hmem.1 hq, (removal?_eq_some hchange).gone⟩
  · rintro ⟨hp, hgone⟩
    rcases hchange : removal? m p with _ | c
    · obtain ⟨q, hq⟩ := removal?_eq_none_iff.1 hchange
      rw [hgone] at hq
      cases hq
    · have hdeparture := removal?_eq_some hchange
      exact ⟨c, mem_changes_iff.2 (.inr ⟨p, hmem.2 hp, hchange⟩), hdeparture.isRemoval,
        hdeparture.package⟩

/-- There is at most one change in a slot. -/
theorem nodup_changes (hm : m.Keyed)
    (hinstalled : ∀ (slot : Slot) (p : Package), s.installed[slot]? = some p → p.slot = slot) :
    ((s.changes m).map (·.package.slot)).Nodup := by
  have hfilterMap {ps : List Package} {f : Package → Option Change}
      (hf : ∀ p c, f p = some c → c.package = p) (hps : (ps.map Package.slot).Nodup) :
      ((ps.filterMap f).map (·.package.slot)).Nodup := by
    rw [List.Nodup, List.pairwise_map] at hps ⊢
    refine hps.filterMap f fun p q hne c hc d hd => ?_
    rw [hf p c hc, hf q d hd]
    exact hne
  unfold changes
  rw [List.map_append, List.nodup_append]
  refine ⟨hfilterMap (fun p c hc => (inbound?_eq_some hc).1) hm.nodup_slots,
    hfilterMap (fun p c hc => (removal?_eq_some hc).package) (nodup_map_values Package.slot hinstalled), ?_⟩
  intro slot hslot other hother
  obtain ⟨c, hc, rfl⟩ := List.mem_map.1 hslot
  obtain ⟨d, hd, rfl⟩ := List.mem_map.1 hother
  obtain ⟨p, hp, hinbound⟩ := List.mem_filterMap.1 hc
  obtain ⟨q, -, hremoval⟩ := List.mem_filterMap.1 hd
  rw [(inbound?_eq_some hinbound).1, (removal?_eq_some hremoval).package]
  intro heq
  have hpresent := hm.mem_packages_iff.1 hp
  rw [heq, (removal?_eq_some hremoval).gone] at hpresent
  cases hpresent

end Scope

variable {ix : Index} {policy : Policy} {requests : List Request} {m : Model}

/-- The world that the changes lead to is the model. -/
theorem mem_worldWith_changes_iff (hm : (Scope.ofIndex ix policy).Disciplined requests m)
    {p : Package} :
    p ∈ ix.worldWith ((Scope.ofIndex ix policy).changes m) ↔ m.present[p.slot]? = some p := by
  rw [Index.worldWith, Index.mem_exchange_iff, Scope.mem_broughtIn_changes_iff hm.keyed,
    Scope.mem_takenOff_changes_iff Scope.slot_installed_ofIndex, Scope.installed_ofIndex,
    Index.mem_installedPackages_iff]
  constructor
  · rintro (⟨hp, hkept, hfree⟩ | ⟨hp, -⟩)
    · rcases hpresent : m.present[p.slot]? with _ | q
      · exact absurd ⟨hp, hpresent⟩ hkept
      · have hslot := hm.keyed _ q hpresent
        by_cases hchanged : (Scope.ofIndex ix policy).isChanged m p.slot
        · rw [← hslot] at hpresent hchanged
          exact absurd hslot
            (hfree q ((Scope.mem_broughtIn_changes_iff hm.keyed).2 ⟨hpresent, hchanged⟩))
        · have hq := (hm.origin _ q hpresent).hold_of_not_isChanged hpresent
            (Bool.eq_false_iff.2 hchanged)
          rw [Scope.installed_ofIndex, hp] at hq
          exact hq.symm
    · exact hp
  · intro hp
    by_cases hchanged : (Scope.ofIndex ix policy).isChanged m p.slot
    · exact .inr ⟨hp, hchanged⟩
    · refine .inl ⟨?_, ?_, fun q hq hslot => ?_⟩
      · have hold := (hm.origin _ p hp).hold_of_not_isChanged hp (Bool.eq_false_iff.2 hchanged)
        rw [Scope.installed_ofIndex] at hold
        exact hold
      · rintro ⟨-, hgone⟩
        rw [hp] at hgone
        cases hgone
      · obtain ⟨-, hq⟩ := (Scope.mem_broughtIn_changes_iff hm.keyed).1 hq
        rw [hslot] at hq
        exact hchanged hq

end Provision.Solver
