import Provision.Proofs.Goal.Resolving
import Provision.Proofs.Offers

/-!
# Upgrades go up

Whether a package that takes over a slot is an upgrade or a downgrade is decided by the strict order
of versions. That order follows the rank of the package manager, and where both versions have the
same rank, as `1.0` and `1_0` have, it goes by their texts. So an upgrade never leads to a lower
rank, and a downgrade never to a higher one (`resolve_direction`), but either may lead to the same
rank (`not_all_ranks_apart`).
-/

namespace Provision.Goal

variable {g : Goal} {ix : Index} {items : List Item} {advisories : List Problem}

/-- The item brings its package into the slot of the installed one. -/
structure TakesOver (ix : Index) (i : Item) (old : Package) : Prop where
  installed : old ∈ ix.installedPackages
  slot : old.slot = i.package.slot
  replaces : i.replaces = some old

theorem TakesOver.unique {i : Item} {old other : Package} (h : TakesOver ix i old)
    (hother : TakesOver ix i other) : other = old :=
  Option.some.inj (hother.replaces.symm.trans h.replaces)

/-- The ways in which an item may relate to the version in its slot. -/
inductive Course (ix : Index) (i : Item) : Prop
  | apart (hnone : i.replaces = none) (hup : i.action ≠ .upgrade) (hdown : i.action ≠ .downgrade)
  | up {old : Package} (hold : TakesOver ix i old) (haction : i.action = .upgrade)
      (holder : old.evr.Older i.package.evr)
  | down {old : Package} (hold : TakesOver ix i old) (haction : i.action = .downgrade)
      (hnewer : i.package.evr.Older old.evr)
  | again {old : Package} (hold : TakesOver ix i old) (haction : i.action = .reinstall)
      (hsame : old.evr = i.package.evr)

theorem Solves.course {outcome : Solver.Outcome} (h : g.Solves ix items outcome) {i : Item}
    (hi : i ∈ items) : Course ix i := by
  rcases h.leads hi with ⟨hremoval, hnone⟩ | ⟨hreplaces, m, harrival⟩
  · refine .apart hnone (fun hup => ?_) fun hdown => ?_
    · rw [hup] at hremoval
      cases hremoval
    · rw [hdown] at hremoval
      cases hremoval
  · rw [← Solver.Scope.installed_ofIndex ix g.policy.solver] at hreplaces
    have htakes {old : Package}
        (hold : (Solver.Scope.ofIndex ix g.policy.solver).installed[i.package.slot]? = some old) :
        TakesOver ix i old := by
      have hslot := Solver.Scope.slot_installed_ofIndex _ _ hold
      refine ⟨Index.mem_installedPackages_iff.2 ?_, hslot, hreplaces.trans hold⟩
      rw [hslot, ← Solver.Scope.installed_ofIndex ix g.policy.solver]
      exact hold
    generalize haction : i.action = action at harrival
    cases harrival with
    | install hfree =>
      rw [hfree] at hreplaces
      exact .apart hreplaces (by rw [haction]; decide) (by rw [haction]; decide)
    | reinstall hold hbuild _ =>
      exact .again (htakes hold) haction (congrArg Build.evr hbuild)
    | upgrade hold _ holder => exact .up (htakes hold) haction holder
    | downgrade hold hbuild hnotolder =>
      -- In one slot, builds that differ do so in their versions.
      have hne (hevr : _) := hbuild (Build.eq_of_slot_of_evr (htakes hold).slot hevr)
      exact .down (htakes hold) haction ((Evr.older_or_older hne).resolve_left hnotolder)

/--
The upgrades of a transaction are its items that take over the slot of a version below, in rank or,
in the same rank, in writing; the downgrades are those that take over that of a version above.
-/
theorem resolve_direction (h : (g.resolve ix).value = .ok (.solved items advisories))
    {i : Item} (hi : i ∈ items) :
    (i.action = .upgrade ↔ ∃ old, TakesOver ix i old ∧ old.evr.Below i.package.evr) ∧
      (i.action = .downgrade ↔ ∃ old, TakesOver ix i old ∧ i.package.evr.Below old.evr) := by
  obtain ⟨outcome, hsolves⟩ := resolve_cases h
  simp only [← Evr.older_iff]
  cases hsolves.course hi with
  | apart hnone hup hdown =>
    have hno (old : Package) : ¬ TakesOver ix i old := fun hold => by
      rw [hold.replaces] at hnone
      cases hnone
    simp [hno, hup, hdown]
  | @up old hold haction holder =>
    refine ⟨iff_of_true haction ⟨old, hold, holder⟩, iff_of_false ?_ ?_⟩
    · rw [haction]
      decide
    · rintro ⟨other, hother, hnewer⟩
      rw [hold.unique hother] at hnewer
      exact holder.not_older hnewer
  | @down old hold haction hnewer =>
    refine ⟨iff_of_false ?_ ?_, iff_of_true haction ⟨old, hold, hnewer⟩⟩
    · rw [haction]
      decide
    · rintro ⟨other, hother, holder⟩
      rw [hold.unique hother] at holder
      exact hnewer.not_older holder
  | @again old hold haction hsame =>
    refine ⟨iff_of_false ?_ ?_, iff_of_false ?_ ?_⟩
    · rw [haction]
      decide
    · rintro ⟨other, hother, holder⟩
      rw [hold.unique hother, hsame] at holder
      exact Evr.not_older_self _ holder
    · rw [haction]
      decide
    · rintro ⟨other, hother, hnewer⟩
      rw [hold.unique hother, hsame] at hnewer
      exact Evr.not_older_self _ hnewer

/-! ### Versions of one rank -/

def plainBuild (version repo : String) : Package := ⟨⟨"app", "x", ⟨0, version, none⟩⟩, repo, none⟩

/-- `1.0` is installed, and `1_0`, which ranks alike, is offered. -/
def alikeIndex : Index :=
  (({} : Index).addInstalled (plainBuild "1.0" systemRepo) {}).addOffered (plainBuild "1_0" "base")
    {}

def alikeGoal : Goal where
  jobs := [⟨.upgrade, .pattern "app", {}⟩]

def alikeItems : List Item :=
  [{ package := plainBuild "1_0" "base", action := .upgrade, reason := .user, position := 0,
     replaces := some (plainBuild "1.0" systemRepo) }]

theorem resolve_direction_alike :
    (alikeGoal.resolve alikeIndex).value = .ok (.solved alikeItems []) ∧
      ∀ i ∈ alikeItems,
        (i.action = .upgrade ↔
          ∃ old, TakesOver alikeIndex i old ∧ old.evr.Below i.package.evr) ∧
        (i.action = .downgrade ↔
          ∃ old, TakesOver alikeIndex i old ∧ i.package.evr.Below old.evr) := by
  have hresolve : (alikeGoal.resolve alikeIndex).value = .ok (.solved alikeItems []) := by cbv
  exact ⟨hresolve, fun i hi => resolve_direction hresolve hi⟩

/-- Not every upgrade leads to a higher rank, and every downgrade to a lower one. -/
theorem not_all_ranks_apart :
    ¬ ∀ (ix : Index) (g : Goal) (items : List Item) (advisories : List Problem),
      (g.resolve ix).value = .ok (.solved items advisories) →
        ∀ i ∈ items, ∀ old, i.replaces = some old →
          (i.action = .upgrade → Evr.rank old.evr i.package.evr = .lt) ∧
            (i.action = .downgrade → Evr.rank i.package.evr old.evr = .lt) := by
  intro hall
  have hresolve : (alikeGoal.resolve alikeIndex).value = .ok (.solved alikeItems []) := by cbv
  have hup := (hall alikeIndex alikeGoal alikeItems [] hresolve _ List.mem_cons_self _ rfl).1 rfl
  have halike : Evr.rank (plainBuild "1.0" systemRepo).evr (plainBuild "1_0" "base").evr = .eq := by
    cbv
  rw [halike] at hup
  cases hup

end Provision.Goal
