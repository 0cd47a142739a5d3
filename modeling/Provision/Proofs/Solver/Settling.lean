import Provision.Proofs.Solver.Passes

/-!
# What searches reach

Every search that ends with a model has come to it by moves, and settling ends only with a model
that has no flaw left.

1. Settling is a sequence of moves, and its last model is settled (`settle_reaches`).
2. Following recommendations is one, and it keeps a settled model settled
   (`followRecommends_reaches`).
-/

namespace Provision.Solver

open Model (Reaches)

namespace Scope

variable {s : Scope} {may : Package → Prop} {m m' : Model}

/-! ## Settled models -/

/-- The model has none of the flaws that settling mends. -/
structure Settled (s : Scope) (m : Model) : Prop where
  obsoletes : ∀ p ∈ s.changed m, s.victimOf? m p = none
  conflicts : s.clashes m = []
  requires : s.firstBroken? m = none

/-- A model is settled exactly when none of the three passes changes it or refuses it. -/
theorem settled_iff (settle : Model → Search Model) :
    s.Settled m ↔ (s.applyObsoletes m).result = .ok none ∧
      (s.resolveConflicts m).result = .ok none ∧
      (s.repairRequires settle m).result = .ok none := by
  rw [applyObsoletes_eq_none_iff, resolveConflicts_eq_none_iff, repairRequires_eq_none_iff]
  exact ⟨fun h => ⟨h.obsoletes, h.conflicts, h.requires⟩, fun ⟨h, h', h''⟩ => ⟨h, h', h''⟩⟩

/-! ## Settling -/

/-- One round of settling: the first pass that changes the model does, and settling goes on. -/
inductive Round (s : Scope) (settle : Model → Search Model) (m m' : Model) : Prop
  | obsolete {next : Model} (h : (s.applyObsoletes m).result = .ok (some next))
      (hrest : (settle next).result = .ok m') : Round s settle m m'
  | conflict {next : Model} (hobsoletes : (s.applyObsoletes m).result = .ok none)
      (h : (s.resolveConflicts m).result = .ok (some next))
      (hrest : (settle next).result = .ok m') : Round s settle m m'
  | require {next : Model} (hobsoletes : (s.applyObsoletes m).result = .ok none)
      (hconflicts : (s.resolveConflicts m).result = .ok none)
      (h : (s.repairRequires settle m).result = .ok (some next))
      (hrest : (settle next).result = .ok m') : Round s settle m m'
  | done (hm : s.Settled m) (heq : m = m') : Round s settle m m'

theorem settle_succ_eq_ok_iff {steps : Nat} :
    (s.settle (steps + 1) m).result = .ok m' ↔ s.Round (s.settle steps) m m' := by
  unfold settle
  constructor
  · intro h
    obtain ⟨o, hobsoletes, h⟩ := Search.result_bind_eq_ok.1 h
    rcases o with _ | next
    · obtain ⟨o, hconflicts, h⟩ := Search.result_bind_eq_ok.1 h
      rcases o with _ | next
      · obtain ⟨o, hrequires, h⟩ := Search.result_bind_eq_ok.1 h
        rcases o with _ | next
        · exact .done ((settled_iff _).2 ⟨hobsoletes, hconflicts, hrequires⟩) (Except.ok.inj h)
        · exact .require hobsoletes hconflicts hrequires h
      · exact .conflict hobsoletes hconflicts h
    · exact .obsolete hobsoletes h
  · intro h
    cases h with
    | obsolete h hrest => exact Search.result_bind_eq_ok.2 ⟨_, h, hrest⟩
    | conflict hobsoletes h hrest =>
      exact Search.result_bind_eq_ok.2 ⟨none, hobsoletes,
        Search.result_bind_eq_ok.2 ⟨_, h, hrest⟩⟩
    | require hobsoletes hconflicts h hrest =>
      exact Search.result_bind_eq_ok.2 ⟨none, hobsoletes, Search.result_bind_eq_ok.2
        ⟨none, hconflicts, Search.result_bind_eq_ok.2 ⟨_, h, hrest⟩⟩⟩
    | done hm heq =>
      subst heq
      obtain ⟨hobsoletes, hconflicts, hrequires⟩ := (settled_iff (s.settle steps)).1 hm
      exact Search.result_bind_eq_ok.2 ⟨none, hobsoletes, Search.result_bind_eq_ok.2
        ⟨none, hconflicts, Search.result_bind_eq_ok.2 ⟨none, hrequires, rfl⟩⟩⟩

/-- What is asked of the search that goes on after a trial. -/
def Settles (s : Scope) (may : Package → Prop) (settle : Model → Search Model) : Prop :=
  ∀ ⦃m m' : Model⦄, m.Keyed → (settle m).result = .ok m' → Reaches may m m' ∧ s.Settled m'

section Settling

variable {settle : Model → Search Model} (hsettle : s.Settles may settle)
  (hmay : ∀ p ∈ s.choices, may p)

include hsettle hmay

theorem repairRequires_reaches (hm : m.Keyed)
    (h : (s.repairRequires settle m).result = .ok (some m')) : Reaches may m m' := by
  obtain ⟨need, -, next, hremedy, hnext⟩ := repairRequires_eq_some h
  have hreaches := hremedy.reaches hmay hm
  rcases hnext with rfl | hnext
  · exact hreaches
  · exact hreaches.trans (hsettle (hm.reaches hreaches) hnext).1

theorem followOne_reaches (hm : m.Keyed) {needs : List Need}
    (h : (s.followOne settle m needs).result = .ok (some m')) :
    Reaches may m m' ∧ s.Settled m' := by
  obtain ⟨need, -, p, hp, placed, hplace, hplaced⟩ := followOne_eq_some h
  have hreaches := place_reaches hm (hmay p (mem_providers hp)) hplace
  obtain ⟨hrest, hsettled⟩ := hsettle (hm.reaches hreaches) hplaced
  exact ⟨hreaches.trans hrest, hsettled⟩

theorem followRecommends_reaches {steps : Nat} (hm : m.Keyed)
    (h : (s.followRecommends settle steps m).result = .ok m') :
    Reaches may m m' ∧ (s.Settled m → s.Settled m') := by
  induction steps generalizing m with
  | zero => cases h
  | succ steps ih =>
    obtain rfl | ⟨next, hfollow, h⟩ := followRecommends_succ_eq_ok h
    · exact ⟨.refl, id⟩
    · obtain ⟨hreaches, hnext⟩ := followOne_reaches hsettle hmay hm hfollow
      obtain ⟨hrest, hlast⟩ := ih (hm.reaches hreaches) h
      exact ⟨hreaches.trans hrest, fun _ => hlast hnext⟩

end Settling

/-- By induction on the steps: each mends one flaw by moves, and only a model without one is kept. -/
theorem settle_reaches (hmay : ∀ p ∈ s.choices, may p) (steps : Nat) :
    s.Settles may (s.settle steps) := by
  induction steps with
  | zero =>
    intro m m' hm h
    cases h
  | succ steps ih =>
    intro m m' hm h
    have hnext {next : Model} (hreaches : Reaches may m next)
        (h : (s.settle steps next).result = .ok m') : Reaches may m m' ∧ s.Settled m' := by
      obtain ⟨hrest, hsettled⟩ := ih (hm.reaches hreaches) h
      exact ⟨hreaches.trans hrest, hsettled⟩
    cases settle_succ_eq_ok_iff.1 h with
    | obsolete h hrest => exact hnext (.single (applyObsoletes_move h)) hrest
    | conflict _ h hrest => exact hnext (.single (resolveConflicts_move h)) hrest
    | require _ _ h hrest => exact hnext (repairRequires_reaches ih hmay hm h) hrest
    | done hsettled heq =>
      subst heq
      exact ⟨.refl, hsettled⟩

/-- A model without a flaw is left as it is. -/
theorem settle_of_settled (hm : s.Settled m) (steps : Nat) :
    (s.settle (steps + 1) m).result = .ok m := settle_succ_eq_ok_iff.2 (.done hm rfl)

end Scope

end Provision.Solver
