import Mathlib.Data.List.Nodup
import Provision.Proofs.Plan.Precedence

/-!
# Replacements stay in order

Edges lead from what comes in to what comes in, from removals to removals, and from what comes in to
the removals that it causes. None leads back from a removal to something that comes in
(`isRemoval_of_mustPrecede`), so a circle is of removals only or has none (`isRemoval_congr`), and the
edge from what replaces a package to its removal is on no circle. Breaks never concern it: what
replaces a package always comes in before that is taken off (`replacing_first`).
-/

namespace Provision.Plan

variable {ix : Index} {changes : List Change} {plan : Plan}

theorem isRemoval_of_mustPrecede {c d : Change} (h : mustPrecede ix c d)
    (hc : c.action.isRemoval) : d.action.isRemoval := by
  have hinbound : c.action.isInbound = false := by simpa [Action.isRemoval] using hc
  simp only [mustPrecede, hinbound, Bool.false_and, Bool.false_or, Bool.and_eq_true] at h
  exact h.1.2

theorem mustPrecede_of_replacedBy {c d : Change} (hc : c.action.isInbound)
    (hd : d.action.isRemoval) (hby : d.replacedBy.map Package.build = some c.package.build) :
    mustPrecede ix c d := by
  simp [mustPrecede, hc, hd, hby]

/-- On a circle, all changes are removals if one is. -/
theorem isRemoval_congr {circle : List Change} (h : IsCircle (Demands ix changes) circle)
    {c d : Change} (hc : c ∈ circle) (hd : d ∈ circle) :
    c.action.isRemoval = d.action.isRemoval := by
  let r (c d : Change) : Prop := c.action.isRemoval → d.action.isRemoval
  have htrans : IsTrans Change r := ⟨fun _ _ _ hcd hde hc => hde (hcd hc)⟩
  have hcircle : IsCircle r circle := h.imp fun _ _ hdemands =>
    isRemoval_of_mustPrecede hdemands.2.2.2
  exact Bool.eq_iff_iff.2 ⟨hcircle.related hc hd, hcircle.related hd hc⟩

/-- What a break keeps out of order both comes in or both goes. -/
theorem Break.Justified.isRemoval_eq {b : Break} (h : b.Justified (Demands ix changes)) :
    b.before.action.isRemoval = b.after.action.isRemoval := by
  obtain ⟨hbefore, hafter⟩ := List.of_mem_zip h.neighbours
  refine isRemoval_congr h.circle hbefore ?_
  exact (List.mem_append.1 hafter).elim List.mem_of_mem_drop List.mem_of_mem_take

theorem eq_of_mem_items (h : (ofChanges ix changes).value = .ok plan) {i j : Item}
    (hi : i ∈ plan.items) (hj : j ∈ plan.items) (hslot : i.package.slot = j.package.slot) : i = j :=
  List.inj_on_of_nodup_map (orders_of_ofChanges h).nodup hi hj hslot

/--
In every accepted plan, what replaces a package has a smaller position than the removal of that
package, and no break is between something that comes in and a removal.
-/
theorem replacing_first (h : (ofChanges ix changes).value = .ok plan) :
    (∀ i ∈ plan.items, ∀ j ∈ plan.items, i.action.isInbound → j.action.isRemoval →
      j.replacedBy.map Package.build = some i.package.build → i.position < j.position) ∧
    ∀ b ∈ breaks ix changes, b.before.action.isRemoval = b.after.action.isRemoval := by
  have hobeys := obeys_of_ofChanges h
  have hbreaks (b : Break) (hb : b ∈ breaks ix changes) :
      b.before.action.isRemoval = b.after.action.isRemoval :=
    (hobeys.justified b hb).isRemoval_eq
  refine ⟨fun i hi j hj hinbound hremoval hby => ?_, hbreaks⟩
  have horders := orders_of_ofChanges h
  obtain ⟨c, hc, k, rfl⟩ := horders.of_mem i hi
  obtain ⟨d, hd, l, rfl⟩ := horders.of_mem j hj
  have hkind : c.action.isRemoval ≠ d.action.isRemoval := by
    have hcomes : c.action.isInbound := hinbound
    have hgoes : d.action.isRemoval := hremoval
    rw [hgoes]
    simp [Action.isRemoval, hcomes]
  have hdemands : Demands ix changes c d := by
    refine ⟨hc, hd, fun heq => hkind (heq ▸ rfl), ?_⟩
    exact mustPrecede_of_replacedBy hinbound hremoval hby
  rcases hobeys.precedes c d hdemands with ⟨k', l', hlt, hk', hl'⟩ | ⟨b, hb, rfl, rfl⟩
  · rw [eq_of_mem_items h hi hk' rfl, eq_of_mem_items h hj hl' rfl]
    exact hlt
  · exact absurd (hbreaks b hb) hkind

theorem replacing_first_tangled :
    (breaks tangledIndex tangledChanges).length = 2 ∧
      ∃ i ∈ tangledPlan.items, ∃ j ∈ tangledPlan.items, i.package = plainPackage "b" "base" ∧
        j.replacedBy = some (plainPackage "b" "base") ∧ i.position < j.position := by
  refine ⟨by cbv, ⟨plainPackage "b" "base", .install, .user, 1, none, none⟩, ?hi,
    ⟨plainPackage "x" systemRepo, .obsolete, .dependency, 2, none,
      some (plainPackage "b" "base")⟩, ?hj, rfl, rfl, ?_⟩
  case hi => simp [tangledPlan]
  case hj => simp [tangledPlan]
  exact (replacing_first ofChanges_tangled).1 _ (by simp [tangledPlan]) _ (by simp [tangledPlan])
    rfl rfl rfl

end Provision.Plan
