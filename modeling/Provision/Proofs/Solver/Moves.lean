import Mathlib.Logic.Relation
import Provision.Proofs.Solver.Result
import Provision.Proofs.Values

/-!
# Moves of the search

Whatever the search does to a model is a sequence of moves. A move decides one open slot: it keeps
what the slot holds, clears it, or fills it with a package that it may choose (`Model.Move`). So a
fact about all models that a search reaches is a fact about three kinds of moves.

1. Moves keep packages under their own slots (`Keyed.reaches`).
2. Moves leave every slot alone that was decided before (`Reaches.sameAt`).
-/

namespace Provision.Solver

namespace Model

/-! ## Packages by slot -/

/-- Each package of the model is kept under its own slot. -/
def Keyed (m : Model) : Prop :=
  ∀ (slot : Slot) (p : Package), m.present[slot]? = some p → p.slot = slot

theorem Keyed.mem_packages_iff {m : Model} (hm : m.Keyed) {p : Package} :
    p ∈ m.packages ↔ m.present[p.slot]? = some p := by
  unfold packages
  rw [mem_values_iff]
  constructor
  · rintro ⟨slot, hp⟩
    rw [hm slot p hp]
    exact hp
  · intro hp
    exact ⟨p.slot, hp⟩

/-- Of two packages of the model in one slot, both are the one that it holds. -/
theorem Keyed.unique {m : Model} (hm : m.Keyed) {p q : Package} (hp : p ∈ m.packages)
    (hq : q ∈ m.packages) (hslot : p.slot = q.slot) : p = q := by
  rw [hm.mem_packages_iff] at hp hq
  rw [hslot, hq] at hp
  exact (Option.some.inj hp).symm

theorem Keyed.nodup_slots {m : Model} (hm : m.Keyed) : (m.packages.map Package.slot).Nodup :=
  nodup_map_values Package.slot hm

/-! ## Deciding a slot -/

@[simp] theorem present_decide (m : Model) (slot : Slot) (d : Decision) :
    (m.decide slot d).present = m.present := by
  unfold decide
  split
  · rfl
  · split <;> rfl

@[simp] theorem erasesDependents_decide (m : Model) (slot : Slot) (d : Decision) :
    (m.decide slot d).erasesDependents = m.erasesDependents := by
  unfold decide
  split
  · rfl
  · split <;> rfl

@[simp] theorem isDecided_with_present (m : Model) (present : Std.TreeMap Slot Package)
    (slot : Slot) : isDecided { m with present := present } slot = m.isDecided slot := rfl

theorem isDecided_eq (m : Model) (slot : Slot) :
    m.isDecided slot = (m.decided[slot]?).isSome := by
  unfold isDecided
  rw [Std.TreeMap.contains_eq_isSome_getElem?]

theorem decided?_eq_none {m : Model} {slot : Slot} (h : m.isDecided slot = false) :
    m.decided[slot]? = none := by
  rw [isDecided_eq] at h
  exact Option.isSome_eq_false_iff.1 h |> Option.isNone_iff_eq_none.1

/-- Deciding an open slot enters the decision. -/
theorem decided_decide {m : Model} {slot : Slot} (h : m.isDecided slot = false) (d : Decision) :
    (m.decide slot d).decided = m.decided.insert slot d := by
  unfold decide
  rw [decided?_eq_none h]

theorem decided?_decide_self {m : Model} {slot : Slot} (h : m.isDecided slot = false)
    (d : Decision) : (m.decide slot d).decided[slot]? = some d := by
  rw [decided_decide h, Std.TreeMap.getElem?_insert_self]

/-- Only the decided slot becomes decided. -/
theorem isDecided_decide_iff {m : Model} {slot : Slot} (d : Decision) {other : Slot} :
    (m.decide slot d).isDecided other ↔ other = slot ∨ m.isDecided other := by
  have hinsert (e : Decision) : (m.decided.insert slot e).contains other ↔
      other = slot ∨ m.decided.contains other := by
    rw [Std.TreeMap.contains_insert, Bool.or_eq_true, beq_iff_eq,
      Std.LawfulEqCmp.compare_eq_iff_eq, eq_comm]
  unfold decide
  split
  · exact hinsert d
  · rename_i old hold
    split
    · exact hinsert _
    · refine ⟨Or.inr, ?_⟩
      rintro (rfl | h)
      · rw [isDecided_eq, hold]
        rfl
      · exact h

theorem isDecided_decide_eq_false_iff {m : Model} {slot : Slot} (d : Decision) {other : Slot} :
    (m.decide slot d).isDecided other = false ↔ m.isDecided other = false ∧ slot ≠ other := by
  rw [← Bool.not_eq_true, isDecided_decide_iff, not_or, Bool.not_eq_true, and_comm, ne_comm]

theorem isDecided_decide_self (m : Model) (slot : Slot) (d : Decision) :
    (m.decide slot d).isDecided slot :=
  (isDecided_decide_iff d).2 (.inl rfl)

/-- A slot gets the fate of a decision only from that decision. -/
theorem fate_decide_cases {m : Model} {slot other : Slot} {d e : Decision}
    (h : (m.decide slot d).decided[other]? = some e) :
    e.fate = d.fate ∨ ∃ old, m.decided[other]? = some old ∧ old.fate = e.fate := by
  have hinsert {new : Decision} (h : (m.decided.insert slot new)[other]? = some e) :
      (slot = other ∧ new = e) ∨ m.decided[other]? = some e := by
    rw [Std.TreeMap.getElem?_insert] at h
    split at h
    · exact .inl ⟨Std.LawfulEqCmp.compare_eq_iff_eq.1 ‹_›, Option.some.inj h⟩
    · exact .inr h
  unfold decide at h
  split at h
  · rcases hinsert h with ⟨-, rfl⟩ | h
    · exact .inl rfl
    · exact .inr ⟨e, h, rfl⟩
  · rename_i old hold
    split at h
    · rcases hinsert h with ⟨rfl, rfl⟩ | h
      · exact .inr ⟨old, hold, rfl⟩
      · exact .inr ⟨e, h, rfl⟩
    · exact .inr ⟨e, h, rfl⟩

/-! ## Moves -/

/-- The model with an open slot cleared. -/
def clear (m : Model) (slot : Slot) (d : Decision) : Model :=
  { m with present := m.present.erase slot }.decide slot d

/-- The model with a package in its slot. -/
def fill (m : Model) (p : Package) (d : Decision) : Model :=
  { m with present := m.present.insert p.slot p }.decide p.slot d

/-- One slot is decided; `may` says which packages may be brought in. -/
inductive Move (may : Package → Prop) (m : Model) : Model → Prop
  | keep {slot : Slot} {d : Decision} (hopen : m.isDecided slot = false)
      (hfate : d.fate ≠ .reinstalled) : Move may m (m.decide slot d)
  | clear {slot : Slot} {d : Decision} (hopen : m.isDecided slot = false)
      (hfate : d.fate ≠ .reinstalled) : Move may m (m.clear slot d)
  | fill {p : Package} {d : Decision} (hmay : may p) (hopen : m.isDecided p.slot = false)
      (hfate : d.fate ≠ .reinstalled)
      (hnew : ∀ q, m.present[p.slot]? = some q → q.build ≠ p.build) : Move may m (m.fill p d)

/-- The second model comes from the first by moves. -/
abbrev Reaches (may : Package → Prop) : Model → Model → Prop := Relation.ReflTransGen (Move may)

theorem present_clear (m : Model) (slot other : Slot) (d : Decision) :
    (m.clear slot d).present[other]? = if slot = other then none else m.present[other]? := by
  unfold clear
  rw [present_decide, Std.TreeMap.getElem?_erase]
  simp only [Std.LawfulEqCmp.compare_eq_iff_eq]

theorem present_fill (m : Model) (p : Package) (slot : Slot) (d : Decision) :
    (m.fill p d).present[slot]? = if p.slot = slot then some p else m.present[slot]? := by
  unfold fill
  rw [present_decide, Std.TreeMap.getElem?_insert]
  simp only [Std.LawfulEqCmp.compare_eq_iff_eq]

theorem decided?_clear_self {m : Model} {slot : Slot} (h : m.isDecided slot = false)
    (d : Decision) : (m.clear slot d).decided[slot]? = some d := decided?_decide_self (by exact h) d

theorem decided?_fill_self {m : Model} {p : Package} (h : m.isDecided p.slot = false)
    (d : Decision) : (m.fill p d).decided[p.slot]? = some d := decided?_decide_self (by exact h) d

theorem Keyed.move {may : Package → Prop} {m m' : Model} (hm : m.Keyed) (h : m.Move may m') :
    m'.Keyed := by
  intro slot p hp
  cases h with
  | keep =>
    rw [present_decide] at hp
    exact hm slot p hp
  | clear =>
    rw [present_clear] at hp
    split at hp
    · cases hp
    · exact hm slot p hp
  | fill =>
    rw [present_fill] at hp
    split at hp
    · rename_i heq
      cases hp
      exact heq
    · exact hm slot p hp

theorem Keyed.reaches {may : Package → Prop} {m m' : Model} (hm : m.Keyed)
    (h : Reaches may m m') : m'.Keyed := by
  induction h with
  | refl => exact hm
  | tail _ hmove ih => exact ih.move hmove

theorem Move.attitude {may : Package → Prop} {m m' : Model} (h : m.Move may m') :
    m'.erasesDependents = m.erasesDependents := by
  cases h with
  | keep => exact erasesDependents_decide m _ _
  | clear => exact erasesDependents_decide _ _ _
  | fill => exact erasesDependents_decide _ _ _

theorem Reaches.attitude {may : Package → Prop} {m m' : Model} (h : Reaches may m m') :
    m'.erasesDependents = m.erasesDependents := by
  induction h with
  | refl => rfl
  | tail _ hmove ih => exact hmove.attitude.trans ih

/-! ## What moves leave alone -/

/-- The two models hold the same package in a slot, by the same decision. -/
structure SameAt (slot : Slot) (m m' : Model) : Prop where
  present : m'.present[slot]? = m.present[slot]?
  decided : m'.decided[slot]? = m.decided[slot]?

theorem SameAt.refl (slot : Slot) (m : Model) : SameAt slot m m := ⟨rfl, rfl⟩

theorem SameAt.trans {slot : Slot} {m m' m'' : Model} (h : SameAt slot m m')
    (h' : SameAt slot m' m'') : SameAt slot m m'' :=
  ⟨h'.present.trans h.present, h'.decided.trans h.decided⟩

theorem SameAt.isDecided {slot : Slot} {m m' : Model} (h : SameAt slot m m') :
    m'.isDecided slot = m.isDecided slot := by
  rw [isDecided_eq, isDecided_eq, h.decided]

theorem SameAt.isReinstalled {slot : Slot} {m m' : Model} (h : SameAt slot m m') :
    m'.isReinstalled slot = m.isReinstalled slot := by
  unfold Model.isReinstalled
  rw [h.decided]

/-- Deciding a slot changes nothing about the others. -/
theorem sameAt_decide (m : Model) {slot other : Slot} (d : Decision) (hne : other ≠ slot) :
    SameAt other m (m.decide slot d) := by
  have hinsert (e : Decision) : (m.decided.insert slot e)[other]? = m.decided[other]? := by
    rw [Std.TreeMap.getElem?_insert, if_neg]
    rw [Std.LawfulEqCmp.compare_eq_iff_eq]
    exact hne.symm
  refine ⟨by rw [present_decide], ?_⟩
  unfold decide
  split
  · exact hinsert d
  · split
    · exact hinsert _
    · rfl

theorem sameAt_clear (m : Model) {slot other : Slot} (d : Decision) (hne : other ≠ slot) :
    SameAt other m (m.clear slot d) := by
  refine ⟨?_, (sameAt_decide { m with present := _ } d hne).decided⟩
  rw [present_clear, if_neg hne.symm]

theorem sameAt_fill (m : Model) {p : Package} {other : Slot} (d : Decision)
    (hne : other ≠ p.slot) : SameAt other m (m.fill p d) := by
  refine ⟨?_, (sameAt_decide { m with present := _ } d hne).decided⟩
  rw [present_fill, if_neg hne.symm]

/-- A slot that is decided in the model is not one that is open. -/
theorem ne_of_isDecided {m : Model} {slot other : Slot} (hslot : m.isDecided slot)
    (hother : m.isDecided other = false) : slot ≠ other := by
  rintro rfl
  rw [hslot] at hother
  cases hother

theorem Move.sameAt {may : Package → Prop} {m m' : Model} (h : m.Move may m') {slot : Slot}
    (hslot : m.isDecided slot) : SameAt slot m m' := by
  cases h with
  | keep hopen => exact sameAt_decide m _ (ne_of_isDecided hslot hopen)
  | clear hopen => exact sameAt_clear m _ (ne_of_isDecided hslot hopen)
  | fill _ hopen => exact sameAt_fill m _ (ne_of_isDecided hslot hopen)

theorem Reaches.sameAt {may : Package → Prop} {m m' : Model} (h : Reaches may m m') {slot : Slot}
    (hslot : m.isDecided slot) : SameAt slot m m' := by
  induction h with
  | refl => exact .refl slot m
  | tail _ hmove ih => exact ih.trans (hmove.sameAt (ih.isDecided.trans hslot))

end Model

end Provision.Solver
