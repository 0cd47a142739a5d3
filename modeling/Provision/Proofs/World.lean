import Provision.Proofs.Plan.Permutation
import Provision.Proofs.Query

/-!
# Worlds

The world after a transaction is what was installed, without what its items take off, and with what
they bring in, each package in its slot (`Index.worldAfter`). It is the world that the changes lead to
from which the items were made (`Index.mem_worldAfter_iff`).
-/

namespace Provision

/-- The packages that items bring in. -/
def Item.broughtIn (items : List Item) : List Package :=
  (items.filter (·.action.isInbound)).map Item.package

/-- The packages that items take off. -/
def Item.takenOff (items : List Item) : List Package :=
  (items.filter (·.action.isRemoval)).map Item.package

/-- The packages that changes bring in. -/
def Change.broughtIn (changes : List Change) : List Package :=
  (changes.filter (·.action.isInbound)).map Change.package

/-- The packages that changes take off. -/
def Change.takenOff (changes : List Change) : List Package :=
  (changes.filter (·.action.isRemoval)).map Change.package

theorem Change.mem_broughtIn_iff {changes : List Change} {p : Package} :
    p ∈ broughtIn changes ↔ ∃ c ∈ changes, c.action.isInbound ∧ c.package = p := by
  simp only [broughtIn, List.mem_map, List.mem_filter, and_assoc]

theorem Change.mem_takenOff_iff {changes : List Change} {p : Package} :
    p ∈ takenOff changes ↔ ∃ c ∈ changes, c.action.isRemoval ∧ c.package = p := by
  simp only [takenOff, List.mem_map, List.mem_filter, and_assoc]

theorem Item.mem_broughtIn_iff {items : List Item} {p : Package} :
    p ∈ broughtIn items ↔ ∃ i ∈ items, i.action.isInbound ∧ i.package = p := by
  simp only [broughtIn, List.mem_map, List.mem_filter, and_assoc]

theorem Item.mem_takenOff_iff {items : List Item} {p : Package} :
    p ∈ takenOff items ↔ ∃ i ∈ items, i.action.isRemoval ∧ i.package = p := by
  simp only [takenOff, List.mem_map, List.mem_filter, and_assoc]

namespace Plan.Orders

variable {items : List Item} {changes : List Change} (h : Plan.Orders items changes)

include h

/-- What is said of the packages and actions of items is said of those of the changes. -/
theorem exists_iff (holds : Action → Package → Prop) :
    (∃ i ∈ items, holds i.action i.package) ↔ ∃ c ∈ changes, holds c.action c.package := by
  constructor
  · rintro ⟨i, hi, hholds⟩
    obtain ⟨c, hc, position, rfl⟩ := h.of_mem i hi
    exact ⟨c, hc, hholds⟩
  · rintro ⟨c, hc, hholds⟩
    obtain ⟨position, hi⟩ := h.mem_of c hc
    exact ⟨_, hi, hholds⟩

theorem mem_broughtIn_iff {p : Package} :
    p ∈ Item.broughtIn items ↔ p ∈ Change.broughtIn changes := by
  rw [Item.mem_broughtIn_iff, Change.mem_broughtIn_iff]
  exact h.exists_iff fun action package => action.isInbound ∧ package = p

theorem mem_takenOff_iff {p : Package} :
    p ∈ Item.takenOff items ↔ p ∈ Change.takenOff changes := by
  rw [Item.mem_takenOff_iff, Change.mem_takenOff_iff]
  exact h.exists_iff fun action package => action.isRemoval ∧ package = p

end Plan.Orders

@[simp] theorem Change.broughtIn_append (cs ds : List Change) :
    broughtIn (cs ++ ds) = broughtIn cs ++ broughtIn ds := by
  simp only [broughtIn, List.filter_append, List.map_append]

@[simp] theorem Change.takenOff_append (cs ds : List Change) :
    takenOff (cs ++ ds) = takenOff cs ++ takenOff ds := by
  simp only [takenOff, List.filter_append, List.map_append]

namespace Index

/-- What is installed without `taken`, and with each package of `brought` in its slot. -/
def exchange (ix : Index) (taken brought : List Package) : List Package :=
  (ix.installedPackages.filter fun p =>
    decide (p ∉ taken) && brought.all fun q => q.slot ≠ p.slot) ++ brought

/-- What is installed once the items have been carried out. -/
def worldAfter (ix : Index) (items : List Item) : List Package :=
  ix.exchange (Item.takenOff items) (Item.broughtIn items)

/-- What is installed once the changes have been made. -/
def worldWith (ix : Index) (changes : List Change) : List Package :=
  ix.exchange (Change.takenOff changes) (Change.broughtIn changes)

theorem mem_exchange_iff {ix : Index} {taken brought : List Package} {p : Package} :
    p ∈ ix.exchange taken brought ↔
      (p ∈ ix.installedPackages ∧ p ∉ taken ∧ ∀ q ∈ brought, q.slot ≠ p.slot) ∨ p ∈ brought := by
  unfold exchange
  rw [List.mem_append, List.mem_filter, Bool.and_eq_true, decide_eq_true_eq, List.all_eq_true]
  simp only [decide_eq_true_eq]

/-- An exchange of nothing leaves what is installed. -/
theorem mem_exchange_nil_iff {ix : Index} {p : Package} :
    p ∈ ix.exchange [] [] ↔ p ∈ ix.installedPackages := by
  rw [mem_exchange_iff]
  simp

/-- Carrying out items leads where the changes lead that they were made from. -/
theorem mem_worldAfter_iff {ix : Index} {items : List Item} {changes : List Change}
    (h : Plan.Orders items changes) {p : Package} :
    p ∈ ix.worldAfter items ↔ p ∈ ix.worldWith changes := by
  unfold worldAfter worldWith
  simp only [mem_exchange_iff, h.mem_takenOff_iff, h.mem_broughtIn_iff]

end Index

end Provision
