import Mathlib.Data.List.Forall2

/-!
# Steps that may fail

A sequence of steps gives a value just if each of its parts does (`bind_eq_ok`). Adding what is read
from the members of a list, one after the other, gives what adding all of it gives, if all of it can
be read (`foldlM_eq_ok_iff`).
-/

namespace Provision

theorem bind_eq_ok {ε α β : Type} {x : Except ε α} {f : α → Except ε β} {b : β} :
    x >>= f = .ok b ↔ ∃ a, x = .ok a ∧ f a = .ok b := by
  rcases x with e | a
  · constructor
    · intro h
      cases h
    · rintro ⟨a, h, -⟩
      cases h
  · constructor
    · intro h
      exact ⟨a, rfl, h⟩
    · rintro ⟨a', h, hf⟩
      cases h
      exact hf

section Related

variable {α β : Type} {r : α → β → Prop} {xs : List α} {ys : List β}

theorem exists_forall₂ (h : ∀ x ∈ xs, ∃ y, r x y) : ∃ ys, List.Forall₂ r xs ys := by
  induction xs with
  | nil => exact ⟨[], .nil⟩
  | cons x rest ih =>
    obtain ⟨y, hy⟩ := h x List.mem_cons_self
    obtain ⟨ys, hys⟩ := ih fun z hz => h z (List.mem_cons_of_mem x hz)
    exact ⟨y :: ys, .cons hy hys⟩

theorem exists_of_forall₂ (h : List.Forall₂ r xs ys) : ∀ x ∈ xs, ∃ y ∈ ys, r x y := by
  induction h with
  | nil => exact fun x hx => by cases hx
  | cons hy _ ih =>
    intro x hx
    rcases List.mem_cons.1 hx with rfl | hx
    · exact ⟨_, List.mem_cons_self, hy⟩
    · obtain ⟨y, hmem, hxy⟩ := ih x hx
      exact ⟨y, List.mem_cons_of_mem _ hmem, hxy⟩

end Related

theorem foldlM_eq_ok_iff {ε α β σ : Type} {read : α → Except ε β} {add : σ → β → σ} {xs : List α}
    {s t : σ} :
    xs.foldlM (fun s x => return add s (← read x)) s = .ok t ↔
      ∃ ys, List.Forall₂ (fun x y => read x = .ok y) xs ys ∧ ys.foldl add s = t := by
  induction xs generalizing s with
  | nil =>
    constructor
    · intro h
      cases h
      exact ⟨[], .nil, rfl⟩
    · rintro ⟨ys, h, rfl⟩
      cases h
      rfl
  | cons x rest ih =>
    rw [List.foldlM_cons]
    constructor
    · intro h
      obtain ⟨next, hnext, hrest⟩ := bind_eq_ok.1 h
      obtain ⟨y, hy, hadd⟩ := bind_eq_ok.1 hnext
      cases hadd
      obtain ⟨ys, hys, rfl⟩ := ih.1 hrest
      exact ⟨y :: ys, .cons hy hys, rfl⟩
    · rintro ⟨ys, h, rfl⟩
      cases h with
      | cons hy hys =>
        exact bind_eq_ok.2 ⟨_, bind_eq_ok.2 ⟨_, hy, rfl⟩, ih.2 ⟨_, hys, rfl⟩⟩

end Provision
