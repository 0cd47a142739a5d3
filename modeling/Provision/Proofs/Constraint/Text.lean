import Provision.Proofs.Constraint.Bounds
import Provision.Proofs.Evr.Text

/-!
# Constraints and their texts

A constraint that was read is a chain of parts, each of them nothing or a bound (`IsRead`). In
writing there is a comma after each part but the last, and none within a part, since the part was
read from a text without one. So the written chain is cut where it was joined, and each of its parts
is read by itself. The operator of a part is written in front of a blank, so that nothing behind it
can be taken for more of it, and the text is read again as long as each version in it is
(`ofChars_text_iff`).
-/

namespace Provision.Constraint

/-! ## What reading gives -/

/-- A part that was read: nothing, or a bound with a version that was read. -/
inductive IsPart : Constraint → Prop
  | any : IsPart any
  | bound (comparison : Comparison) {evr : Evr} (hread : evr.IsRead)
      (hcomma : ',' ∉ evr.text.toList) : IsPart (bound comparison evr)

/-- What holds of every constraint that was read: it is a chain of parts. -/
inductive IsRead : Constraint → Prop
  | part {c : Constraint} (h : c.IsPart) : IsRead c
  | both {left right : Constraint} (hleft : left.IsPart) (hright : IsRead right) :
      IsRead (both left right)

theorem mem_of_mem_comparison {s : List Char} {c : Char} (h : c ∈ (Comparison.ofChars s).2) :
    c ∈ s := by
  unfold Comparison.ofChars at h
  split at h <;> simp_all

theorem isPart_of_ofPart {s : List Char} {c : Constraint} (hcomma : ',' ∉ s)
    (h : ofPart s = .ok c) : c.IsPart := by
  unfold ofPart at h
  split at h
  · cases h
    exact .any
  · cases h
    exact .any
  · obtain ⟨evr, hevr, heq⟩ := bind_eq_ok.1 h
    cases heq
    refine .bound _ (Evr.isRead_of_ofChars hevr) ?_
    refine Evr.not_mem_text_of_ofChars (by decide) (by decide) hevr fun hmem => hcomma ?_
    exact (Text.trim_sublist s).subset (mem_of_mem_comparison hmem)

/-- By induction along the parts. -/
theorem isRead_of_ofParts {parts : List (List Char)} {c : Constraint}
    (hcomma : ∀ part ∈ parts, ',' ∉ part) (h : ofParts parts = .ok c) : c.IsRead := by
  induction parts generalizing c with
  | nil =>
    cases h
    exact .part .any
  | cons part rest ih =>
    obtain ⟨hpart, hrest⟩ := List.forall_mem_cons.1 hcomma
    cases rest with
    | nil => exact .part (isPart_of_ofPart hpart h)
    | cons next rest =>
      obtain ⟨left, hleft, h⟩ := bind_eq_ok.1 h
      obtain ⟨right, hright, heq⟩ := bind_eq_ok.1 h
      cases heq
      exact .both (isPart_of_ofPart hpart hleft) (ih hrest hright)

theorem isRead_of_ofChars {s : List Char} {c : Constraint} (h : ofChars s = .ok c) : c.IsRead :=
  isRead_of_ofParts (fun _ => Text.not_mem_of_mem_splitAll) h

/-! ## Blanks in front -/

section Blanks

variable {b : Char} (hb : Text.isBlank b) (s : List Char)

include hb

theorem ofPart_cons : ofPart (b :: s) = ofPart s := by
  unfold ofPart
  rw [Text.trim_cons hb]

theorem ofChars_cons : ofChars (b :: s) = ofChars s := by
  have hcomma : b ≠ ',' := by
    rintro rfl
    exact absurd hb (by decide)
  obtain ⟨piece, pieces, hs, hcons⟩ := Text.splitAll_cons_of_ne hcomma s
  unfold ofChars
  rw [hs, hcons]
  rcases pieces with _ | ⟨next, pieces⟩
  · exact ofPart_cons hb piece
  · unfold ofParts
    rw [ofPart_cons hb]

end Blanks

/-! ## How a constraint is written -/

theorem toList_text_bound (comparison : Comparison) (evr : Evr) :
    (bound comparison evr).text.toList = comparison.symbol.toList ++ ' ' :: evr.text.toList := by
  simp [text]

theorem toList_text_both (left right : Constraint) :
    (both left right).text.toList = left.text.toList ++ ',' :: ' ' :: right.text.toList := by
  simp [text]

theorem text_ne_nil (c : Constraint) : c.text.toList ≠ [] := by
  cases c with
  | any => decide
  | bound comparison evr =>
    rw [toList_text_bound]
    exact List.append_ne_nil_of_right_ne_nil _ (List.cons_ne_nil _ _)
  | both left right =>
    rw [toList_text_both]
    exact List.append_ne_nil_of_right_ne_nil _ (List.cons_ne_nil _ _)

theorem comma_not_mem_text {c : Constraint} (h : c.IsPart) : ',' ∉ c.text.toList := by
  cases h with
  | any => simp [text]
  | bound comparison hread hcomma =>
    rw [toList_text_bound, List.mem_append, List.mem_cons, not_or, not_or]
    refine ⟨?_, by decide, hcomma⟩
    cases comparison <;> simp [Comparison.symbol]

theorem head?_symbol (comparison : Comparison) (rest : List Char) :
    ∀ c ∈ (comparison.symbol.toList ++ rest).head?, Text.isBlank c = false := by
  cases comparison <;> simp [Comparison.symbol] <;> decide

theorem trim_text {c : Constraint} (h : c.IsPart) : Text.trim c.text.toList = c.text.toList := by
  cases h with
  | any => rfl
  | @bound comparison evr hread =>
    rw [toList_text_bound, Text.trim_eq_self_iff]
    refine ⟨head?_symbol comparison _, fun c hc => ?_⟩
    have hne : evr.text.toList ≠ [] := by
      rw [Evr.toList_text]
      exact List.append_ne_nil_of_right_ne_nil _ (Evr.body_ne_nil hread.version_ne)
    rw [List.getLast?_append_cons, List.getLast?_cons_of_ne_nil hne,
      Evr.getLast?_text hread.version_ne] at hc
    exact hread.last c hc

/-- By induction along the chain of parts. -/
theorem IsRead.last_text {c : Constraint} (h : c.IsRead) :
    ∀ b ∈ c.text.toList.getLast?, Text.isBlank b = false := by
  induction h with
  | part h => exact (Text.trim_eq_self_iff.1 (trim_text h)).2
  | @both left right _ _ ih =>
    rw [toList_text_both, List.getLast?_append_cons, List.getLast?_cons_cons,
      List.getLast?_cons_of_ne_nil (text_ne_nil right)]
    exact ih

/-! ## Reading what was written -/

/-- The blank behind an operator ends it. -/
theorem comparison_text (comparison : Comparison) (rest : List Char) :
    Comparison.ofChars (comparison.symbol.toList ++ ' ' :: rest) = (comparison, ' ' :: rest) := by
  cases comparison <;> simp [Comparison.symbol, Comparison.ofChars]

theorem ofPart_text_bound {comparison : Comparison} {evr : Evr}
    (h : (bound comparison evr).IsPart) :
    ofPart (bound comparison evr).text.toList =
      (do return bound comparison (← Evr.ofChars evr.text.toList)) := by
  have hofChars := comparison_text comparison evr.text.toList
  rw [← toList_text_bound] at hofChars
  unfold ofPart
  rw [trim_text h]
  split
  · rename_i heq
    rw [heq] at hofChars
    cases hofChars
  · rename_i heq
    rw [heq] at hofChars
    cases hofChars
  · rw [hofChars]
    show (do return bound comparison (← Evr.ofChars (' ' :: evr.text.toList))) = _
    rw [Evr.ofChars_cons (by decide)]

theorem ofPart_text_iff {c : Constraint} (h : c.IsPart) :
    ofPart c.text.toList = .ok c ↔ ∀ b ∈ c.bounds, b.2.Plain := by
  cases hpart : h with
  | any => exact iff_of_true rfl (by simp [bounds])
  | bound comparison hread =>
    rw [ofPart_text_bound h, bounds, List.forall_mem_singleton,
      ← Evr.ofChars_text_iff_plain hread, bind_eq_ok]
    constructor
    · rintro ⟨evr, hevr, heq⟩
      cases heq
      exact hevr
    · intro hevr
      exact ⟨_, hevr, rfl⟩

theorem ofParts_cons {part : List Char} {parts : List (List Char)} (h : parts ≠ []) :
    ofParts (part :: parts) = (do
      let left ← ofPart part
      return both left (← ofParts parts)) := by
  cases parts with
  | nil => exact absurd rfl h
  | cons next rest => rfl

/-- The first comma is the one behind the first part. -/
theorem ofChars_text_both {left : Constraint} (h : left.IsPart) (right : Constraint) :
    ofChars (both left right).text.toList = (do
      let l ← ofPart left.text.toList
      return both l (← ofChars right.text.toList)) := by
  rw [toList_text_both, ofChars, Text.splitAll_append (comma_not_mem_text h),
    ofParts_cons (Text.splitAll_ne_nil _ _), ← ofChars, ofChars_cons (by decide)]

/-- What was read is read again from its written form exactly when all versions in it are. -/
theorem ofChars_text_iff {c : Constraint} (h : c.IsRead) :
    ofChars c.text.toList = .ok c ↔ ∀ b ∈ c.bounds, b.2.Plain := by
  induction h with
  | part h =>
    rw [← ofPart_text_iff h, ofChars, Text.splitAll_of_not_mem (comma_not_mem_text h)]
    rfl
  | @both left right hleft _ ih =>
    rw [ofChars_text_both hleft, bounds, List.forall_mem_append, ← ofPart_text_iff hleft, ← ih,
      bind_eq_ok]
    constructor
    · rintro ⟨l, hl, hrest⟩
      obtain ⟨r, hr, heq⟩ := bind_eq_ok.1 hrest
      cases heq
      exact ⟨hl, hr⟩
    · rintro ⟨hl, hr⟩
      exact ⟨left, hl, bind_eq_ok.2 ⟨right, hr, rfl⟩⟩

end Provision.Constraint
