import Mathlib
import Provision.Text.Blank
import Provision.Text.Cut
import Provision.Text.Numeral

/-!
# Texts that are read back

What was joined at a separator is what the cut at it gives, as long as the separator does not stand
in the part on the far side (`cutFirst_eq_some_iff`, `cutLast_eq_some_iff`) or, where every separator
cuts, in any part (`splitAll_append`, `splitAll_of_not_mem`). A text is its own
trimmed form exactly when no blank stands at its ends (`trim_eq_self_iff`). The digits of a number
within the limit are read as that number (`readNumeral_toDigits`), and nothing shorter is
(`length_toDigits_le`).
-/

namespace Provision.Text

/-! ## Cutting -/

section Cutting

variable {sep : Char} {s a b : List Char}

theorem cutFirst_eq_none_iff : cutFirst sep s = none ↔ sep ∉ s := by
  induction s with
  | nil => simp [cutFirst]
  | cons c rest ih =>
    by_cases hc : c = sep
    · simp [cutFirst, hc]
    · simp [cutFirst, hc, Ne.symm hc, ih]

theorem cutFirst_append (h : sep ∉ a) : cutFirst sep (a ++ sep :: b) = some (a, b) := by
  induction a with
  | nil => simp [cutFirst]
  | cons c rest ih =>
    rw [List.mem_cons, not_or] at h
    simp [cutFirst, Ne.symm h.1, ih h.2]

theorem not_mem_of_cutFirst (h : cutFirst sep s = some (a, b)) : sep ∉ a := by
  induction s generalizing a with
  | nil => cases h
  | cons c rest ih =>
    unfold cutFirst at h
    split at h
    · cases h
      exact List.not_mem_nil
    · rename_i hc
      obtain ⟨⟨a', b'⟩, hcut, heq⟩ := Option.map_eq_some_iff.1 h
      cases heq
      rw [List.mem_cons, not_or]
      exact ⟨Ne.symm hc, ih hcut⟩

theorem cutFirst_eq_some_iff : cutFirst sep s = some (a, b) ↔ s = a ++ sep :: b ∧ sep ∉ a := by
  constructor
  · intro h
    exact ⟨eq_of_cutFirst h, not_mem_of_cutFirst h⟩
  · rintro ⟨rfl, h⟩
    exact cutFirst_append h

theorem cutLast_eq_none_iff : cutLast sep s = none ↔ sep ∉ s := by
  induction s with
  | nil => simp [cutLast]
  | cons c rest ih =>
    rcases hcut : cutLast sep rest with _ | parts
    · have hrest := ih.1 hcut
      by_cases hc : c = sep
      · simp [cutLast, hcut, hc]
      · simp [cutLast, hcut, hc, Ne.symm hc, hrest]
    · have hrest : sep ∈ rest := by
        by_contra hnot
        rw [ih.2 hnot] at hcut
        cases hcut
      simp [cutLast, hcut, hrest]

theorem cutLast_append (h : sep ∉ b) (a : List Char) :
    cutLast sep (a ++ sep :: b) = some (a, b) := by
  induction a with
  | nil =>
    show cutLast sep (sep :: b) = _
    simp [cutLast, cutLast_eq_none_iff.2 h]
  | cons c rest ih => simp [cutLast, ih]

theorem not_mem_of_cutLast (h : cutLast sep s = some (a, b)) : sep ∉ b := by
  induction s generalizing a with
  | nil => cases h
  | cons c rest ih =>
    unfold cutLast at h
    split at h
    · rename_i parts hcut
      cases h
      exact ih hcut
    · rename_i hcut
      split at h
      · cases h
        exact cutLast_eq_none_iff.1 hcut
      · cases h

theorem cutLast_eq_some_iff : cutLast sep s = some (a, b) ↔ s = a ++ sep :: b ∧ sep ∉ b := by
  constructor
  · intro h
    exact ⟨eq_of_cutLast h, not_mem_of_cutLast h⟩
  · rintro ⟨rfl, h⟩
    exact cutLast_append h a

/-- There is one way to write a text as two parts with a separator that the second is without. -/
theorem eq_of_append_cons_eq {c d : List Char} (h : a ++ sep :: b = c ++ sep :: d) (hb : sep ∉ b)
    (hd : sep ∉ d) : a = c ∧ b = d := by
  have hcut := cutLast_append hb a
  rw [h, cutLast_append hd] at hcut
  cases hcut
  exact ⟨rfl, rfl⟩

end Cutting

section Splitting

variable {sep : Char} {s a b : List Char}

theorem splitAll_ne_nil (sep : Char) (s : List Char) : splitAll sep s ≠ [] := by
  cases s with
  | nil => exact List.cons_ne_nil _ _
  | cons c rest =>
    unfold splitAll
    split
    · exact List.cons_ne_nil _ _
    · split <;> exact List.cons_ne_nil _ _

theorem splitAll_cons_of_ne {c : Char} (hc : c ≠ sep) (s : List Char) :
    ∃ piece pieces, splitAll sep s = piece :: pieces ∧
      splitAll sep (c :: s) = (c :: piece) :: pieces := by
  obtain ⟨piece, pieces, hs⟩ := List.exists_cons_of_ne_nil (splitAll_ne_nil sep s)
  refine ⟨piece, pieces, hs, ?_⟩
  unfold splitAll
  rw [if_neg hc, hs]

theorem splitAll_append (h : sep ∉ a) (b : List Char) :
    splitAll sep (a ++ sep :: b) = a :: splitAll sep b := by
  induction a with
  | nil => exact if_pos rfl
  | cons c rest ih =>
    rw [List.mem_cons, not_or] at h
    obtain ⟨piece, pieces, hrest, hcons⟩ := splitAll_cons_of_ne (Ne.symm h.1) (rest ++ sep :: b)
    rw [ih h.2] at hrest
    cases hrest
    exact hcons

theorem splitAll_of_not_mem (h : sep ∉ s) : splitAll sep s = [s] := by
  induction s with
  | nil => rfl
  | cons c rest ih =>
    rw [List.mem_cons, not_or] at h
    obtain ⟨piece, pieces, hrest, hcons⟩ := splitAll_cons_of_ne (Ne.symm h.1) rest
    rw [ih h.2] at hrest
    cases hrest
    exact hcons

theorem not_mem_of_mem_splitAll {piece : List Char} (h : piece ∈ splitAll sep s) :
    sep ∉ piece := by
  induction s generalizing piece with
  | nil =>
    rw [List.mem_singleton.1 h]
    exact List.not_mem_nil
  | cons c rest ih =>
    by_cases hc : c = sep
    · unfold splitAll at h
      rw [if_pos hc] at h
      rcases List.mem_cons.1 h with rfl | h
      · exact List.not_mem_nil
      · exact ih h
    · obtain ⟨first, pieces, hrest, hcons⟩ := splitAll_cons_of_ne hc rest
      rw [hcons] at h
      rw [hrest] at ih
      rcases List.mem_cons.1 h with rfl | h
      · rw [List.mem_cons, not_or]
        exact ⟨Ne.symm hc, ih List.mem_cons_self⟩
      · exact ih (List.mem_cons_of_mem first h)

end Splitting

/-! ## Trimming -/

section Trimming

variable {s : List Char}

theorem trim_eq (s : List Char) : trim s = (s.dropWhile isBlank).rdropWhile isBlank := rfl

theorem trim_sublist (s : List Char) : (trim s).Sublist s :=
  (List.rdropWhile_prefix isBlank (s.dropWhile isBlank)).sublist.trans (List.dropWhile_sublist _)

theorem length_trim_le (s : List Char) : (trim s).length ≤ s.length := (trim_sublist s).length_le

/-- A text that is not its own trimmed form is longer. -/
theorem eq_or_length_trim_lt (s : List Char) : trim s = s ∨ (trim s).length < s.length := by
  rcases Nat.lt_or_ge (trim s).length s.length with hlt | hge
  · exact .inr hlt
  · exact .inl ((trim_sublist s).eq_of_length_le hge)

theorem trim_eq_self_iff :
    trim s = s ↔ (∀ c ∈ s.head?, isBlank c = false) ∧ ∀ c ∈ s.getLast?, isBlank c = false := by
  have hfront : s.dropWhile isBlank = s ↔ ∀ c ∈ s.head?, isBlank c = false := by
    rcases s with _ | ⟨c, rest⟩
    · simp
    · rw [List.dropWhile_eq_self_iff]
      simp
  have hback : s.rdropWhile isBlank = s ↔ ∀ c ∈ s.getLast?, isBlank c = false := by
    rw [List.rdropWhile_eq_self_iff]
    rcases List.eq_nil_or_concat s with rfl | ⟨rest, c, rfl⟩
    · simp
    · simp
  rw [← hfront, ← hback, trim_eq]
  constructor
  · intro h
    have hle := (List.rdropWhile_prefix isBlank (s.dropWhile isBlank)).length_le
    rw [h] at hle
    have hdrop := (List.dropWhile_sublist isBlank).eq_of_length_le hle
    rw [hdrop] at h
    exact ⟨hdrop, h⟩
  · rintro ⟨hdrop, hrdrop⟩
    rw [hdrop, hrdrop]

theorem trim_trim (s : List Char) : trim (trim s) = trim s := by
  have hback := List.rdropWhile_last_not isBlank (s.dropWhile isBlank)
  obtain ⟨cut, hcut⟩ := List.rdropWhile_prefix isBlank (s.dropWhile isBlank)
  rw [← trim_eq] at hback hcut
  refine trim_eq_self_iff.2 ⟨?_, ?_⟩
  · intro c hc
    obtain ⟨rest, hrest⟩ := List.head?_eq_some_iff.1 hc
    have hfront := List.head?_dropWhile_not isBlank s
    rw [← hcut, hrest] at hfront
    simpa using hfront
  · intro c hc
    obtain ⟨hne, hlast⟩ := List.mem_getLast?_eq_getLast hc
    simpa [hlast] using hback hne

theorem trim_cons {c : Char} (hc : isBlank c) (s : List Char) : trim (c :: s) = trim s := by
  unfold trim
  rw [List.dropWhile_cons_of_pos hc]

theorem trim_concat {c : Char} (hc : isBlank c) (s : List Char) : trim (s ++ [c]) = trim s := by
  rw [trim_eq, trim_eq, List.dropWhile_append]
  split
  · rename_i hempty
    rw [List.isEmpty_iff.1 hempty]
    simp [hc]
  · exact List.rdropWhile_concat_pos _ _ _ hc

theorem count_trim {c : Char} (hc : isBlank c = false) (s : List Char) :
    (trim s).count c = s.count c := by
  have hfront : c ∉ s.takeWhile isBlank := fun hmem => by
    simp [List.mem_takeWhile_imp hmem] at hc
  have hback : c ∉ (s.dropWhile isBlank).rtakeWhile isBlank := fun hmem => by
    simp [List.mem_rtakeWhile_imp hmem] at hc
  calc
    (trim s).count c = (trim s ++ (s.dropWhile isBlank).rtakeWhile isBlank).count c := by
      rw [List.count_append, List.count_eq_zero.2 hback, Nat.add_zero]
    _ = (s.dropWhile isBlank).count c := by rw [trim_eq, List.rdropWhile_append_rtakeWhile]
    _ = (s.takeWhile isBlank ++ s.dropWhile isBlank).count c := by
      rw [List.count_append, List.count_eq_zero.2 hfront, Nat.zero_add]
    _ = s.count c := by rw [List.takeWhile_append_dropWhile]

theorem isBlank_eq_false_of_isDigit {c : Char} (h : c.isDigit) : isBlank c = false := by
  obtain ⟨hzero, hnine⟩ := Char.isDigit_iff_toNat.1 h
  have hzero : 48 ≤ c.toNat := hzero
  have hnine : c.toNat ≤ 57 := hnine
  simp [isBlank, blankRanges]
  omega

end Trimming

/-! ## Numerals -/

section Numerals

variable {limit n : Nat} {s : List Char}

theorem readDigits_append (limit acc : Nat) (s t : List Char) :
    readDigits limit acc (s ++ t) = (readDigits limit acc s).bind fun n => readDigits limit n t := by
  induction s generalizing acc with
  | nil => rfl
  | cons c rest ih =>
    simp only [readDigits, List.cons_append]
    split
    · split
      · exact ih _
      · rfl
    · rfl

theorem readDigits_digitChar {acc d : Nat} (hd : d < 10) (h : acc * 10 + d ≤ limit) :
    readDigits limit acc [d.digitChar] = .ok (acc * 10 + d) := by
  have hdigit : d.digitChar.isDigit := by
    rw [Nat.isDigit_digitChar]
    exact decide_eq_true hd
  have hvalue : digitValue d.digitChar = d := Nat.toNat_digitChar_sub_48_of_lt_ten hd
  simp [readDigits, hdigit, hvalue, h]

/-- By induction on the number, digit after digit. -/
theorem readDigits_toDigits (h : n ≤ limit) : readDigits limit 0 (Nat.toDigits 10 n) = .ok n := by
  induction n using Nat.strongRecOn with
  | ind n ih =>
    rcases Nat.lt_or_ge n 10 with hlt | hge
    · rw [Nat.toDigits_of_lt_base hlt, readDigits_digitChar hlt (by omega)]
      simp
    · rw [Nat.toDigits_of_base_le (by decide) hge, readDigits_append,
        ih (n / 10) (by omega) (by omega)]
      show readDigits limit (n / 10) [(n % 10).digitChar] = _
      rw [readDigits_digitChar (by omega) (by omega)]
      congr 1
      omega

theorem isDigit_of_readDigits {acc : Nat} (h : readDigits limit acc s = .ok n) :
    ∀ c ∈ s, c.isDigit := by
  induction s generalizing acc with
  | nil => simp
  | cons c rest ih =>
    unfold readDigits at h
    split at h
    · rename_i hdigit
      split at h
      · exact List.forall_mem_cons.2 ⟨hdigit, ih h⟩
      · cases h
    · cases h

theorem lt_of_readDigits {acc : Nat} (h : readDigits limit acc s = .ok n) :
    n < (acc + 1) * 10 ^ s.length := by
  induction s generalizing acc with
  | nil =>
    cases h
    simp
  | cons c rest ih =>
    have hdigit := isDigit_of_readDigits h c List.mem_cons_self
    have hvalue : digitValue c ≤ 9 := by
      have hle : c.toNat ≤ 57 := (Char.isDigit_iff_toNat.1 hdigit).2
      show c.toNat - 48 ≤ 9
      omega
    simp only [readDigits, hdigit, ↓reduceIte] at h
    split at h
    · calc
        n < (acc * 10 + digitValue c + 1) * 10 ^ rest.length := ih h
        _ ≤ ((acc + 1) * 10) * 10 ^ rest.length := Nat.mul_le_mul_right _ (by omega)
        _ = (acc + 1) * 10 ^ (c :: rest).length := by
          rw [List.length_cons, Nat.pow_succ, Nat.mul_assoc, Nat.mul_comm 10]
    · cases h

/-- A numeral is digits, perhaps behind a plus sign. -/
theorem readNumeral_cases (h : readNumeral limit s = .ok n) :
    ∃ digits, digits ≠ [] ∧ readDigits limit 0 digits = .ok n ∧
      (s = digits ∨ s = '+' :: digits) := by
  unfold readNumeral at h
  split at h
  · cases h
  · cases h
  · rename_i digits hne
    exact ⟨digits, fun hnil => hne (by rw [hnil]), h, .inr rfl⟩
  · rename_i hne _ _
    exact ⟨s, hne, h, .inl rfl⟩

theorem readNumeral_toDigits (h : n ≤ limit) : readNumeral limit (Nat.toDigits 10 n) = .ok n := by
  have hread := readDigits_toDigits h
  have hdigits := isDigit_of_readDigits hread
  unfold readNumeral
  split
  · exact absurd ‹_› Nat.toDigits_ne_nil
  · simp_all
  · rename_i heq
    rw [heq] at hdigits
    exact absurd (hdigits '+' List.mem_cons_self) (by decide)
  · exact hread

theorem isDigit_of_readNumeral (h : readNumeral limit s = .ok n) :
    ∀ c ∈ s, c.isDigit ∨ c = '+' := by
  obtain ⟨digits, -, hread, rfl | rfl⟩ := readNumeral_cases h
  · exact fun c hc => .inl (isDigit_of_readDigits hread c hc)
  · refine List.forall_mem_cons.2 ⟨.inr rfl, ?_⟩
    exact fun c hc => .inl (isDigit_of_readDigits hread c hc)

/-- No text is a shorter numeral than the digits of the number. -/
theorem length_toDigits_le (h : readNumeral limit s = .ok n) :
    (Nat.toDigits 10 n).length ≤ s.length := by
  obtain ⟨digits, hne, hread, hs⟩ := readNumeral_cases h
  have hlt := lt_of_readDigits hread
  rw [Nat.zero_add, Nat.one_mul] at hlt
  have hle := (Nat.length_toDigits_le_iff (by decide) (List.length_pos_iff.2 hne)).2 hlt
  rcases hs with rfl | rfl
  · exact hle
  · exact Nat.le_succ_of_le hle

theorem le_of_readNumeral (h : readNumeral limit s = .ok n) : n ≤ limit := by
  obtain ⟨digits, -, hread, -⟩ := readNumeral_cases h
  exact readDigits_le (Nat.zero_le limit) hread

end Numerals

end Provision.Text
