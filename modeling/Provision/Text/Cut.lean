/-!
# Cutting a text at a separator

`cutFirst` and `cutLast` split a text in two at the first or last place where a character stands and
drop that character; `splitAll` cuts at every place, `splitLines` at the ends of lines.
-/

namespace Provision.Text

def cutFirst (sep : Char) : List Char → Option (List Char × List Char)
  | [] => none
  | c :: rest =>
    if c = sep then some ([], rest)
    else (cutFirst sep rest).map fun parts => (c :: parts.1, parts.2)

def cutLast (sep : Char) : List Char → Option (List Char × List Char)
  | [] => none
  | c :: rest =>
    match cutLast sep rest with
    | some parts => some (c :: parts.1, parts.2)
    | none => if c = sep then some ([], rest) else none

/-- The pieces between the separators; a text without one is its only piece. -/
def splitAll (sep : Char) : List Char → List (List Char)
  | [] => [[]]
  | c :: rest =>
    if c = sep then [] :: splitAll sep rest
    else
      match splitAll sep rest with
      | [] => [[c]]
      | piece :: pieces => (c :: piece) :: pieces

/-- A text without the carriage return at its end. -/
def dropReturn (s : List Char) : List Char :=
  if s.getLast? = some '\r' then s.dropLast else s

/-- The lines of a text; a line may end with a carriage return and a newline. -/
def splitLines (s : List Char) : List (List Char) := (splitAll '\n' s).map dropReturn

theorem eq_of_cutFirst {sep : Char} {s a b : List Char} (h : cutFirst sep s = some (a, b)) :
    s = a ++ sep :: b := by
  induction s generalizing a b with
  | nil => simp [cutFirst] at h
  | cons c rest ih =>
    by_cases hc : c = sep
    · simp only [cutFirst, hc, ↓reduceIte, Option.some.injEq, Prod.mk.injEq] at h
      simp [hc, ← h.1, ← h.2]
    · simp only [cutFirst, hc, ↓reduceIte, Option.map_eq_some_iff] at h
      obtain ⟨⟨x, y⟩, hxy, heq⟩ := h
      simp only [Prod.mk.injEq] at heq
      simp [← heq.1, ← heq.2, ih hxy]

theorem eq_of_cutLast {sep : Char} {s a b : List Char} (h : cutLast sep s = some (a, b)) :
    s = a ++ sep :: b := by
  induction s generalizing a b with
  | nil => simp [cutLast] at h
  | cons c rest ih =>
    simp only [cutLast] at h
    split at h
    · rename_i parts hparts
      simp only [Option.some.injEq, Prod.mk.injEq] at h
      simp [← h.1, ← h.2, ih hparts]
    · split at h
      · rename_i hc
        simp only [Option.some.injEq, Prod.mk.injEq] at h
        simp [hc, ← h.1, ← h.2]
      · simp at h

end Provision.Text
