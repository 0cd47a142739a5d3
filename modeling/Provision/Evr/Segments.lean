/-!
# Segment-wise comparison of versions

A version is read as a sequence of segments: runs of digits, runs of letters, and the marks `~` and
`^`. Every other character only separates. Digits compare by value and are newer than letters, `~`
is older than anything, the end of the version included, and `^` is newer than the end but older
than a segment.

`compareSegments` walks both versions at once and never builds the segments.
-/

namespace Provision.Evr

def isSegmentChar (c : Char) : Bool :=
  c.isAlphanum || c == '~' || c == '^'

/-- The version from its next segment on. -/
def skipSeparators (s : List Char) : List Char :=
  s.dropWhile fun c => !isSegmentChar c

theorem length_skipSeparators_le (s : List Char) : (skipSeparators s).length ≤ s.length :=
  (List.dropWhile_sublist _).length_le

/-- Runs of digits by value: without leading zeros the longer run is larger. -/
def compareDigits (a b : List Char) : Ordering :=
  let a := a.dropWhile (· == '0')
  let b := b.dropWhile (· == '0')
  (compare a.length b.length).then (compare a b)

/-- Two segments of the kind that the first one has; the second may be empty. -/
def compareRuns (digits : Bool) (a b : List Char) : Ordering :=
  if b.isEmpty then (if digits then .gt else .lt)
  else if digits then compareDigits a b
  else compare a b

/-- The characters that continue a segment. -/
def continues (digits : Bool) (c : Char) : Bool :=
  if digits then c.isDigit else c.isAlpha

theorem length_dropWhile_le (p : Char → Bool) (s : List Char) :
    (s.dropWhile p).length ≤ s.length :=
  (List.dropWhile_sublist _).length_le

/-- The next step of the comparison: an answer, or what is left of both versions. -/
def compareStep (a b : List Char) : Ordering ⊕ (List Char × List Char) :=
  match skipSeparators a, skipSeparators b with
  | '~' :: a, '~' :: b => .inr (a, b)
  | '~' :: _, _ => .inl .lt
  | _, '~' :: _ => .inl .gt
  | '^' :: a, '^' :: b => .inr (a, b)
  | '^' :: _, [] => .inl .gt
  | '^' :: _, _ => .inl .lt
  | [], '^' :: _ => .inl .lt
  | _, '^' :: _ => .inl .gt
  | [], [] => .inl .eq
  | [], _ :: _ => .inl .lt
  | _ :: _, [] => .inl .gt
  | x :: a, y :: b =>
    match compareRuns x.isDigit ((x :: a).takeWhile (continues x.isDigit))
        ((y :: b).takeWhile (continues x.isDigit)) with
    | .eq =>
      .inr (a.dropWhile (continues x.isDigit), (y :: b).dropWhile (continues x.isDigit))
    | answer => .inl answer

theorem compareStep_lt {a b a' b' : List Char} (h : compareStep a b = .inr (a', b')) :
    a'.length + b'.length < a.length + b.length := by
  have ha := length_skipSeparators_le a
  have hb := length_skipSeparators_le b
  have hd := length_dropWhile_le
  unfold compareStep at h
  split at h <;> grind

def compareSegments (a b : List Char) : Ordering :=
  match h : compareStep a b with
  | .inl answer => answer
  | .inr (a', b') =>
    have : a'.length + b'.length < a.length + b.length := compareStep_lt h
    compareSegments a' b'
termination_by a.length + b.length

end Provision.Evr
