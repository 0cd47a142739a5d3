import Mathlib

/-!
# Versions as sequences of segments

The rule by which versions compare, told of bytes. A version is a sequence of segments: its longest
runs of digits, its longest runs of letters, and the marks `~` and `^`; all other bytes only
separate. The kinds are ordered as `~`, the end of the version, `^`, letters, digits. Letters
compare byte by byte, digits by the number that they are written for, however large.

The value of a run of digits is known from the run without the zeros in front of it: of two such
runs the longer one is larger, and runs of one length compare by their digits
(`compare_significant`).
-/

namespace Provision.Evr

/-! ## Runs of bytes -/

def isDigitByte (b : UInt8) : Bool := '0'.toUInt8 ≤ b && b ≤ '9'.toUInt8

def isLetterByte (b : UInt8) : Bool :=
  ('A'.toUInt8 ≤ b && b ≤ 'Z'.toUInt8) || ('a'.toUInt8 ≤ b && b ≤ 'z'.toUInt8)

/-- Two digits or two letters that stand side by side are in one run. -/
def joins (b c : UInt8) : Bool :=
  (isDigitByte b && isDigitByte c) || (isLetterByte b && isLetterByte c)

/-- The number that digits are written for. -/
def runValue : List UInt8 → Nat
  | [] => 0
  | b :: rest => (b.toNat - '0'.toNat) * 10 ^ rest.length + runValue rest

/-- A segment of a version: a mark, a run of letters, or a run of digits by its value. -/
inductive Segment
  | tilde
  | caret
  | letters (run : List UInt8)
  | digits (value : Nat)
  deriving DecidableEq, Repr

namespace Segment

/-- The segment that a run is, which a separator is not. -/
def ofRun? : List UInt8 → Option Segment
  | [] => none
  | b :: rest =>
    if isDigitByte b then some (digits (runValue (b :: rest)))
    else if isLetterByte b then some (letters (b :: rest))
    else if b = '~'.toUInt8 then some tilde
    else if b = '^'.toUInt8 then some caret
    else none

/-- The place of a segment in the order of kinds; the end of a version is at `endPlace`. -/
def place : Segment → Nat
  | tilde => 0
  | caret => 2
  | letters _ => 3
  | digits _ => 4

def endPlace : Nat := 1

/-- Letters compare byte by byte, digits by value, segments of two kinds by their places. -/
instance : Ord Segment where
  compare
    | letters a, letters b => compare a b
    | digits m, digits n => compare m n
    | s, t => compare s.place t.place

/-- Segment by segment; where one version ends, the place of the other's next segment decides. -/
def compareSequences : List Segment → List Segment → Ordering
  | [], [] => .eq
  | [], t :: _ => compare endPlace t.place
  | s :: _, [] => compare s.place endPlace
  | s :: ss, t :: ts => (compare s t).then (compareSequences ss ts)

/-- The segments of a version: its longest runs of digits and letters and its marks, in order. -/
def sequenceOf (version : List UInt8) : List Segment :=
  (version.splitBy joins).filterMap ofRun?

end Segment

open Segment

/-! ## Digits by value -/

theorem isDigitByte_iff {b : UInt8} : isDigitByte b ↔ 48 ≤ b.toNat ∧ b.toNat ≤ 57 := by
  simp only [isDigitByte, Bool.and_eq_true, decide_eq_true_eq, UInt8.le_iff_toNat_le]
  exact Iff.rfl

theorem runValue_cons (b : UInt8) (rest : List UInt8) :
    runValue (b :: rest) = (b.toNat - 48) * 10 ^ rest.length + runValue rest := rfl

theorem runValue_lt {run : List UInt8} (h : ∀ b ∈ run, isDigitByte b) :
    runValue run < 10 ^ run.length := by
  induction run with
  | nil => decide
  | cons b rest ih =>
    have hb := isDigitByte_iff.1 (h b List.mem_cons_self)
    have hrest := ih fun c hc => h c (List.mem_cons_of_mem b hc)
    calc
      runValue (b :: rest) < (b.toNat - 48 + 1) * 10 ^ rest.length := by
        rw [runValue_cons, Nat.add_mul, Nat.one_mul]
        exact Nat.add_lt_add_left hrest _
      _ ≤ 10 * 10 ^ rest.length := Nat.mul_le_mul_right _ (by omega)
      _ = 10 ^ (b :: rest).length := by rw [List.length_cons, Nat.pow_succ, Nat.mul_comm]

/-- A run of digits without the zeros in front of it. -/
def significant (run : List UInt8) : List UInt8 := run.dropWhile (· == '0'.toUInt8)

theorem isDigitByte_of_mem_significant {run : List UInt8} (h : ∀ b ∈ run, isDigitByte b) :
    ∀ b ∈ significant run, isDigitByte b :=
  fun b hb => h b ((List.dropWhile_sublist _).subset hb)

theorem head?_significant (run : List UInt8) :
    ∀ b ∈ (significant run).head?, b ≠ '0'.toUInt8 := by
  intro b hb
  have hhead := List.head?_dropWhile_not (· == '0'.toUInt8) run
  unfold significant at hb
  rw [hb] at hhead
  simpa using hhead

/-- Zeros in front do not count. -/
theorem runValue_significant (run : List UInt8) : runValue (significant run) = runValue run := by
  unfold significant
  induction run with
  | nil => rfl
  | cons b rest ih =>
    by_cases hb : b = '0'.toUInt8
    · have hzero : runValue (b :: rest) = runValue rest := by
        rw [runValue_cons, hb, show '0'.toUInt8.toNat - 48 = 0 from rfl, Nat.zero_mul, Nat.zero_add]
      rw [List.dropWhile_cons_of_pos (by simpa using hb), ih, hzero]
    · rw [List.dropWhile_cons_of_neg (by simpa using hb)]

/-- Of two runs that do not start with a zero, the longer one has the larger value. -/
theorem runValue_lt_of_length_lt {a b : List UInt8} (ha : ∀ x ∈ a, isDigitByte x)
    (hb : ∀ x ∈ b, isDigitByte x) (hzero : ∀ x ∈ b.head?, x ≠ '0'.toUInt8)
    (hlength : a.length < b.length) : runValue a < runValue b := by
  rcases b with _ | ⟨x, rest⟩
  · cases hlength
  · have hx := isDigitByte_iff.1 (hb x List.mem_cons_self)
    have hne : x.toNat ≠ 48 := fun heq => hzero x rfl (UInt8.toNat_inj.1 heq)
    calc
      runValue a < 10 ^ a.length := runValue_lt ha
      _ ≤ 10 ^ rest.length := Nat.pow_le_pow_right (by decide) (Nat.le_of_lt_succ hlength)
      _ ≤ (x.toNat - 48) * 10 ^ rest.length := Nat.le_mul_of_pos_left _ (by omega)
      _ ≤ runValue (x :: rest) := Nat.le_add_right _ _

/-- Of two runs of one length, the one with the larger first digit has the larger value. -/
theorem runValue_cons_lt {x y : UInt8} {a b : List UInt8} (ha : ∀ z ∈ a, isDigitByte z)
    (hx : isDigitByte x) (hlength : a.length = b.length) (hlt : x < y) :
    runValue (x :: a) < runValue (y :: b) := by
  have hzero := (isDigitByte_iff.1 hx).1
  have hlt := UInt8.lt_iff_toNat_lt.1 hlt
  calc
    runValue (x :: a) < (x.toNat - 48 + 1) * 10 ^ a.length := by
      rw [runValue_cons, Nat.add_mul, Nat.one_mul]
      exact Nat.add_lt_add_left (runValue_lt ha) _
    _ ≤ (y.toNat - 48) * 10 ^ b.length := by
      rw [hlength]
      exact Nat.mul_le_mul_right _ (by omega)
    _ ≤ runValue (y :: b) := Nat.le_add_right _ _

theorem compare_add_left (k m n : Nat) : compare (k + m) (k + n) = compare m n := by
  show compareOfLessAndEq _ _ = compareOfLessAndEq _ _
  simp only [compareOfLessAndEq, Nat.add_lt_add_iff_left, Nat.add_left_cancel_iff]

/-- Runs of one length compare by the first digit in which they differ. -/
theorem compare_runValue {a b : List UInt8} (ha : ∀ x ∈ a, isDigitByte x)
    (hb : ∀ x ∈ b, isDigitByte x) (hlength : a.length = b.length) :
    compare (runValue a) (runValue b) = compare a b := by
  induction a generalizing b with
  | nil =>
    obtain rfl := List.length_eq_zero_iff.1 hlength.symm
    rfl
  | cons x as ih =>
    rcases b with _ | ⟨y, bs⟩
    · cases hlength
    have htails : as.length = bs.length := Nat.succ.inj hlength
    obtain ⟨hx, has⟩ := List.forall_mem_cons.1 ha
    obtain ⟨hy, hbs⟩ := List.forall_mem_cons.1 hb
    rw [List.compare_cons_cons]
    rcases hcompare : compare x y with _ | _ | _
    · have hlt : x < y := compareOfLessAndEq_eq_lt.1 hcompare
      exact Nat.compare_eq_lt.2 (runValue_cons_lt has hx htails hlt)
    · obtain rfl := Std.LawfulEqOrd.eq_of_compare hcompare
      rw [Ordering.eq_then, ← ih has hbs htails, runValue_cons, runValue_cons, htails]
      exact compare_add_left _ _ _
    · have hback : compare y x = .lt := Std.OrientedCmp.lt_of_gt hcompare
      have hlt : y < x := compareOfLessAndEq_eq_lt.1 hback
      exact Nat.compare_eq_gt.2 (runValue_cons_lt hbs hy htails.symm hlt)

/-- By the number of significant digits first and then by the digits: that is by the value. -/
theorem compare_significant {a b : List UInt8} (ha : ∀ x ∈ a, isDigitByte x)
    (hb : ∀ x ∈ b, isDigitByte x) :
    (compare (significant a).length (significant b).length).then
        (compare (significant a) (significant b)) =
      compare (runValue a) (runValue b) := by
  have ha' := isDigitByte_of_mem_significant ha
  have hb' := isDigitByte_of_mem_significant hb
  rw [← runValue_significant a, ← runValue_significant b]
  rcases Nat.lt_trichotomy (significant a).length (significant b).length with hlt | heq | hlt
  · have hvalue := runValue_lt_of_length_lt ha' hb' (head?_significant b) hlt
    rw [Nat.compare_eq_lt.2 hlt, Nat.compare_eq_lt.2 hvalue]
    rfl
  · rw [Nat.compare_eq_eq.2 heq, Ordering.eq_then, compare_runValue ha' hb' heq]
  · have hvalue := runValue_lt_of_length_lt hb' ha' (head?_significant a) hlt
    rw [Nat.compare_eq_gt.2 hlt, Nat.compare_eq_gt.2 hvalue]
    rfl

/-! ## Segments one after the other -/

theorem sequenceOf_append {s t : List UInt8}
    (h : ∀ b ∈ s.getLast?, ∀ c ∈ t.head?, joins b c = false) :
    sequenceOf (s ++ t) = sequenceOf s ++ sequenceOf t := by
  unfold sequenceOf
  rw [List.splitBy_append h, List.filterMap_append]

theorem joins_eq_false {b : UInt8} (hdigit : isDigitByte b = false)
    (hletter : isLetterByte b = false) (c : UInt8) : joins b c = false := by
  unfold joins
  rw [hdigit, hletter]
  rfl

/-- A byte that is in no run. -/
theorem sequenceOf_cons {b : UInt8} (hdigit : isDigitByte b = false)
    (hletter : isLetterByte b = false) (s : List UInt8) :
    sequenceOf (b :: s) = (ofRun? [b]).toList ++ sequenceOf s := by
  have hone : sequenceOf [b] = (ofRun? [b]).toList := by
    show [[b]].filterMap ofRun? = _
    rcases hrun : ofRun? [b] <;> simp [hrun]
  rw [← hone, ← sequenceOf_append (s := [b])]
  · rfl
  · intro c hc d _
    cases hc
    exact joins_eq_false hdigit hletter d

end Provision.Evr
