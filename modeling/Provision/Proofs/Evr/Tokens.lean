import Provision.Evr

/-!
# Versions as sequences of tokens

A version is a sequence of tokens: the marks `~` and `^`, runs of letters, runs of digits without
the zeros in front of them, and the end. In this order of kinds, `~`, the end, `^`, letters, digits,
two versions compare as their tokens do (`compareSegments_eq_compare_tokens`): each step of the
comparison answers on the first tokens or drops both (`compareStep_tokens`).
-/

namespace Provision.Evr

/-! ## Characters of segments -/

theorem isSegmentChar_of_skipSeparators {s rest : List Char} {c : Char}
    (h : skipSeparators s = c :: rest) : isSegmentChar c := by
  have hhead := List.head?_dropWhile_not (fun c => !isSegmentChar c) s
  unfold skipSeparators at h
  rw [h] at hhead
  simpa using hhead

theorem not_isAlpha_of_isDigit {c : Char} (h : c.isDigit) : c.isAlpha = false := by
  have halpha : c.isAlpha = ((decide ('A'.val ≤ c.val ∧ c.val ≤ 'Z'.val)) ||
      (decide ('a'.val ≤ c.val) && decide (c.val ≤ 'z'.val))) := rfl
  obtain ⟨-, hnine⟩ := Char.isDigit_iff_toNat.1 h
  have hnine : c.val.toNat ≤ 57 := hnine
  have hupper : ¬ 'A'.val ≤ c.val := fun hle => absurd (Nat.le_trans hle hnine) (by decide)
  have hlower : ¬ 'a'.val ≤ c.val := fun hle => absurd (Nat.le_trans hle hnine) (by decide)
  rw [halpha, decide_eq_false fun hboth => hupper hboth.1, decide_eq_false hlower]
  rfl

/-- A character that continues a segment of one kind ends one of the other kind. -/
theorem continues_eq_false (c : Char) :
    continues (!c.isDigit) c = false := by
  cases hdigit : c.isDigit with
  | true => exact not_isAlpha_of_isDigit hdigit
  | false =>
    show c.isDigit = false
    exact hdigit

theorem continues_eq_false_of_ne {x y : Char} (h : x.isDigit ≠ y.isDigit) :
    continues x.isDigit y = false := by
  rw [Bool.eq_not.2 h]
  exact continues_eq_false y

theorem continues_self {c : Char} (h : c.isAlphanum) : continues c.isDigit c := by
  cases hdigit : c.isDigit with
  | true =>
    show c.isDigit
    exact hdigit
  | false =>
    show c.isAlpha
    unfold Char.isAlphanum at h
    rw [hdigit, Bool.or_false] at h
    exact h

/-! ## Tokens -/

/-- A token by its kind, the length of its run if that counts, and its run. -/
structure Token where
  kind : Nat
  size : Nat
  run : List Char

namespace Token

instance : Ord Token where
  compare :=
    compareLex (compareOn Token.kind) (compareLex (compareOn Token.size) (compareOn Token.run))

instance : Std.TransOrd Token :=
  inferInstanceAs (Std.TransCmp
    (compareLex (compareOn Token.kind) (compareLex (compareOn Token.size) (compareOn Token.run))))

def tilde : Token := ⟨0, 0, []⟩

def finish : Token := ⟨1, 0, []⟩

def caret : Token := ⟨2, 0, []⟩

def ofRun (digits : Bool) (s : List Char) : Token :=
  if digits then ⟨4, (s.dropWhile (· == '0')).length, s.dropWhile (· == '0')⟩ else ⟨3, 0, s⟩

end Token

def tokens (s : List Char) : List Token :=
  match h : skipSeparators s with
  | [] => [.finish]
  | c :: rest =>
    have hrest : rest.length < s.length := by
      have hle := length_skipSeparators_le s
      rw [h] at hle
      exact hle
    have hdrop := length_dropWhile_le (continues c.isDigit) rest
    if c = '~' then .tilde :: tokens rest
    else if c = '^' then .caret :: tokens rest
    else
      .ofRun c.isDigit ((c :: rest).takeWhile (continues c.isDigit)) ::
        tokens (rest.dropWhile (continues c.isDigit))
termination_by s.length

theorem tokens_eq (s : List Char) :
    tokens s =
      match skipSeparators s with
      | [] => [.finish]
      | c :: rest =>
        if c = '~' then .tilde :: tokens rest
        else if c = '^' then .caret :: tokens rest
        else
          .ofRun c.isDigit ((c :: rest).takeWhile (continues c.isDigit)) ::
            tokens (rest.dropWhile (continues c.isDigit)) := by
  rw [tokens]
  split <;> rename_i h <;> simp only [h]

/-- What the first token of a version is, and what it leaves, by the head of the version. -/
inductive Starts : List Char → Token → List Token → Prop
  | finish : Starts [] .finish []
  | tilde (rest : List Char) : Starts ('~' :: rest) .tilde (tokens rest)
  | caret (rest : List Char) : Starts ('^' :: rest) .caret (tokens rest)
  | run {c : Char} (hc : c.isAlphanum) (htilde : c ≠ '~') (hcaret : c ≠ '^') (rest : List Char) :
      Starts (c :: rest) (.ofRun c.isDigit ((c :: rest).takeWhile (continues c.isDigit)))
        (tokens (rest.dropWhile (continues c.isDigit)))

theorem tokens_starts (s : List Char) :
    ∃ t ts, tokens s = t :: ts ∧ Starts (skipSeparators s) t ts := by
  rw [tokens_eq]
  rcases hs : skipSeparators s with _ | ⟨c, rest⟩
  · exact ⟨_, _, rfl, .finish⟩
  · have hc := isSegmentChar_of_skipSeparators hs
    unfold isSegmentChar at hc
    by_cases htilde : c = '~'
    · subst htilde
      exact ⟨_, _, rfl, .tilde rest⟩
    · by_cases hcaret : c = '^'
      · subst hcaret
        exact ⟨_, _, rfl, .caret rest⟩
      · simp only [htilde, hcaret, ↓reduceIte]
        refine ⟨_, _, rfl, .run ?_ htilde hcaret rest⟩
        simpa [htilde, hcaret] using hc

/-! ## Comparing tokens -/

theorem compareRuns_eq_compare {digits : Bool} {a b : List Char} (hb : b.isEmpty = false) :
    compareRuns digits a b = compare (Token.ofRun digits a) (Token.ofRun digits b) := by
  unfold compareRuns
  rw [hb]
  cases digits <;> rfl

theorem lt_kind_ofRun {n : Nat} (hn : n ≤ 2) (digits : Bool) (s : List Char) :
    n < (Token.ofRun digits s).kind := by
  refine Nat.lt_of_le_of_lt hn ?_
  cases digits
  · show 2 < 3
    decide
  · show 2 < 4
    decide

theorem compare_of_kind_lt {t u : Token} (h : t.kind < u.kind) : compare t u = .lt := by
  show (compare t.kind u.kind).then _ = .lt
  rw [Nat.compare_eq_lt.2 h]
  rfl

theorem compare_of_kind_gt {t u : Token} (h : u.kind < t.kind) : compare t u = .gt :=
  Std.OrientedCmp.gt_of_lt (compare_of_kind_lt h)

/-- The step that compares two segments, apart from the marks. -/
def runStep (x : Char) (a : List Char) (y : Char) (b : List Char) :
    Ordering ⊕ (List Char × List Char) :=
  match compareRuns x.isDigit ((x :: a).takeWhile (continues x.isDigit))
      ((y :: b).takeWhile (continues x.isDigit)) with
  | .eq => .inr (a.dropWhile (continues x.isDigit), (y :: b).dropWhile (continues x.isDigit))
  | answer => .inl answer

theorem runStep_tokens {x y : Char} (hy : y.isAlphanum) (a b : List Char) :
    compare
        (Token.ofRun x.isDigit ((x :: a).takeWhile (continues x.isDigit)) ::
          tokens (a.dropWhile (continues x.isDigit)))
        (Token.ofRun y.isDigit ((y :: b).takeWhile (continues y.isDigit)) ::
          tokens (b.dropWhile (continues y.isDigit))) =
      match runStep x a y b with
      | .inl answer => answer
      | .inr (a', b') => compare (tokens a') (tokens b') := by
  rw [List.compare_cons_cons]
  unfold runStep
  by_cases hkind : x.isDigit = y.isDigit
  · have hcy := continues_self hy
    rw [hkind, List.dropWhile_cons_of_pos hcy, compareRuns_eq_compare]
    · rcases compare (Token.ofRun y.isDigit ((x :: a).takeWhile (continues y.isDigit)))
        (Token.ofRun y.isDigit ((y :: b).takeWhile (continues y.isDigit))) <;> rfl
    · rw [List.takeWhile_cons_of_pos hcy]
      rfl
  · have hny := Bool.eq_false_iff.1 (continues_eq_false_of_ne hkind)
    rw [List.takeWhile_cons_of_neg hny, Bool.eq_not.2 hkind]
    cases y.isDigit <;> rfl

theorem compareStep_eq_runStep {a b s t : List Char} {x y : Char}
    (ha : skipSeparators a = x :: s) (hb : skipSeparators b = y :: t)
    (hx : x ≠ '~' ∧ x ≠ '^') (hy : y ≠ '~' ∧ y ≠ '^') :
    compareStep a b = runStep x s y t := by
  unfold compareStep runStep
  rw [ha, hb]
  split <;> grind

/-- A step answers on the first tokens, or drops both of them where they are equal. -/
theorem compareStep_tokens (a b : List Char) :
    compare (tokens a) (tokens b) =
      match compareStep a b with
      | .inl answer => answer
      | .inr (a', b') => compare (tokens a') (tokens b') := by
  obtain ⟨t, ts, hts, ha⟩ := tokens_starts a
  obtain ⟨u, us, hus, hb⟩ := tokens_starts b
  rw [hts, hus]
  generalize hsa : skipSeparators a = a' at ha
  generalize hsb : skipSeparators b = b' at hb
  cases ha <;> cases hb
  case run.run hc htilde hcaret _ _ hc' htilde' hcaret' _ =>
    rw [compareStep_eq_runStep hsa hsb ⟨htilde, hcaret⟩ ⟨htilde', hcaret'⟩]
    exact runStep_tokens hc' _ _
  -- With a mark or the end on one side, the kinds answer, or both tokens are the same mark.
  all_goals
    simp_all [compareStep, compare_of_kind_lt, compare_of_kind_gt, lt_kind_ofRun, Token.tilde,
      Token.finish, Token.caret]

theorem compareSegments_eq (a b : List Char) :
    compareSegments a b =
      match compareStep a b with
      | .inl answer => answer
      | .inr (a', b') => compareSegments a' b' := by
  rw [compareSegments]
  split
  · rename_i hstep
    simp only [hstep]
  · rename_i hstep
    simp only [hstep]

/-- By induction along the comparison. -/
theorem compareSegments_eq_compare_tokens (a b : List Char) :
    compareSegments a b = compare (tokens a) (tokens b) := by
  rw [compareSegments_eq, compareStep_tokens]
  rcases hstep : compareStep a b with answer | ⟨a', b'⟩
  · rfl
  · have hlt := compareStep_lt hstep
    exact compareSegments_eq_compare_tokens a' b'
termination_by a.length + b.length

theorem compareTexts_eq : compareTexts = compareOn fun s => tokens s.toList := by
  funext a b
  exact compareSegments_eq_compare_tokens a.toList b.toList

instance : Std.TransCmp compareTexts := by
  rw [compareTexts_eq]
  infer_instance

end Provision.Evr
