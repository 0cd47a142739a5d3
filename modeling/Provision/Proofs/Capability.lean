import Provision.Capability
import Provision.Proofs.Constraint.Text

/-!
# Capabilities and their texts

The name of a requirement ends at a blank or an operator. In writing a blank follows it, so the name
is cut off where it was before, and what is left is read as the constraint that was written
(`Requirement.parse_text_eq`). A provide is cut at its first equals sign, which its name is without
(`Provide.parse_text_of_some`). What was odd about a text, such as a doubled operator or an empty
part, is in a version by then or no bound at all, and is written back as that.

So constraints, requirements and provides are read again from their written forms exactly when all
versions in them are (`texts_read_back`).
-/

namespace Provision

/-! ## Requirements -/

namespace Requirement

/-- What holds of every requirement that was read. -/
structure IsRead (r : Requirement) : Prop where
  name_ne : r.name.toList ≠ []
  name_end : ∀ c ∈ r.name.toList, endsName c = false
  constraint : r.constraint.IsRead

theorem isRead_of_parse {s : String} {r : Requirement} (h : parse s = .ok r) : r.IsRead := by
  unfold parse at h
  dsimp only at h
  split at h
  · cases h
  · rename_i hne
    obtain ⟨constraint, hconstraint, heq⟩ := bind_eq_ok.1 h
    cases heq
    refine ⟨by simpa using hne, fun c hc => ?_, Constraint.isRead_of_ofChars hconstraint⟩
    rw [String.toList_ofList] at hc
    simpa using List.mem_takeWhile_imp hc

/-- Names have no blanks. -/
theorem isBlank_eq_false_of_endsName {c : Char} (h : endsName c = false) :
    Text.isBlank c = false := by
  simp only [endsName, Bool.or_eq_false_iff] at h
  exact h.1.1.1.1

theorem parse_append {name rest : List Char} (hne : name ≠ [])
    (hname : ∀ c ∈ name, endsName c = false) (hrest : ∀ c ∈ rest.head?, endsName c)
    (hlast : ∀ c ∈ (name ++ rest).getLast?, Text.isBlank c = false) :
    parse (String.ofList (name ++ rest)) =
      (do return ⟨String.ofList name, ← Constraint.ofChars rest⟩) := by
  have htrim : Text.trim (name ++ rest) = name ++ rest := by
    refine Text.trim_eq_self_iff.2 ⟨fun c hc => ?_, hlast⟩
    rw [List.head?_append_of_ne_nil _ hne] at hc
    exact isBlank_eq_false_of_endsName (hname c (List.mem_of_mem_head? hc))
  have hpos : ∀ c ∈ name, (!endsName c) = true := fun c hc => by simpa using hname c hc
  have htake : (rest.takeWhile fun c => !endsName c) = [] := by
    rcases rest with _ | ⟨c, rest⟩
    · rfl
    · rw [List.takeWhile_cons_of_neg]
      simpa using hrest c rfl
  have hdrop : (rest.dropWhile fun c => !endsName c) = rest := by
    rcases rest with _ | ⟨c, rest⟩
    · rfl
    · rw [List.dropWhile_cons_of_neg]
      simpa using hrest c rfl
  unfold parse
  dsimp only
  rw [String.toList_ofList, htrim, List.takeWhile_append_of_pos hpos, htake,
    List.dropWhile_append_of_pos hpos, hdrop, List.append_nil]
  split
  · exact absurd rfl hne
  · rfl

theorem toList_text {r : Requirement} (h : r.constraint ≠ .any) :
    r.text.toList = r.name.toList ++ ' ' :: r.constraint.text.toList := by
  unfold text
  split
  · exact absurd ‹_› h
  · simp

theorem parse_text_eq {r : Requirement} (h : r.IsRead) :
    parse r.text = (do return ⟨r.name, ← Constraint.ofChars r.constraint.text.toList⟩) := by
  by_cases hany : r.constraint = .any
  · have htext : r.text = String.ofList (r.name.toList ++ []) := by
      unfold text
      rw [hany]
      simp
    rw [htext, parse_append h.name_ne h.name_end (by simp), hany, String.ofList_toList]
    · rfl
    · intro c hc
      rw [List.append_nil] at hc
      exact isBlank_eq_false_of_endsName (h.name_end c (List.mem_of_getLast? hc))
  · have htext : r.text = String.ofList (r.name.toList ++ ' ' :: r.constraint.text.toList) := by
      rw [← toList_text hany, String.ofList_toList]
    rw [htext, parse_append h.name_ne h.name_end (by simp; decide), String.ofList_toList,
      Constraint.ofChars_cons (by decide)]
    intro c hc
    rw [List.getLast?_append_cons, List.getLast?_cons_of_ne_nil r.constraint.text_ne_nil] at hc
    exact h.constraint.last_text c hc

theorem reads_text_iff {r : Requirement} (h : r.IsRead) :
    parse r.text = .ok r ↔ ∀ b ∈ r.constraint.bounds, b.2.Plain := by
  rw [parse_text_eq h, ← Constraint.ofChars_text_iff h.constraint, bind_eq_ok]
  rcases r with ⟨name, constraint⟩
  constructor
  · rintro ⟨constraint, hconstraint, heq⟩
    cases heq
    exact hconstraint
  · intro hconstraint
    exact ⟨_, hconstraint, rfl⟩

end Requirement

/-! ## Provides -/

namespace Provide

/-- What holds of every provide that was read. -/
structure IsRead (p : Provide) : Prop where
  name_trim : Text.trim p.name.toList = p.name.toList
  name_end : '=' ∉ p.name.toList
  versioned : ∀ version ∈ p.version, p.name.toList ≠ [] ∧ version.IsRead

theorem isRead_of_parse {s : String} {p : Provide} (h : parse s = .ok p) : p.IsRead := by
  unfold parse at h
  split at h
  · rename_i hcut
    cases h
    refine ⟨?_, ?_, by simp⟩
    · rw [String.toList_ofList, Text.trim_trim]
    · rw [String.toList_ofList]
      exact fun hmem => Text.cutFirst_eq_none_iff.1 hcut ((Text.trim_sublist _).subset hmem)
  · rename_i name version hcut
    obtain ⟨-, hequals⟩ := Text.cutFirst_eq_some_iff.1 hcut
    split at h
    · cases h
    · rename_i hne
      obtain ⟨evr, hevr, heq⟩ := bind_eq_ok.1 h
      cases heq
      refine ⟨?_, ?_, ?_⟩
      · rw [String.toList_ofList, Text.trim_trim]
      · rw [String.toList_ofList]
        exact fun hmem => hequals ((Text.trim_sublist _).subset hmem)
      · rintro _ ⟨⟩
        exact ⟨by simpa using hne, Evr.isRead_of_ofChars hevr⟩

theorem parse_text_of_none {p : Provide} (h : p.IsRead) (hversion : p.version = none) :
    parse p.text = .ok p := by
  rcases p with ⟨name, version⟩
  cases hversion
  show parse name = _
  unfold parse
  rw [Text.cutFirst_eq_none_iff.2 h.name_end]
  dsimp only
  rw [h.name_trim, String.ofList_toList]

theorem parse_text_of_some {p : Provide} (h : p.IsRead) {version : Evr}
    (hversion : p.version = some version) :
    parse p.text = (do return ⟨p.name, some (← Evr.ofChars version.text.toList)⟩) := by
  have htext : p.text.toList = (p.name.toList ++ [' ']) ++ '=' :: ' ' :: version.text.toList := by
    unfold text
    rw [hversion]
    simp
  have hequals : '=' ∉ p.name.toList ++ [' '] := by
    rw [List.mem_append, not_or]
    exact ⟨h.name_end, by decide⟩
  unfold parse
  rw [htext, Text.cutFirst_append hequals]
  dsimp only
  rw [Text.trim_concat (by decide), h.name_trim, Evr.ofChars_cons (by decide)]
  split
  · exact absurd ‹_› (h.versioned version hversion).1
  · rw [String.ofList_toList]

theorem reads_text_iff {p : Provide} (h : p.IsRead) :
    parse p.text = .ok p ↔ ∀ version ∈ p.version, version.Plain := by
  rcases p with ⟨name, _ | version⟩
  · exact iff_of_true (parse_text_of_none h rfl) (by simp)
  · obtain ⟨-, hread⟩ := h.versioned version rfl
    have hplain : (∀ v ∈ some version, v.Plain) ↔ version.Plain := by simp
    rw [parse_text_of_some h rfl, hplain, ← Evr.ofChars_text_iff_plain hread, bind_eq_ok]
    constructor
    · rintro ⟨evr, hevr, heq⟩
      cases heq
      exact hevr
    · intro hevr
      exact ⟨_, hevr, rfl⟩

end Provide

/-! ## All texts -/

/--
A constraint, a requirement or a provide that was read is read again from its written form exactly
when each version in it has an epoch to write or needs none, having no colon and no blank in front.
-/
theorem texts_read_back :
    (∀ (s : String) (c : Constraint), Constraint.parse s = .ok c →
      (Constraint.parse c.text = .ok c ↔ ∀ b ∈ c.bounds, b.2.Plain)) ∧
    (∀ (s : String) (r : Requirement), Requirement.parse s = .ok r →
      (Requirement.parse r.text = .ok r ↔ ∀ b ∈ r.constraint.bounds, b.2.Plain)) ∧
    ∀ (s : String) (p : Provide), Provide.parse s = .ok p →
      (Provide.parse p.text = .ok p ↔ ∀ version ∈ p.version, version.Plain) :=
  ⟨fun _ _ h => Constraint.ofChars_text_iff (Constraint.isRead_of_ofChars h),
    fun _ _ h => Requirement.reads_text_iff (Requirement.isRead_of_parse h),
    fun _ _ h => Provide.reads_text_iff (Provide.isRead_of_parse h)⟩

/-- The second equals sign of `>==` is in the version, and empty parts and stars are the same. -/
theorem texts_read_back_odd :
    Requirement.parse "a>==1,, 7: 1:2-3" = .ok ⟨"a", .both (.bound .newerOrEqual ⟨0, "=1", none⟩)
        (.both .any (.bound .equal ⟨7, " 1:2", some "3"⟩))⟩ ∧
      Requirement.parse "a >= =1, *, = 7: 1:2-3" =
        .ok ⟨"a", .both (.bound .newerOrEqual ⟨0, "=1", none⟩)
          (.both .any (.bound .equal ⟨7, " 1:2", some "3"⟩))⟩ := by
  have hread : Requirement.parse "a>==1,, 7: 1:2-3" =
      .ok ⟨"a", .both (.bound .newerOrEqual ⟨0, "=1", none⟩)
        (.both .any (.bound .equal ⟨7, " 1:2", some "3"⟩))⟩ := by cbv
  have hagain := (texts_read_back.2.1 _ _ hread).2 (by
    simp [Constraint.bounds, Evr.Plain, Text.isBlank, Text.blankRanges])
  exact ⟨hread, hagain⟩

end Provision
