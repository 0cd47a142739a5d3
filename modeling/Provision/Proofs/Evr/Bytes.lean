import Provision.Proofs.Evr.Sequence
import Provision.Proofs.Evr.Tokens

/-!
# The comparison of versions, byte by byte

Versions compare as the sequences of segments that their bytes make up (`compareTexts_segmentwise`).
Only ASCII characters are in segments. Each of these is one byte in UTF-8, and what another
character is written as are bytes that only separate, as that character does (`Spells`). So the
tokens of a text are the segments of its bytes one by one (`Spells.exists_tokens`), and a token
compares with others as the segment that it stands for (`Stands.compare_eq`).
-/

namespace Provision.Evr

open Segment

/-! ## Bytes as characters -/

theorem ofUInt8_inj {b c : UInt8} (h : Char.ofUInt8 b = Char.ofUInt8 c) : b = c := by
  have hnat : (Char.ofUInt8 b).toNat = (Char.ofUInt8 c).toNat := congrArg Char.toNat h
  exact UInt8.toNat_inj.1 hnat

theorem isDigitByte_eq (b : UInt8) : isDigitByte b = (Char.ofUInt8 b).isDigit := by
  rw [Bool.eq_iff_iff, Char.isDigit_iff_toNat]
  simp only [isDigitByte, Bool.and_eq_true, decide_eq_true_eq, UInt8.le_iff_toNat_le]
  exact Iff.rfl

theorem isLetterByte_eq (b : UInt8) : isLetterByte b = (Char.ofUInt8 b).isAlpha := by
  rw [Bool.eq_iff_iff]
  simp only [isLetterByte, Char.isAlpha, Char.isUpper, Char.isLower, Bool.or_eq_true,
    Bool.and_eq_true, decide_eq_true_eq, UInt8.le_iff_toNat_le, UInt32.le_iff_toNat_le]
  exact Iff.rfl

theorem continues_ofUInt8 (digits : Bool) (b : UInt8) :
    continues digits (Char.ofUInt8 b) = if digits then isDigitByte b else isLetterByte b := by
  rw [isDigitByte_eq, isLetterByte_eq]
  rfl

/-- What a byte is that no segment has. -/
theorem of_not_isSegmentChar {b : UInt8} (h : isSegmentChar (Char.ofUInt8 b) = false) :
    isDigitByte b = false ∧ isLetterByte b = false ∧ ofRun? [b] = none := by
  simp only [isSegmentChar, Char.isAlphanum, ← isDigitByte_eq, ← isLetterByte_eq,
    Bool.or_eq_false_iff, beq_eq_false_iff_ne] at h
  obtain ⟨⟨⟨hletter, hdigit⟩, htilde⟩, hcaret⟩ := h
  refine ⟨hdigit, hletter, ?_⟩
  have ht : b ≠ '~'.toUInt8 := fun heq => htilde (by rw [heq]; rfl)
  have hc : b ≠ '^'.toUInt8 := fun heq => hcaret (by rw [heq]; rfl)
  simp [ofRun?, hdigit, hletter, ht, hc]

theorem continues_eq_false_of_not_isSegmentChar {c : Char} (h : isSegmentChar c = false)
    (digits : Bool) : continues digits c = false := by
  simp only [isSegmentChar, Char.isAlphanum, Bool.or_eq_false_iff] at h
  cases digits
  · exact h.1.1.1
  · exact h.1.1.2

theorem sequenceOf_separator {b : UInt8} (h : isSegmentChar (Char.ofUInt8 b) = false)
    (s : List UInt8) : sequenceOf (b :: s) = sequenceOf s := by
  obtain ⟨hdigit, hletter, hnone⟩ := of_not_isSegmentChar h
  rw [sequenceOf_cons hdigit hletter, hnone]
  rfl

theorem sequenceOf_separators {piece : List UInt8}
    (h : ∀ b ∈ piece, isSegmentChar (Char.ofUInt8 b) = false) (s : List UInt8) :
    sequenceOf (piece ++ s) = sequenceOf s := by
  induction piece with
  | nil => rfl
  | cons b rest ih =>
    rw [List.cons_append, sequenceOf_separator (h b List.mem_cons_self),
      ih fun c hc => h c (List.mem_cons_of_mem b hc)]

/-- A run in front of what does not continue it. -/
theorem sequenceOf_run {digits : Bool} {run s : List UInt8} (hne : run ≠ [])
    (hrun : ∀ b ∈ run, continues digits (Char.ofUInt8 b))
    (hs : ∀ b ∈ s.head?, continues digits (Char.ofUInt8 b) = false) :
    sequenceOf (run ++ s) =
      (if digits then .digits (runValue run) else .letters run) :: sequenceOf s := by
  have hkind : ∀ b ∈ run, isDigitByte b = digits ∧ isLetterByte b = !digits := by
    intro b hb
    have hcontinues := hrun b hb
    have hother := continues_eq_false (Char.ofUInt8 b)
    rw [← isDigitByte_eq] at hother
    cases digits <;> simp_all [continues_ofUInt8]
  have hjoins : ∀ b ∈ run, ∀ c, joins b c = continues digits (Char.ofUInt8 c) := by
    intro b hb c
    obtain ⟨hdigit, hletter⟩ := hkind b hb
    rw [continues_ofUInt8, joins, hdigit, hletter]
    cases digits <;> simp
  have hchain : run.IsChain fun b c => joins b c := by
    refine List.Pairwise.isChain (List.pairwise_of_forall_mem_list fun b hb c hc => ?_)
    rw [hjoins b hb]
    exact hrun c hc
  have hone : sequenceOf run = [if digits then .digits (runValue run) else .letters run] := by
    unfold sequenceOf
    rw [List.splitBy_of_isChain hne hchain]
    rcases run with _ | ⟨b, rest⟩
    · exact absurd rfl hne
    · obtain ⟨hdigit, hletter⟩ := hkind b List.mem_cons_self
      cases digits <;> simp [ofRun?, hdigit, hletter]
  rw [sequenceOf_append, hone]
  · rfl
  · intro b hb c hc
    rw [hjoins b (List.mem_of_getLast? hb)]
    exact hs c hc

/-! ## Texts as bytes -/

/--
The bytes stand for the characters: each byte for the character of its number, or several bytes
that only separate for a character that only separates.
-/
inductive Spells : List Char → List UInt8 → Prop
  | nil : Spells [] []
  | byte (b : UInt8) {s : List Char} {bs : List UInt8} (h : Spells s bs) :
      Spells (Char.ofUInt8 b :: s) (b :: bs)
  | gap {c : Char} {piece : List UInt8} {s : List Char} {bs : List UInt8}
      (hc : isSegmentChar c = false) (hne : piece ≠ [])
      (hpiece : ∀ b ∈ piece, isSegmentChar (Char.ofUInt8 b) = false) (h : Spells s bs) :
      Spells (c :: s) (piece ++ bs)

namespace Spells

variable {s : List Char} {bs : List UInt8}

/-- What spells a character of a segment is one byte. -/
theorem exists_cons {b : UInt8} (hb : isSegmentChar (Char.ofUInt8 b))
    (h : Spells (Char.ofUInt8 b :: s) bs) : ∃ rest, bs = b :: rest ∧ Spells s rest := by
  generalize hc : Char.ofUInt8 b = c at h hb
  cases h with
  | byte d h =>
    obtain rfl := ofUInt8_inj hc
    exact ⟨_, rfl, h⟩
  | gap hgap => rw [hgap] at hb; cases hb

theorem skip (h : Spells s bs) :
    ∃ rest, Spells (skipSeparators s) rest ∧ sequenceOf bs = sequenceOf rest := by
  induction h with
  | nil => exact ⟨[], .nil, rfl⟩
  | @byte b s bs h ih =>
    cases hb : isSegmentChar (Char.ofUInt8 b) with
    | true =>
      refine ⟨b :: bs, ?_, rfl⟩
      rw [skipSeparators, List.dropWhile_cons_of_neg (by simp [hb])]
      exact .byte b h
    | false =>
      obtain ⟨rest, hrest, heq⟩ := ih
      refine ⟨rest, ?_, by rw [sequenceOf_separator hb, heq]⟩
      rwa [skipSeparators, List.dropWhile_cons_of_pos (by simp [hb])]
  | @gap c piece s bs hc hne hpiece h ih =>
    obtain ⟨rest, hrest, heq⟩ := ih
    refine ⟨rest, ?_, by rw [sequenceOf_separators hpiece, heq]⟩
    rwa [skipSeparators, List.dropWhile_cons_of_pos (by simp [hc])]

/-- The run at the front and what follows it. -/
theorem span (h : Spells s bs) (digits : Bool) :
    ∃ run rest, bs = run ++ rest ∧ s.takeWhile (continues digits) = run.map Char.ofUInt8 ∧
      Spells (s.dropWhile (continues digits)) rest ∧
      ∀ b ∈ rest.head?, continues digits (Char.ofUInt8 b) = false := by
  induction h with
  | nil => exact ⟨[], [], rfl, rfl, .nil, by simp⟩
  | @byte b s bs h ih =>
    cases hb : continues digits (Char.ofUInt8 b) with
    | true =>
      obtain ⟨run, rest, rfl, htake, hdrop, hhead⟩ := ih
      refine ⟨b :: run, rest, rfl, ?_, ?_, hhead⟩
      · rw [List.takeWhile_cons_of_pos hb, htake, List.map_cons]
      · rwa [List.dropWhile_cons_of_pos hb]
    | false =>
      have hneg : ¬ continues digits (Char.ofUInt8 b) = true := by simp [hb]
      refine ⟨[], b :: bs, rfl, ?_, ?_, ?_⟩
      · rw [List.takeWhile_cons_of_neg hneg, List.map_nil]
      · rw [List.dropWhile_cons_of_neg hneg]
        exact .byte b h
      · simpa using hb
  | @gap c piece s bs hc hne hpiece h ih =>
    have hneg : ¬ continues digits c = true := by
      simp [continues_eq_false_of_not_isSegmentChar hc]
    refine ⟨[], piece ++ bs, rfl, ?_, ?_, ?_⟩
    · rw [List.takeWhile_cons_of_neg hneg, List.map_nil]
    · rw [List.dropWhile_cons_of_neg hneg]
      exact .gap hc hne hpiece h
    · obtain ⟨b, rest, rfl⟩ := List.exists_cons_of_ne_nil hne
      simpa using continues_eq_false_of_not_isSegmentChar (hpiece b List.mem_cons_self) digits

end Spells

/-! ## Runs -/

theorem compare_ofUInt8 (b c : UInt8) :
    compare (Char.ofUInt8 b) (Char.ofUInt8 c) = compare b c := by
  show compareOfLessAndEq _ _ = compareOfLessAndEq _ _
  unfold compareOfLessAndEq
  have hlt : Char.ofUInt8 b < Char.ofUInt8 c ↔ b < c := Iff.rfl
  have heq : Char.ofUInt8 b = Char.ofUInt8 c ↔ b = c := ⟨ofUInt8_inj, congrArg _⟩
  simp only [hlt, heq]

theorem compare_map_ofUInt8 (a b : List UInt8) :
    compare (a.map Char.ofUInt8) (b.map Char.ofUInt8) = compare a b := by
  induction a generalizing b with
  | nil => cases b <;> rfl
  | cons x as ih =>
    cases b with
    | nil => rfl
    | cons y bs =>
      rw [List.map_cons, List.map_cons, List.compare_cons_cons, List.compare_cons_cons, ih,
        compare_ofUInt8]

theorem dropWhile_map_ofUInt8 (run : List UInt8) :
    (run.map Char.ofUInt8).dropWhile (· == '0') = (significant run).map Char.ofUInt8 := by
  have hzero : (fun c : Char => c == '0') ∘ Char.ofUInt8 = fun b => b == '0'.toUInt8 := by
    funext b
    rw [Function.comp_apply, Bool.eq_iff_iff, beq_iff_eq, beq_iff_eq]
    exact ⟨fun h => ofUInt8_inj h, fun h => by rw [h]; rfl⟩
  rw [List.dropWhile_map, hzero, significant]

theorem compare_ofRun_digits {a b : List UInt8} (ha : ∀ x ∈ a, isDigitByte x)
    (hb : ∀ x ∈ b, isDigitByte x) :
    compare (Token.ofRun true (a.map Char.ofUInt8)) (Token.ofRun true (b.map Char.ofUInt8)) =
      compare (runValue a) (runValue b) := by
  rw [← compare_significant ha hb, ← compare_map_ofUInt8]
  simp only [← List.length_map Char.ofUInt8, ← dropWhile_map_ofUInt8]
  rfl

/-! ## Tokens and segments -/

/-- The token is the segment, as the comparison of versions sees it. -/
inductive Stands : Token → Segment → Prop
  | tilde : Stands .tilde .tilde
  | caret : Stands .caret .caret
  | letters (run : List UInt8) : Stands (.ofRun false (run.map Char.ofUInt8)) (.letters run)
  | digits {run : List UInt8} (h : ∀ b ∈ run, isDigitByte b) :
      Stands (.ofRun true (run.map Char.ofUInt8)) (.digits (runValue run))

/-- Of two kinds, the kinds decide; of one kind, the runs. -/
theorem Stands.compare_eq {t u : Token} {s r : Segment} (ht : Stands t s) (hu : Stands u r) :
    compare t u = compare s r := by
  cases ht <;> cases hu
  case letters.letters a b => exact compare_map_ofUInt8 a b
  case digits.digits ha b hb => exact compare_ofRun_digits ha hb
  all_goals rfl

/-- The end of a version is a token of its own. -/
theorem compare_append_finish {ts us : List Token} {ss rs : List Segment}
    (hts : List.Forall₂ Stands ts ss) (hus : List.Forall₂ Stands us rs) :
    compare (ts ++ [.finish]) (us ++ [.finish]) = compareSequences ss rs := by
  induction hts generalizing us rs with
  | nil =>
    cases hus with
    | nil => rfl
    | cons hu _ => cases hu <;> rfl
  | cons ht hts ih =>
    cases hus with
    | nil => cases ht <;> rfl
    | cons hu hus =>
      rw [List.cons_append, List.cons_append, List.compare_cons_cons, ht.compare_eq hu, ih hus]
      rfl

/-- By induction on the length of the text, segment after segment. -/
theorem Spells.exists_tokens {s : List Char} {bs : List UInt8} (h : Spells s bs) :
    ∃ ts, tokens s = ts ++ [.finish] ∧ List.Forall₂ Stands ts (sequenceOf bs) := by
  induction hn : s.length using Nat.strongRecOn generalizing s bs with
  | ind n ih =>
    obtain ⟨rest, hrest, hsequence⟩ := h.skip
    obtain ⟨t, ts, htokens, hstarts⟩ := tokens_starts s
    have hle := length_skipSeparators_le s
    rw [htokens, hsequence]
    generalize skipSeparators s = front at hstarts hrest hle
    cases hstarts with
    | finish =>
      cases hrest
      exact ⟨[], rfl, .nil⟩
    | tilde tail =>
      obtain ⟨bs, rfl, htail⟩ := hrest.exists_cons (b := '~'.toUInt8) rfl
      obtain ⟨ts, htail, hstands⟩ := ih _ (by simp at hle; omega) htail rfl
      refine ⟨.tilde :: ts, by rw [htail]; rfl, ?_⟩
      rw [sequenceOf_cons (by decide) (by decide)]
      exact .cons .tilde hstands
    | caret tail =>
      obtain ⟨bs, rfl, htail⟩ := hrest.exists_cons (b := '^'.toUInt8) rfl
      obtain ⟨ts, htail, hstands⟩ := ih _ (by simp at hle; omega) htail rfl
      refine ⟨.caret :: ts, by rw [htail]; rfl, ?_⟩
      rw [sequenceOf_cons (by decide) (by decide)]
      exact .cons .caret hstands
    | @run c hc htilde hcaret tail =>
      have hfirst := continues_self hc
      obtain ⟨run, bs, rfl, htake, hdrop, hhead⟩ := hrest.span c.isDigit
      rw [List.dropWhile_cons_of_pos hfirst] at hdrop
      have hdropped := length_dropWhile_le (continues c.isDigit) tail
      obtain ⟨ts, htail, hstands⟩ := ih _ (by simp at hle; omega) hdrop rfl
      have hrun : ∀ b ∈ run, continues c.isDigit (Char.ofUInt8 b) := by
        intro b hb
        refine List.mem_takeWhile_imp (l := c :: tail) ?_
        rw [htake]
        exact List.mem_map_of_mem hb
      have hne : run ≠ [] := by
        rintro rfl
        rw [List.takeWhile_cons_of_pos hfirst] at htake
        cases htake
      refine ⟨_ :: ts, by rw [htail]; rfl, ?_⟩
      rw [htake, sequenceOf_run hne hrun hhead]
      refine .cons ?_ hstands
      cases hdigit : c.isDigit with
      | false => exact .letters run
      | true =>
        refine .digits fun b hb => ?_
        have hb := hrun b hb
        rwa [continues_ofUInt8, hdigit] at hb

theorem compareSegments_of_spells {s t : List Char} {bs cs : List UInt8} (hs : Spells s bs)
    (ht : Spells t cs) :
    compareSegments s t = compareSequences (sequenceOf bs) (sequenceOf cs) := by
  obtain ⟨ts, hts, hss⟩ := hs.exists_tokens
  obtain ⟨us, hus, hrs⟩ := ht.exists_tokens
  rw [compareSegments_eq_compare_tokens, hts, hus, compare_append_finish hss hrs]

/-! ## Texts -/

theorem spells_map (bs : List UInt8) : Spells (bs.map Char.ofUInt8) bs := by
  induction bs with
  | nil => exact .nil
  | cons b rest ih => exact .byte b ih

/-- The bytes of a text in UTF-8. -/
def bytesOf (s : String) : List UInt8 := s.toUTF8.data.toList

theorem isSegmentChar_eq_false_of_le {c : Char} (h : 128 ≤ c.toNat) : isSegmentChar c = false := by
  have hval : c.val.toNat = c.toNat := rfl
  have htilde : c ≠ '~' := by rintro rfl; exact absurd h (by decide)
  have hcaret : c ≠ '^' := by rintro rfl; exact absurd h (by decide)
  simp [isSegmentChar, Char.isAlphanum, Char.isAlpha, Char.isUpper, Char.isLower, Char.isDigit,
    htilde, hcaret, UInt32.le_iff_toNat_le, hval]
  omega

/-- Beyond ASCII no byte is that of an ASCII character. -/
theorem le_of_mem_utf8EncodeChar {c : Char} (h : 128 ≤ c.toNat) :
    ∀ b ∈ String.utf8EncodeChar c, 128 ≤ b.toNat := by
  have hval : c.val.toNat = c.toNat := rfl
  have hbyte {n : Nat} (hlow : 128 ≤ n) (hhigh : n < 256) : 128 ≤ (UInt8.ofNat n).toNat := by
    rwa [UInt8.toNat_ofNat', Nat.mod_eq_of_lt hhigh]
  unfold String.utf8EncodeChar
  simp only [hval]
  split
  · omega
  split
  · rw [List.forall_mem_cons, List.forall_mem_singleton]
    exact ⟨hbyte (by omega) (by omega), hbyte (by omega) (by omega)⟩
  split
  · rw [List.forall_mem_cons, List.forall_mem_cons, List.forall_mem_singleton]
    exact ⟨hbyte (by omega) (by omega), hbyte (by omega) (by omega), hbyte (by omega) (by omega)⟩
  · rw [List.forall_mem_cons, List.forall_mem_cons, List.forall_mem_cons, List.forall_mem_singleton]
    exact ⟨hbyte (by omega) (by omega), hbyte (by omega) (by omega), hbyte (by omega) (by omega),
      hbyte (by omega) (by omega)⟩

theorem spells_cons_utf8 (c : Char) {s : List Char} {bs : List UInt8} (h : Spells s bs) :
    Spells (c :: s) (String.utf8EncodeChar c ++ bs) := by
  rcases Nat.lt_or_ge c.toNat 128 with hlt | hge
  · have hval : c.val.toNat = c.toNat := rfl
    have hascii : String.utf8EncodeChar c = [UInt8.ofNat c.toNat] := by
      unfold String.utf8EncodeChar
      simp only [hval]
      rw [if_pos (by omega)]
    have hc : Char.ofUInt8 (UInt8.ofNat c.toNat) = c := by
      refine Char.toNat_inj.1 ?_
      show (UInt8.ofNat c.toNat).toNat = c.toNat
      rw [UInt8.toNat_ofNat', Nat.mod_eq_of_lt (by omega)]
    have hbyte := h.byte (UInt8.ofNat c.toNat)
    rw [hc] at hbyte
    rw [hascii]
    exact hbyte
  · refine .gap (isSegmentChar_eq_false_of_le hge) String.utf8EncodeChar_ne_nil (fun b hb => ?_) h
    exact isSegmentChar_eq_false_of_le (le_of_mem_utf8EncodeChar hge b hb)

theorem spells_bytesOf (s : String) : Spells s.toList (bytesOf s) := by
  have hbytes : bytesOf s = s.toList.flatMap String.utf8EncodeChar := by
    unfold bytesOf
    show s.toByteArray.data.toList = _
    rw [← String.utf8Encode_toList]
    exact List.toList_data_toByteArray
  rw [hbytes]
  induction s.toList with
  | nil => exact .nil
  | cons c rest ih => exact spells_cons_utf8 c ih

/--
Two versions, given by their bytes or as texts, compare segment by segment. So the comparison is a
preorder in which any two versions can be compared.
-/
theorem compareTexts_segmentwise :
    (∀ a b : List UInt8, compareSegments (a.map Char.ofUInt8) (b.map Char.ofUInt8) =
      compareSequences (sequenceOf a) (sequenceOf b)) ∧
    (∀ a b : String, compareTexts a b =
      compareSequences (sequenceOf (bytesOf a)) (sequenceOf (bytesOf b))) ∧
    Std.TransCmp compareTexts :=
  ⟨fun a b => compareSegments_of_spells (spells_map a) (spells_map b),
    fun a b => compareSegments_of_spells (spells_bytesOf a) (spells_bytesOf b), inferInstance⟩

/-- Zeros in front do not count, and neither does what separates. -/
example : sequenceOf (bytesOf "1.02~rc1") = [.digits 1, .digits 2, .tilde,
    .letters ("rc".toList.map Char.toUInt8), .digits 1] := by decide

end Provision.Evr
