import Provision.Evr
import Provision.Proofs.Text
import Provision.Proofs.Traversal

/-!
# EVRs and their texts

Reading an EVR cuts its text at the first colon and the last dash, and writing joins the parts. An
epoch of zero is not written. Where the text behind it has a colon or a blank in front, the epoch
was all that kept these apart from an epoch or from the blanks around the text, and the written form
is read as another EVR or not at all. In all other cases it is read as what was written
(`ofChars_text_iff`); this holds of every EVR that was itself read from a text (`parse_text_iff`).
Which case it is can be told from epoch, version and release (`legible_iff_plain`).

What a written form is read as weighs no more than what was written, and less unless it is the same
(`ofChars_text_cases`).
-/

namespace Provision.Evr

/-- The epoch as it is written. -/
def epochChars (epoch : Nat) : List Char :=
  if epoch = 0 then [] else Nat.toDigits 10 epoch ++ [':']

/-- Version and release as they are written. -/
def body (e : Evr) : List Char :=
  e.version.toList ++
    (match e.release with
    | none => []
    | some release => '-' :: release.toList)

theorem toList_text (e : Evr) : e.text.toList = epochChars e.epoch ++ e.body := by
  unfold text epochChars body
  rcases e.release with _ | release <;> split <;> simp

theorem toList_text_of_epoch_zero {e : Evr} (h : e.epoch = 0) : e.text.toList = e.body := by
  rw [toList_text, h]
  rfl

/-! ## What reading gives -/

theorem readEpoch_of_cutFirst {s digits rest : List Char} {epoch : Nat}
    (hcut : Text.cutFirst ':' s = some (digits, rest)) {behind : List Char} :
    readEpoch s = .ok (epoch, behind) ↔ behind = rest ∧
      (digits = [] ∧ epoch = 0 ∨ Text.readNumeral Text.maxWord digits = .ok epoch) := by
  unfold readEpoch
  rw [hcut]
  rcases digits with _ | ⟨c, digits⟩
  · simp [Text.readNumeral, and_comm, eq_comm]
  · dsimp only
    rcases Text.readNumeral Text.maxWord (c :: digits) with reason | number
    · simp
    · simp [and_comm, eq_comm]

/-- Either there is no colon, or the epoch is read in front of the first one. -/
theorem readEpoch_eq_ok_iff {s rest : List Char} {epoch : Nat} :
    readEpoch s = .ok (epoch, rest) ↔
      epoch = 0 ∧ s = rest ∧ ':' ∉ s ∨
      ∃ digits, s = digits ++ ':' :: rest ∧ ':' ∉ digits ∧
        (digits = [] ∧ epoch = 0 ∨ Text.readNumeral Text.maxWord digits = .ok epoch) := by
  constructor
  · intro h
    rcases hcut : Text.cutFirst ':' s with _ | ⟨digits, behind⟩
    · simp only [readEpoch, hcut] at h
      cases h
      exact .inl ⟨rfl, rfl, Text.cutFirst_eq_none_iff.1 hcut⟩
    · obtain ⟨rfl, hepoch⟩ := (readEpoch_of_cutFirst hcut).1 h
      obtain ⟨hs, hcolon⟩ := Text.cutFirst_eq_some_iff.1 hcut
      exact .inr ⟨digits, hs, hcolon, hepoch⟩
  · rintro (⟨rfl, rfl, hcolon⟩ | ⟨digits, rfl, hcolon, hepoch⟩)
    · simp only [readEpoch, Text.cutFirst_eq_none_iff.2 hcolon]
    · exact (readEpoch_of_cutFirst (Text.cutFirst_append hcolon)).2 ⟨rfl, hepoch⟩

theorem cutRelease_eq_iff {s version : List Char} {release : Option (List Char)} :
    cutRelease s = (version, release) ↔
      s = version ++ release.elim [] ('-' :: ·) ∧ '-' ∉ release.getD version := by
  constructor
  · intro h
    unfold cutRelease at h
    split at h
    · rename_i hcut
      cases h
      exact Text.cutLast_eq_some_iff.1 hcut
    · rename_i hcut
      cases h
      exact ⟨(List.append_nil s).symm, Text.cutLast_eq_none_iff.1 hcut⟩
  · rintro ⟨rfl, hdash⟩
    unfold cutRelease
    rcases release with _ | release
    · rw [Option.elim_none, List.append_nil, Text.cutLast_eq_none_iff (s := version) |>.2 hdash]
    · rw [Option.elim_some, Text.cutLast_append (b := release) hdash]

theorem cutRelease_body {e : Evr} (h : '-' ∉ (e.release.getD e.version).toList) :
    cutRelease e.body = (e.version.toList, e.release.map String.toList) := by
  refine cutRelease_eq_iff.2 ⟨?_, ?_⟩
  · unfold body
    rcases e.release <;> rfl
  · revert h
    rcases e.release <;> exact id

theorem ofChars_eq_ok_iff {s : List Char} {e : Evr} :
    ofChars s = .ok e ↔ readEpoch (Text.trim s) = .ok (e.epoch, e.body) ∧ e.version ≠ "" ∧
      e.release ≠ some "" ∧ '-' ∉ (e.release.getD e.version).toList := by
  unfold ofChars
  dsimp only
  constructor
  · intro h
    obtain ⟨⟨epoch, rest⟩, hread, h⟩ := bind_eq_ok.1 h
    rcases hcut : cutRelease rest with ⟨version, release⟩
    obtain ⟨rfl, hdash⟩ := cutRelease_eq_iff.1 hcut
    dsimp only at h
    rw [hcut] at h
    split at h
    · cases h
    · cases h
    · rename_i hversion hrelease heq
      cases h
      cases heq
      refine ⟨?_, ?_, ?_, ?_⟩
      · rw [hread]
        rcases release <;> simp [body]
      · simpa using hversion
      · simpa using hrelease
      · rcases release <;> simpa using hdash
  · rintro ⟨hread, hversion, hrelease, hdash⟩
    refine bind_eq_ok.2 ⟨_, hread, ?_⟩
    dsimp only
    rw [cutRelease_body hdash]
    split
    · simp_all
    · simp_all
    · rename_i heq
      cases heq
      rcases e with ⟨epoch, version, _ | release⟩ <;> simp

/-- What holds of every EVR that was read. -/
structure IsRead (e : Evr) : Prop where
  epoch_le : e.epoch ≤ Text.maxWord
  version_ne : e.version ≠ ""
  release_ne : e.release ≠ some ""
  /-- The last dash is the one in front of the release. -/
  dash : '-' ∉ (e.release.getD e.version).toList
  /-- No blank stands at the end. -/
  last : ∀ c ∈ e.body.getLast?, Text.isBlank c = false

/-- Version and release end where the text ends, apart from blanks. -/
theorem body_suffix_of_ofChars {s : List Char} {e : Evr} (h : ofChars s = .ok e) :
    e.body <:+ Text.trim s := by
  obtain ⟨hread, -⟩ := ofChars_eq_ok_iff.1 h
  rcases readEpoch_eq_ok_iff.1 hread with ⟨-, hs, -⟩ | ⟨digits, hs, -⟩
  · exact ⟨[], hs.symm⟩
  · exact ⟨digits ++ [':'], by simpa using hs.symm⟩

theorem isRead_of_ofChars {s : List Char} {e : Evr} (h : ofChars s = .ok e) : e.IsRead := by
  obtain ⟨hread, hversion, hrelease, hdash⟩ := ofChars_eq_ok_iff.1 h
  refine ⟨?_, hversion, hrelease, hdash, ?_⟩
  · rcases readEpoch_eq_ok_iff.1 hread with ⟨hzero, -⟩ | ⟨digits, -, -, ⟨-, hzero⟩ | hnumeral⟩
    · omega
    · omega
    · exact Text.le_of_readNumeral hnumeral
  · intro c hc
    obtain ⟨front, hs⟩ := body_suffix_of_ofChars h
    have hlast : (Text.trim s).getLast? = some c := by
      rw [← hs, List.getLast?_append, hc]
      rfl
    exact (Text.trim_eq_self_iff.1 (Text.trim_trim s)).2 c hlast

theorem body_ne_nil {e : Evr} (h : e.version ≠ "") : e.body ≠ [] := by
  simp [body, h]

/-- Only the epoch and blanks are left out, and neither has a dash. -/
theorem count_dash_body {s : List Char} {e : Evr} (h : ofChars s = .ok e) :
    e.body.count '-' = s.count '-' := by
  obtain ⟨hread, -⟩ := ofChars_eq_ok_iff.1 h
  rw [← Text.count_trim (by decide) s]
  rcases readEpoch_eq_ok_iff.1 hread with ⟨-, hs, -⟩ | ⟨digits, hs, -, hdigits⟩
  · rw [hs]
  · have hdash : '-' ∉ digits := by
      rcases hdigits with ⟨rfl, -⟩ | hnumeral
      · exact List.not_mem_nil
      · intro hmem
        rcases Text.isDigit_of_readNumeral hnumeral _ hmem with hdigit | hplus
        · exact absurd hdigit (by decide)
        · exact absurd hplus (by decide)
    rw [hs, List.count_append, List.count_eq_zero.2 hdash, List.count_cons_of_ne (by decide),
      Nat.zero_add]

/-- What was read with one dash has a release, and no other dash. -/
theorem exists_release_of_ofChars {version release : List Char} {e : Evr} (hversion : '-' ∉ version)
    (hrelease : '-' ∉ release) (h : ofChars (version ++ '-' :: release) = .ok e) :
    (∃ r, e.release = some r) ∧ '-' ∉ e.version.toList := by
  have hread := isRead_of_ofChars h
  have hcount := count_dash_body h
  rw [List.count_append, List.count_cons_self, List.count_eq_zero.2 hversion,
    List.count_eq_zero.2 hrelease] at hcount
  have hdash := hread.dash
  unfold body at hcount
  rcases hr : e.release with _ | r
  · rw [hr, Option.getD_none] at hdash
    rw [hr, List.append_nil, List.count_eq_zero.2 hdash] at hcount
    omega
  · refine ⟨⟨r, rfl⟩, List.count_eq_zero.1 ?_⟩
    rw [hr, List.count_append, List.count_cons_self] at hcount
    omega

theorem not_mem_epochChars {c : Char} (hdigit : c.isDigit = false) (hcolon : c ≠ ':')
    (epoch : Nat) : c ∉ epochChars epoch := by
  unfold epochChars
  split
  · exact List.not_mem_nil
  · intro hmem
    rcases List.mem_append.1 hmem with hmem | hmem
    · rw [Nat.isDigit_of_mem_toDigits (by decide) (by decide) hmem] at hdigit
      cases hdigit
    · exact hcolon (List.mem_singleton.1 hmem)

/-- With a release, there is one dash and it is where the release is cut off. -/
theorem exists_cut_text {e : Evr} (h : e.IsRead) (hrelease : ∃ r, e.release = some r)
    (hversion : '-' ∉ e.version.toList) :
    ∃ front release, e.text.toList = front ++ '-' :: release ∧ '-' ∉ front ∧ '-' ∉ release := by
  obtain ⟨r, hr⟩ := hrelease
  have hdash := h.dash
  rw [hr, Option.getD_some] at hdash
  refine ⟨epochChars e.epoch ++ e.version.toList, r.toList, ?_, ?_, hdash⟩
  · rw [toList_text, body, hr, List.append_assoc]
  · rw [List.mem_append, not_or]
    exact ⟨not_mem_epochChars (by decide) (by decide) e.epoch, hversion⟩

theorem getLast?_text {e : Evr} (h : e.version ≠ "") :
    e.text.toList.getLast? = e.body.getLast? := by
  rw [toList_text, List.getLast?_append_of_ne_nil _ (body_ne_nil h)]

/-- Only digits and a colon may be written that were not read. -/
theorem not_mem_text_of_ofChars {c : Char} (hdigit : c.isDigit = false) (hcolon : c ≠ ':')
    {s : List Char} {e : Evr} (h : ofChars s = .ok e) (hc : c ∉ s) : c ∉ e.text.toList := by
  rw [toList_text, List.mem_append, not_or]
  refine ⟨not_mem_epochChars hdigit hcolon e.epoch, fun hmem => hc ?_⟩
  exact (Text.trim_sublist s).subset ((body_suffix_of_ofChars h).subset hmem)

theorem ofChars_cons {c : Char} (hc : Text.isBlank c) (s : List Char) :
    ofChars (c :: s) = ofChars s := by
  unfold ofChars
  rw [Text.trim_cons hc]

/-! ## Reading what was written -/

/--
The written form of the EVR says where its epoch ends: an epoch of zero is not written, so that
there must be no colon, which would end another epoch, and no blank in front.
-/
def Legible (e : Evr) : Prop :=
  e.epoch = 0 → ':' ∉ e.text.toList ∧ ∀ c ∈ e.text.toList.head?, Text.isBlank c = false

instance (e : Evr) : Decidable e.Legible := by
  unfold Legible
  infer_instance

/-- There is an epoch to write, or neither a colon nor a blank in front that asks for one. -/
def Plain (e : Evr) : Prop :=
  e.epoch ≠ 0 ∨
    ':' ∉ e.version.toList ∧ (∀ release ∈ e.release, ':' ∉ release.toList) ∧
      ∀ c ∈ e.version.toList.head?, Text.isBlank c = false

instance (e : Evr) : Decidable e.Plain := by
  unfold Plain
  infer_instance

theorem colon_not_mem_body_iff {e : Evr} :
    ':' ∉ e.body ↔
      ':' ∉ e.version.toList ∧ ∀ release ∈ e.release, ':' ∉ release.toList := by
  unfold body
  rcases e.release with _ | release
  · simp
  · simp [not_or]

theorem head?_body {e : Evr} (h : e.version ≠ "") :
    e.body.head? = e.version.toList.head? := by
  unfold body
  rw [List.head?_append_of_ne_nil _ (by simpa using h)]

theorem legible_iff_plain {e : Evr} (h : e.version ≠ "") : e.Legible ↔ e.Plain := by
  unfold Legible Plain
  by_cases hepoch : e.epoch = 0
  · rw [toList_text_of_epoch_zero hepoch, colon_not_mem_body_iff, head?_body h, and_assoc]
    simp only [hepoch, forall_const, ne_eq, not_true_eq_false, false_or]
  · exact iff_of_true (fun hzero => absurd hzero hepoch) (.inl hepoch)

theorem ofChars_eq_ok_iff_readEpoch {s : List Char} {e : Evr} (h : e.IsRead) :
    ofChars s = .ok e ↔ readEpoch (Text.trim s) = .ok (e.epoch, e.body) := by
  rw [ofChars_eq_ok_iff, and_iff_left ⟨h.version_ne, h.release_ne, h.dash⟩]

theorem ofChars_text_of_ne_zero {e : Evr} (h : e.IsRead) (hepoch : e.epoch ≠ 0) :
    ofChars e.text.toList = .ok e := by
  have hnumeral := Text.readNumeral_toDigits h.epoch_le
  have hdigits := Text.isDigit_of_readDigits (Text.readDigits_toDigits h.epoch_le)
  have htext : e.text.toList = Nat.toDigits 10 e.epoch ++ ':' :: e.body := by
    rw [toList_text, epochChars, if_neg hepoch, List.append_assoc]
    rfl
  have htrim : Text.trim e.text.toList = e.text.toList := by
    rw [htext, Text.trim_eq_self_iff]
    constructor
    · intro c hc
      obtain ⟨d, digits, hcons⟩ := List.exists_cons_of_ne_nil (Nat.toDigits_ne_nil (b := 10))
      rw [hcons] at hc hdigits
      cases hc
      exact Text.isBlank_eq_false_of_isDigit (hdigits c List.mem_cons_self)
    · intro c hc
      rw [List.getLast?_append_cons, List.getLast?_cons_of_ne_nil (body_ne_nil h.version_ne)] at hc
      exact h.last c hc
  rw [ofChars_eq_ok_iff_readEpoch h, htrim, readEpoch_eq_ok_iff]
  refine .inr ⟨_, htext, ?_, .inr hnumeral⟩
  exact fun hmem => absurd (hdigits ':' hmem) (by decide)

/-- The written form is read as the EVR that was written exactly when it is legible. -/
theorem ofChars_text_iff {e : Evr} (h : e.IsRead) : ofChars e.text.toList = .ok e ↔ e.Legible := by
  by_cases hepoch : e.epoch = 0
  · have htext := toList_text_of_epoch_zero hepoch
    rw [ofChars_eq_ok_iff_readEpoch h, readEpoch_eq_ok_iff, Legible, htext, hepoch]
    constructor
    · rintro (⟨-, htrim, hcolon⟩ | ⟨digits, htrim, -⟩) -
      · rw [htrim] at hcolon
        exact ⟨hcolon, (Text.trim_eq_self_iff.1 htrim).1⟩
      · have hle := Text.length_trim_le e.body
        rw [htrim, List.length_append, List.length_cons] at hle
        omega
    · intro hlegible
      obtain ⟨hcolon, hfront⟩ := hlegible rfl
      have htrim := Text.trim_eq_self_iff.2 ⟨hfront, h.last⟩
      exact .inl ⟨rfl, htrim, by rwa [htrim]⟩
  · exact iff_of_true (ofChars_text_of_ne_zero h hepoch) fun hzero => absurd hzero hepoch

theorem ofChars_text_iff_plain {e : Evr} (h : e.IsRead) :
    ofChars e.text.toList = .ok e ↔ e.Plain := by
  rw [ofChars_text_iff h, legible_iff_plain h.version_ne]

/-! ## Reading something else -/

/-- The length of the written form, where an epoch that is left out counts as well. -/
def weight (e : Evr) : Nat := e.text.length + if e.epoch = 0 then 1 else 0

theorem weight_eq (e : Evr) :
    e.weight = (epochChars e.epoch).length + e.body.length + if e.epoch = 0 then 1 else 0 := by
  rw [weight, ← String.length_toList, toList_text, List.length_append]

/-- An epoch that is read takes at least as many characters as it has when it is written. -/
theorem length_le_of_readEpoch {s rest : List Char} {epoch : Nat}
    (h : readEpoch s = .ok (epoch, rest)) :
    epoch = 0 ∧ s = rest ∨
      (epochChars epoch).length + rest.length + (if epoch = 0 then 1 else 0) ≤ s.length := by
  rcases readEpoch_eq_ok_iff.1 h with ⟨hzero, hs, -⟩ | ⟨digits, hs, -, hdigits⟩
  · exact .inl ⟨hzero, hs⟩
  · right
    rw [hs, List.length_append, List.length_cons]
    unfold epochChars
    split
    · rw [List.length_nil]
      omega
    · rcases hdigits with ⟨-, hzero⟩ | hnumeral
      · contradiction
      · have hle := Text.length_toDigits_le hnumeral
        rw [List.length_append, List.length_singleton]
        omega

theorem weight_of_ofChars {s : List Char} {e : Evr} (h : ofChars s = .ok e) :
    e.epoch = 0 ∧ e.body = s ∨ e.weight ≤ s.length := by
  obtain ⟨hread, -⟩ := ofChars_eq_ok_iff.1 h
  rw [weight_eq]
  rcases length_le_of_readEpoch hread with ⟨hzero, hbody⟩ | hle
  · rcases Text.eq_or_length_trim_lt s with htrim | hlt
    · exact .inl ⟨hzero, hbody.symm.trans htrim⟩
    · right
      rw [hbody] at hlt
      rw [hzero]
      show 0 + e.body.length + 1 ≤ s.length
      omega
  · exact .inr (hle.trans (Text.length_trim_le s))

theorem weight_le_of_ofChars {s : List Char} {e : Evr} (h : ofChars s = .ok e) :
    e.weight ≤ s.length + 1 := by
  rcases weight_of_ofChars h with ⟨hzero, rfl⟩ | hle
  · rw [weight_eq, hzero]
    show 0 + e.body.length + 1 ≤ e.body.length + 1
    omega
  · omega

theorem eq_of_body_eq {e other : Evr} (h : e.IsRead) (hother : other.IsRead)
    (hepoch : e.epoch = other.epoch) (hbody : e.body = other.body) : e = other := by
  have hcut := cutRelease_body h.dash
  rw [hbody, cutRelease_body hother.dash] at hcut
  rcases e with ⟨epoch, version, _ | release⟩ <;>
    rcases other with ⟨epoch', version', _ | release'⟩ <;>
    simp_all [String.toList_inj]

/-- The written form is read as the EVR that was written, as a lighter one, or not at all. -/
theorem ofChars_text_cases {e read : Evr} (h : e.IsRead) (hread : ofChars e.text.toList = .ok read) :
    read = e ∨ read.weight < e.weight := by
  by_cases hepoch : e.epoch = 0
  · rcases weight_of_ofChars hread with ⟨hzero, hbody⟩ | hle
    · rw [toList_text_of_epoch_zero hepoch] at hbody
      exact .inl (eq_of_body_eq (isRead_of_ofChars hread) h (hzero.trans hepoch.symm) hbody)
    · right
      rw [String.length_toList] at hle
      have hweight : e.weight = e.text.length + 1 := by rw [weight, if_pos hepoch]
      omega
  · rw [ofChars_text_of_ne_zero h hepoch] at hread
    cases hread
    exact .inl rfl

/-! ## Reading twice -/

/-- What was read is read again from its written form exactly when that form is legible. -/
theorem parse_text_iff {s : String} {e : Evr} (h : parse s = .ok e) :
    parse e.text = .ok e ↔ e.Legible :=
  ofChars_text_iff (isRead_of_ofChars h)

/-- Behind an epoch that is written, colons, dashes and blanks are read again as they are. -/
theorem parse_text_iff_epoch :
    parse " 7: 1:2-3-4 " = .ok ⟨7, " 1:2-3", some "4"⟩ ∧
      parse (text ⟨7, " 1:2-3", some "4"⟩) = .ok ⟨7, " 1:2-3", some "4"⟩ := by
  have hread : parse " 7: 1:2-3-4 " = .ok ⟨7, " 1:2-3", some "4"⟩ := by cbv
  exact ⟨hread, (parse_text_iff hread).2 fun hzero => absurd hzero (by decide)⟩

/-- Without its zero in front, a version with a colon is read with another epoch. -/
theorem not_all_parse_text :
    ¬ ∀ (s : String) (e : Evr), parse s = .ok e → parse e.text = .ok e := by
  intro hall
  have hread : parse "0:1:2-3" = .ok ⟨0, "1:2", some "3"⟩ := by cbv
  have hagain : parse (text ⟨0, "1:2", some "3"⟩) = .ok ⟨1, "2", some "3"⟩ := by cbv
  rw [hall _ _ hread] at hagain
  cases hagain

end Provision.Evr
