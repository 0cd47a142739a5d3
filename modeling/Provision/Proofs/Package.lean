import Provision.Package
import Provision.Proofs.Evr.Text

/-!
# Builds and their texts

The name of a build is cut at its last dot and at the two last dashes before it (`parse_eq_ok_iff`),
none of which can come from the parts that follow them, so a written build is cut where it was
joined. Two things may still go wrong: an `@` inside the written build is taken for the one in front
of a repository, and the EVR may not be legible. A written build is read as itself exactly when
neither is so (`parse_nevra_iff`); if it is read as another one, then as one that weighs less
(`parse_nevra_cases`).
-/

namespace Provision

namespace Package

theorem parse_eq_ok_iff {s : String} {p : Package} :
    parse s = .ok p ↔ ∃ name version release arch evr,
      (cutRepo s.toList).1 = name ++ '-' :: version ++ '-' :: release ++ '.' :: arch ∧
      ('.' ∉ arch ∧ '-' ∉ release ∧ '-' ∉ version) ∧ name ≠ [] ∧ arch ≠ [] ∧
      Evr.ofChars (version ++ '-' :: release) = .ok evr ∧
      p = ⟨⟨String.ofList name, String.ofList arch, evr⟩, (cutRepo s.toList).2, none⟩ := by
  unfold parse
  constructor
  · intro h
    dsimp only at h
    split at h
    · rename_i rest arch harch
      split at h
      · rename_i rest' release hrelease
        split at h
        · rename_i name version hversion
          obtain ⟨rfl, hv⟩ := Text.cutLast_eq_some_iff.1 hversion
          obtain ⟨rfl, hr⟩ := Text.cutLast_eq_some_iff.1 hrelease
          obtain ⟨heq, ha⟩ := Text.cutLast_eq_some_iff.1 harch
          split at h
          · cases h
          · rename_i hne
            obtain ⟨evr, hevr, heq'⟩ := bind_eq_ok.1 h
            cases heq'
            simp only [Bool.or_eq_true, List.isEmpty_iff, not_or] at hne
            exact ⟨name, version, release, arch, evr, heq, ⟨ha, hr, hv⟩, hne.1, hne.2, hevr, rfl⟩
        · cases h
      · cases h
    · cases h
  · rintro ⟨name, version, release, arch, evr, hs, ⟨ha, hr, hv⟩, hname, harch, hevr, rfl⟩
    have hempty : ¬ (name.isEmpty || arch.isEmpty) = true := by
      simp only [Bool.or_eq_true, List.isEmpty_iff, not_or]
      exact ⟨hname, harch⟩
    dsimp only
    rw [hs, Text.cutLast_append ha]
    dsimp only
    rw [Text.cutLast_append hr]
    dsimp only
    rw [Text.cutLast_append hv]
    dsimp only
    rw [if_neg hempty, hevr]
    rfl

/-! ## Repositories inside names -/

/-- Nothing is cut off, or the last `@` and a repository behind it. -/
theorem cutRepo_cases (s : List Char) :
    cutRepo s = (s, systemRepo) ∧ ('@' ∈ s → s.getLast? = some '@') ∨
    (cutRepo s).1.length + 2 ≤ s.length ∧ '@' ∈ s ∧ s.getLast? ≠ some '@' := by
  unfold cutRepo
  split
  · rename_i build c repo hcut
    obtain ⟨rfl, hat⟩ := Text.cutLast_eq_some_iff.1 hcut
    right
    refine ⟨by simp, by simp, ?_⟩
    rw [List.getLast?_append_cons, List.getLast?_cons_of_ne_nil (List.cons_ne_nil c repo)]
    exact fun hlast => hat (List.mem_of_getLast? hlast)
  · rename_i hcut
    left
    refine ⟨rfl, fun hmem => ?_⟩
    rcases hparts : Text.cutLast '@' s with _ | ⟨build, _ | ⟨c, repo⟩⟩
    · exact absurd hmem (Text.cutLast_eq_none_iff.1 hparts)
    · rw [Text.eq_of_cutLast hparts, List.getLast?_concat]
    · exact absurd hparts (hcut build c repo)

end Package

/-! ## Builds that were read -/

/-- What holds of every build that was read. -/
structure Build.IsRead (b : Build) : Prop where
  name_ne : b.name ≠ ""
  arch_ne : b.arch ≠ ""
  dot : '.' ∉ b.arch.toList
  evr : b.evr.IsRead
  release : ∃ release, b.evr.release = some release
  dash : '-' ∉ b.evr.version.toList

theorem Package.isRead_of_parse {s : String} {p : Package} (h : parse s = .ok p) :
    p.build.IsRead := by
  obtain ⟨name, version, release, arch, evr, -, ⟨ha, hr, hv⟩, hname, harch, hevr, rfl⟩ :=
    parse_eq_ok_iff.1 h
  obtain ⟨hrelease, hdash⟩ := Evr.exists_release_of_ofChars hv hr hevr
  refine ⟨?_, ?_, ?_, Evr.isRead_of_ofChars hevr, hrelease, hdash⟩
  · simpa using hname
  · simpa using harch
  · simpa using ha

namespace Build

theorem toList_nevra (b : Build) :
    b.nevra.toList = b.name.toList ++ '-' :: b.evr.text.toList ++ '.' :: b.arch.toList := by
  simp [nevra]

/--
The written form of the build says where its parts end: that of its EVR does, and an `@` in it is
not taken for one in front of a repository, because nothing follows the last one.
-/
def Legible (b : Build) : Prop :=
  ('@' ∈ b.nevra.toList → b.nevra.toList.getLast? = some '@') ∧ b.evr.Legible

instance (b : Build) : Decidable b.Legible := inferInstanceAs (Decidable (_ ∧ _))

/-- The length of the written form without its marks, where an epoch that is left out counts. -/
def weight (b : Build) : Nat := b.name.length + b.evr.weight + b.arch.length

theorem length_nevra_le (b : Build) : b.nevra.toList.length ≤ b.weight + 2 := by
  rw [toList_nevra, weight, Evr.weight]
  simp only [List.length_append, List.length_cons, String.length_toList]
  omega

end Build

namespace Package

theorem weight_le_of_parse {s : String} {p : Package} (h : parse s = .ok p) :
    p.build.weight + 1 ≤ (cutRepo s.toList).1.length := by
  obtain ⟨name, version, release, arch, evr, hs, -, -, -, hevr, rfl⟩ := parse_eq_ok_iff.1 h
  have hweight := Evr.weight_le_of_ofChars hevr
  rw [hs, Build.weight]
  simp only [List.length_append, List.length_cons, String.length_ofList] at hweight ⊢
  omega

variable {b : Build}

theorem parse_nevra_eq_ok_iff (h : b.IsRead)
    (hat : '@' ∈ b.nevra.toList → b.nevra.toList.getLast? = some '@') {p : Package} :
    parse b.nevra = .ok p ↔ ∃ evr, Evr.ofChars b.evr.text.toList = .ok evr ∧
      p = ⟨⟨b.name, b.arch, evr⟩, systemRepo, none⟩ := by
  obtain ⟨front, behind, htext, hfront, hbehind⟩ := Evr.exists_cut_text h.evr h.release h.dash
  have hcut : cutRepo b.nevra.toList = (b.nevra.toList, systemRepo) := by
    rcases cutRepo_cases b.nevra.toList with ⟨hcut, -⟩ | ⟨-, hmem, hlast⟩
    · exact hcut
    · exact absurd (hat hmem) hlast
  have hnevra : b.nevra.toList =
      b.name.toList ++ '-' :: front ++ '-' :: behind ++ '.' :: b.arch.toList := by
    rw [Build.toList_nevra, htext]
    simp
  rw [parse_eq_ok_iff, hcut]
  constructor
  · rintro ⟨name, version, release, arch, evr, hs, ⟨ha, hr, hv⟩, -, -, hevr, rfl⟩
    obtain ⟨hnevr, rfl⟩ := Text.eq_of_append_cons_eq (hnevra.symm.trans hs) h.dot ha
    obtain ⟨hnev, rfl⟩ := Text.eq_of_append_cons_eq hnevr hbehind hr
    obtain ⟨rfl, rfl⟩ := Text.eq_of_append_cons_eq hnev hfront hv
    refine ⟨evr, ?_, ?_⟩
    · rw [htext, hevr]
    · simp
  · rintro ⟨evr, hevr, rfl⟩
    refine ⟨_, _, _, _, evr, hnevra, ⟨h.dot, hbehind, hfront⟩, ?_, ?_, ?_, ?_⟩
    · simpa using h.name_ne
    · simpa using h.arch_ne
    · rw [← htext, hevr]
    · simp

/-- The written form is read as the build that was written, or as a lighter one, or not at all. -/
theorem parse_nevra_cases (h : b.IsRead) {p : Package} (hp : parse b.nevra = .ok p) :
    p.build = b ∧ b.Legible ∨ p.build.weight < b.weight := by
  by_cases hat : '@' ∈ b.nevra.toList → b.nevra.toList.getLast? = some '@'
  · obtain ⟨evr, hevr, rfl⟩ := (parse_nevra_eq_ok_iff h hat).1 hp
    rcases Evr.ofChars_text_cases h.evr hevr with rfl | hlt
    · exact .inl ⟨rfl, hat, (Evr.ofChars_text_iff h.evr).1 hevr⟩
    · right
      show b.name.length + evr.weight + b.arch.length < b.name.length + b.evr.weight + b.arch.length
      omega
  · have hle := weight_le_of_parse hp
    have hlength := b.length_nevra_le
    rcases cutRepo_cases b.nevra.toList with ⟨-, hharmless⟩ | ⟨hcut, -⟩
    · exact absurd hharmless hat
    · omega

/-- The written form is read as the build that was written exactly when it is legible. -/
theorem parse_nevra_iff (h : b.IsRead) :
    (∃ p, parse b.nevra = .ok p ∧ p.build = b) ↔ b.Legible := by
  constructor
  · rintro ⟨p, hp, rfl⟩
    rcases parse_nevra_cases h hp with ⟨-, hlegible⟩ | hlt
    · exact hlegible
    · omega
  · rintro ⟨hat, hevr⟩
    exact ⟨_, (parse_nevra_eq_ok_iff h hat).2 ⟨_, (Evr.ofChars_text_iff h.evr).2 hevr, rfl⟩, rfl⟩

/-- Without its epoch, the version is read as an epoch and a version. -/
example : parse (⟨"app", "noarch", ⟨0, "2:1", some "1"⟩⟩ : Build).nevra =
    .ok ⟨⟨"app", "noarch", ⟨2, "1", some "1"⟩⟩, systemRepo, none⟩ := by cbv

end Package

end Provision
