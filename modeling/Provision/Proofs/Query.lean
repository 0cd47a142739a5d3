import Mathlib.Data.List.Basic
import Provision.Index.Query
import Provision.Proofs.Values

/-!
# Answers of queries

A query answers with packages that its filter selects and that are known from its side
(`mem_of_mem_query`), and for every such package with one of the same build and repository
(`exists_mem_query`). What is installed has one package in a slot, so a query for installed packages
answers with all that it selects (`mem_query_installed_iff`).
-/

namespace Provision

/-! ## Dropping repetitions -/

section DropRepeats

variable {α : Type} {same : α → α → Bool}

theorem dropRepeatsAfter_sublist (last : α) (xs : List α) :
    (dropRepeatsAfter same last xs).Sublist xs := by
  induction xs generalizing last with
  | nil => exact .slnil
  | cons x rest ih =>
    unfold dropRepeatsAfter
    split
    · exact (ih last).cons x
    · exact (ih x).cons_cons x

theorem dropRepeats_sublist (xs : List α) : (dropRepeats same xs).Sublist xs := by
  cases xs with
  | nil => exact .slnil
  | cons x rest => exact (dropRepeatsAfter_sublist x rest).cons_cons x

/-- What is dropped repeats something that is kept. -/
theorem exists_mem_dropRepeatsAfter {last x : α} {xs : List α} (h : x ∈ xs) :
    same last x ∨ ∃ y ∈ dropRepeatsAfter same last xs, y = x ∨ same y x := by
  induction xs generalizing last with
  | nil => cases h
  | cons z rest ih =>
    unfold dropRepeatsAfter
    split
    · rename_i hsame
      rcases List.mem_cons.1 h with rfl | h
      · exact .inl hsame
      · exact ih h
    · rcases List.mem_cons.1 h with rfl | h
      · exact .inr ⟨x, List.mem_cons_self, .inl rfl⟩
      · rcases ih h with hz | ⟨y, hy, hyx⟩
        · exact .inr ⟨z, List.mem_cons_self, .inr hz⟩
        · exact .inr ⟨y, List.mem_cons_of_mem z hy, hyx⟩

theorem exists_mem_dropRepeats {x : α} {xs : List α} (h : x ∈ xs) :
    ∃ y ∈ dropRepeats same xs, y = x ∨ same y x := by
  cases xs with
  | nil => cases h
  | cons z rest =>
    unfold dropRepeats
    rcases List.mem_cons.1 h with rfl | h
    · exact ⟨x, List.mem_cons_self, .inl rfl⟩
    · rcases exists_mem_dropRepeatsAfter h with hz | ⟨y, hy, hyx⟩
      · exact ⟨z, List.mem_cons_self, .inr hz⟩
      · exact ⟨y, List.mem_cons_of_mem z hy, hyx⟩

/-- Of nothing but repetitions one is kept. -/
theorem dropRepeats_of_forall_eq {x : α} {xs : List α} (hx : same x x) (hne : xs ≠ [])
    (hall : ∀ y ∈ xs, y = x) : dropRepeats same xs = [x] := by
  have hafter (ys : List α) (hys : ∀ y ∈ ys, y = x) : dropRepeatsAfter same x ys = [] := by
    induction ys with
    | nil => rfl
    | cons y rest ih =>
      unfold dropRepeatsAfter
      rw [hys y List.mem_cons_self, if_pos hx]
      exact ih fun z hz => hys z (List.mem_cons_of_mem y hz)
  cases xs with
  | nil => exact absurd rfl hne
  | cons y rest =>
    have hrest := hafter rest fun z hz => hall z (List.mem_cons_of_mem y hz)
    rw [hall y List.mem_cons_self]
    exact congrArg (x :: ·) hrest

end DropRepeats

namespace Index

variable {ix : Index}

/-! ## What is installed -/

theorem mem_installedPackages_iff {p : Package} :
    p ∈ ix.installedPackages ↔ ix.installedAt? p.slot = some p := by
  unfold installedPackages installedEntries installedAt?
  rw [List.mem_map, Option.map_eq_some_iff]
  constructor
  · rintro ⟨entry, hentry, rfl⟩
    obtain ⟨slot, hslot⟩ := mem_values_iff.1 hentry
    rw [ix.slot_eq slot entry hslot]
    exact ⟨entry, hslot, rfl⟩
  · rintro ⟨entry, hentry, rfl⟩
    exact ⟨entry, mem_values_iff.2 ⟨_, hentry⟩, rfl⟩

theorem slot_installedAt? {slot : Slot} {p : Package} (h : ix.installedAt? slot = some p) :
    p.slot = slot := by
  unfold installedAt? at h
  obtain ⟨entry, hentry, rfl⟩ := Option.map_eq_some_iff.1 h
  exact ix.slot_eq slot entry hentry

/-- Two installed packages in one slot are the same. -/
theorem installed_unique {p q : Package} (hp : p ∈ ix.installedPackages)
    (hq : q ∈ ix.installedPackages) (hslot : p.slot = q.slot) : p = q := by
  rw [mem_installedPackages_iff] at hp hq
  rw [hslot, hq] at hp
  exact (Option.some.inj hp).symm

theorem isInstalled_iff {b : Build} :
    ix.isInstalled b ↔ ∃ p ∈ ix.installedPackages, p.build = b := by
  unfold isInstalled installedEntry?
  rw [Option.isSome_filter, Option.any_eq_true]
  constructor
  · rintro ⟨entry, hentry, hbuild⟩
    have hbuild : entry.package.build = b := of_decide_eq_true hbuild
    refine ⟨entry.package, ?_, hbuild⟩
    unfold installedPackages installedEntries
    exact List.mem_map_of_mem (mem_values_iff.2 ⟨_, hentry⟩)
  · rintro ⟨p, hp, rfl⟩
    rw [mem_installedPackages_iff] at hp
    obtain ⟨entry, hentry, rfl⟩ := Option.map_eq_some_iff.1 hp
    exact ⟨entry, hentry, decide_eq_true rfl⟩

theorem package_installedEntry? {p : Package} (hp : p ∈ ix.installedPackages) :
    (ix.installedEntry? p.build).map Entry.package = some p := by
  rw [mem_installedPackages_iff] at hp
  obtain ⟨entry, hentry, hpackage⟩ := Option.map_eq_some_iff.1 hp
  unfold installedEntry?
  rw [show ix.installed[p.build.slot]? = some entry from hentry, Option.filter_some, if_pos]
  · rw [Option.map_some, hpackage]
  · exact decide_eq_true (congrArg Package.build hpackage)

/-! ## Queries -/

/-- The package is known from the side that the filter asks for, and not hidden there. -/
def Answers (ix : Index) (f : Filter) (p : Package) : Prop :=
  f.selects p ∧
    ((f.side ≠ some .offered ∧ p ∈ ix.installedPackages) ∨
      (f.side ≠ some .installed ∧ p ∈ ix.offeredPackages ∧
        (f.withExcluded ∨ ix.isExcluded p.build = false)))

/-- What a query sorts is what answers it. -/
theorem mem_found_iff {f : Filter} {p : Package} :
    p ∈ (if f.side = some .offered then [] else ix.installedPackages.filter f.selects) ++
        (if f.side = some .installed then []
          else ix.offeredPackages.filter fun p =>
            f.selects p && (f.withExcluded || !ix.isExcluded p.build)) ↔
      ix.Answers f p := by
  unfold Answers
  rw [List.mem_append]
  split <;> split <;> simp_all <;> tauto

theorem mem_of_mem_query {f : Filter} {p : Package} (h : p ∈ ix.query f) : ix.Answers f p := by
  unfold query at h
  have hmem := (dropRepeats_sublist _).subset h
  rw [List.mem_mergeSort] at hmem
  exact mem_found_iff.1 hmem

theorem exists_mem_query {f : Filter} {p : Package} (h : ix.Answers f p) :
    ∃ q ∈ ix.query f, q.SameOffer p := by
  obtain ⟨q, hq, heq⟩ : ∃ q ∈ ix.query f, q = p ∨ decide (q.SameOffer p) := by
    refine exists_mem_dropRepeats ?_
    rw [List.mem_mergeSort]
    exact mem_found_iff.2 h
  refine ⟨q, hq, ?_⟩
  rcases heq with rfl | hsame
  · exact ⟨rfl, rfl⟩
  · exact of_decide_eq_true hsame

theorem mem_query_installed_iff {f : Filter} (hside : f.side = some .installed) {p : Package} :
    p ∈ ix.query f ↔ f.selects p ∧ p ∈ ix.installedPackages := by
  have hanswers (q : Package) (hq : ix.Answers f q) : f.selects q ∧ q ∈ ix.installedPackages := by
    rcases hq with ⟨hsel, ⟨-, hmem⟩ | ⟨hne, -⟩⟩
    · exact ⟨hsel, hmem⟩
    · exact absurd hside hne
  constructor
  · intro h
    exact hanswers p (mem_of_mem_query h)
  · rintro ⟨hsel, hmem⟩
    have hp : ix.Answers f p := ⟨hsel, .inl ⟨by rw [hside]; decide, hmem⟩⟩
    obtain ⟨q, hq, hsame⟩ := exists_mem_query hp
    have hslot : q.slot = p.slot := congrArg Build.slot hsame.1
    rw [installed_unique (hanswers q (mem_of_mem_query hq)).2 hmem hslot] at hq
    exact hq

theorem nodup_installedPackages : ix.installedPackages.Nodup := by
  have hslots := nodup_map_values (fun entry : Entry => entry.package.slot) ix.slot_eq
  unfold installedPackages installedEntries
  rw [List.Nodup, List.pairwise_map] at hslots ⊢
  exact hslots.imp fun hne heq => hne (congrArg Package.slot heq)

theorem nodup_query_installed {f : Filter} (hside : f.side = some .installed) :
    (ix.query f).Nodup := by
  unfold query
  refine List.Nodup.sublist (dropRepeats_sublist _) ?_
  rw [(List.mergeSort_perm _ _).nodup_iff, hside, if_neg (by decide), if_pos rfl, List.append_nil]
  exact nodup_installedPackages.filter _

/-! ## What is offered -/

theorem isSome_offeredMetadata? {p : Package}
    (h : ∃ q ∈ ix.offeredPackages, q.build = p.build) : (ix.offeredMetadata? p).isSome := by
  unfold offeredMetadata?
  split
  · rfl
  · obtain ⟨q, hq, hbuild⟩ := h
    obtain ⟨entry, hentry, rfl⟩ := List.mem_map.1 hq
    rw [Option.isSome_map, List.find?_isSome]
    exact ⟨entry, hentry, decide_eq_true hbuild⟩

end Index

end Provision
