import Provision.Proofs.Offers
import Provision.Proofs.Package
import Provision.Proofs.Values
import Provision.Universe

/-!
# Saved universes

Saving an index writes its entries with the builds as texts, and loading reads the builds back. The
rest of an entry is kept as it is, and putting the entries of an index into an empty one gives the
same entries (`entries_ofEntries`). So a saved universe loads back exactly when each build in it is
read as itself, that is if it is legible (`loadsBack_iff`).

The other direction has to exclude that illegible builds are read as one another. This cannot go on
in a circle, because each is read as a lighter one (`legible_of_forall_read`).
-/

namespace Provision

namespace UniverseEntry

/-- What a written entry says; the repository counts if it names none. -/
def read (repo : String) (w : UniverseEntry) : Except ParseError Entry :=
  return ⟨← w.package repo, w.metadata⟩

theorem read_eq_ok_iff {repo : String} {w : UniverseEntry} {entry : Entry} :
    w.read repo = .ok entry ↔ ∃ p, Package.parse w.nevra = .ok p ∧
      (⟨⟨p.build, w.repo.getD repo, w.checksum⟩, w.metadata⟩ : Entry) = entry := by
  constructor
  · intro h
    obtain ⟨package, hpackage, heq⟩ := bind_eq_ok.1 h
    obtain ⟨p, hp, hread⟩ := bind_eq_ok.1 hpackage
    cases hread
    cases heq
    exact ⟨p, hp, rfl⟩
  · rintro ⟨p, hp, rfl⟩
    exact bind_eq_ok.2 ⟨_, bind_eq_ok.2 ⟨p, hp, rfl⟩, rfl⟩

theorem read_ofEntry {entry : Entry} (h : entry.package.build.IsRead)
    (hlegible : entry.package.build.Legible) (repo : String) :
    (ofEntry entry).read repo = .ok entry := by
  obtain ⟨p, hp, hbuild⟩ := (Package.parse_nevra_iff h).2 hlegible
  refine read_eq_ok_iff.2 ⟨p, hp, ?_⟩
  rw [hbuild]
  rfl

end UniverseEntry

namespace Index

/-! ## Indexes made of entries -/

/-- The index of what is installed and what is offered, put in one after the other. -/
def ofEntries (installed offered : List Entry) : Index :=
  offered.foldl (fun ix entry => ix.addOffered entry.package entry.metadata)
    (installed.foldl (fun ix entry => ix.addInstalled entry.package entry.metadata) {})

theorem ofUniverse_eq_ok_iff {u : Universe} {ix : Index} :
    ofUniverse u = .ok ix ↔ ∃ installed offered,
      List.Forall₂ (fun w entry => w.read systemRepo = .ok entry) u.installed installed ∧
      List.Forall₂ (fun w entry => w.read availableRepo = .ok entry) u.available offered ∧
      ofEntries installed offered = ix := by
  have hstep (add : Index → Package → Metadata → Index) (repo : String) :
      (fun (ix : Index) (w : UniverseEntry) =>
        (return add ix (← w.package repo) w.metadata : Except ParseError Index)) =
      fun ix w => do
        return (fun ix (entry : Entry) => add ix entry.package entry.metadata) ix (← w.read repo) := by
    funext ix w
    unfold UniverseEntry.read
    rcases w.package repo <;> rfl
  unfold ofUniverse
  rw [hstep addInstalled, hstep addOffered]
  constructor
  · intro h
    obtain ⟨middle, hinstalled, hoffered⟩ := bind_eq_ok.1 h
    obtain ⟨installed, hin, rfl⟩ := foldlM_eq_ok_iff.1 hinstalled
    obtain ⟨offered, hof, heq⟩ := foldlM_eq_ok_iff.1 hoffered
    exact ⟨installed, offered, hin, hof, heq⟩
  · rintro ⟨installed, offered, hin, hof, heq⟩
    exact bind_eq_ok.2 ⟨_, foldlM_eq_ok_iff.2 ⟨installed, hin, rfl⟩,
      foldlM_eq_ok_iff.2 ⟨offered, hof, heq⟩⟩

/-- What holds of an index into which only packages of the two lists were put. -/
structure MadeOf (ix : Index) (installed offered : List Package) : Prop where
  installed : ∀ (slot : Slot) (entry : Entry), ix.installed[slot]? = some entry →
    entry.package ∈ installed ∧ entry.metadata.reason.isSome
  offered : ∀ (key : Offer) (entry : Entry), ix.offered[key]? = some entry →
    entry.package ∈ offered ∧ entry.package.offer = key

section MadeOf

variable {ix : Index} {installed offered : List Package} (h : ix.MadeOf installed offered)
  {p : Package}

include h

theorem MadeOf.addInstalled (hp : p ∈ installed) (metadata : Metadata) :
    (ix.addInstalled p metadata).MadeOf installed offered := by
  refine ⟨fun slot entry hentry => ?_, h.offered⟩
  unfold Index.addInstalled occupy at hentry
  dsimp only at hentry
  rw [Std.TreeMap.getElem?_insert] at hentry
  split at hentry
  · cases hentry
    exact ⟨hp, rfl⟩
  · exact h.installed slot entry hentry

theorem MadeOf.addOffered (hp : p ∈ offered) (metadata : Metadata) :
    (ix.addOffered p metadata).MadeOf installed offered := by
  refine ⟨h.installed, fun key entry hentry => ?_⟩
  unfold Index.addOffered at hentry
  dsimp only at hentry
  rw [Std.TreeMap.getElem?_insert] at hentry
  split at hentry
  · rename_i heq
    obtain rfl := Std.LawfulEqOrd.eq_of_compare heq
    cases hentry
    rcases hknown : ix.offered[p.offer]? with _ | known
    · exact ⟨hp, rfl⟩
    · exact h.offered p.offer known hknown
  · exact h.offered key entry hentry

theorem MadeOf.mem_installed {entry : Entry} (hentry : entry ∈ ix.installedEntries) :
    entry.package ∈ installed := by
  obtain ⟨slot, hslot⟩ := mem_values_iff.1 hentry
  exact (h.installed slot entry hslot).1

theorem MadeOf.mem_offered {entry : Entry} (hentry : entry ∈ ix.offeredEntries) :
    entry.package ∈ offered := by
  obtain ⟨key, hkey⟩ := mem_values_iff.1 hentry
  exact (h.offered key entry hkey).1

end MadeOf

theorem madeOf_ofEntries (installed offered : List Entry) :
    (ofEntries installed offered).MadeOf (installed.map Entry.package)
      (offered.map Entry.package) := by
  have hempty : ({} : Index).MadeOf (installed.map Entry.package) (offered.map Entry.package) := by
    constructor
    · intro slot entry h
      cases h
    · intro key entry h
      cases h
  refine List.foldlRecOn (motive := fun ix : Index => ix.MadeOf _ _) offered _
    (List.foldlRecOn (motive := fun ix : Index => ix.MadeOf _ _) installed _ hempty ?_) ?_
  · intro ix hix entry hentry
    exact hix.addInstalled (List.mem_map_of_mem hentry) entry.metadata
  · intro ix hix entry hentry
    exact hix.addOffered (List.mem_map_of_mem hentry) entry.metadata

/-! ## Putting the entries of an index into an empty one -/

theorem addInstalled_eq_occupy {entry : Entry} (h : entry.metadata.reason.isSome) (ix : Index) :
    ix.addInstalled entry.package entry.metadata = ix.occupy entry := by
  rcases entry with ⟨package, metadata⟩
  obtain ⟨reason, hreason⟩ := Option.isSome_iff_exists.1 h
  dsimp only at hreason
  unfold addInstalled
  dsimp only
  rw [hreason, Option.getD_some, ← hreason]

theorem addOffered_of_none {entry : Entry} {ix : Index}
    (h : ix.offered[entry.package.offer]? = none) :
    ix.addOffered entry.package entry.metadata =
      { ix with offered := ix.offered.insert entry.package.offer entry } := by
  unfold addOffered
  rw [h]
  rfl

theorem installed_foldl_addInstalled {entries : List Entry}
    (h : ∀ entry ∈ entries, entry.metadata.reason.isSome) (ix : Index) :
    (entries.foldl (fun ix entry => ix.addInstalled entry.package entry.metadata) ix).installed =
      entries.foldl (fun t entry => t.insert entry.package.slot entry) ix.installed := by
  induction entries generalizing ix with
  | nil => rfl
  | cons entry rest ih =>
    rw [List.foldl_cons, List.foldl_cons, ih fun e he => h e (List.mem_cons_of_mem entry he),
      addInstalled_eq_occupy (h entry List.mem_cons_self)]
    rfl

theorem offered_foldl_addInstalled (entries : List Entry) (ix : Index) :
    (entries.foldl (fun ix entry => ix.addInstalled entry.package entry.metadata) ix).offered =
      ix.offered := by
  induction entries generalizing ix with
  | nil => rfl
  | cons entry rest ih => rw [List.foldl_cons, ih]; rfl

theorem installed_foldl_addOffered (entries : List Entry) (ix : Index) :
    (entries.foldl (fun ix entry => ix.addOffered entry.package entry.metadata) ix).installed =
      ix.installed := by
  induction entries generalizing ix with
  | nil => rfl
  | cons entry rest ih => rw [List.foldl_cons, ih]; rfl

theorem offered_foldl_addOffered {entries : List Entry}
    (h : (entries.map fun entry => entry.package.offer).Nodup) {ix : Index}
    (hnew : ∀ entry ∈ entries, ix.offered[entry.package.offer]? = none) :
    (entries.foldl (fun ix entry => ix.addOffered entry.package entry.metadata) ix).offered =
      entries.foldl (fun t entry => t.insert entry.package.offer entry) ix.offered := by
  induction entries generalizing ix with
  | nil => rfl
  | cons entry rest ih =>
    rw [List.map_cons, List.nodup_cons] at h
    rw [List.foldl_cons, List.foldl_cons, addOffered_of_none (hnew entry List.mem_cons_self)]
    refine ih h.2 fun e he => ?_
    dsimp only
    rw [Std.TreeMap.getElem?_insert, if_neg, hnew e (List.mem_cons_of_mem entry he)]
    intro heq
    refine h.1 ?_
    rw [Std.LawfulEqOrd.eq_of_compare heq]
    exact List.mem_map_of_mem he

theorem entries_ofEntries {ix : Index} {installed offered : List Package}
    (h : ix.MadeOf installed offered) :
    (ofEntries ix.installedEntries ix.offeredEntries).installedEntries = ix.installedEntries ∧
      (ofEntries ix.installedEntries ix.offeredEntries).offeredEntries = ix.offeredEntries := by
  have hslot := ix.slot_eq
  have hoffer : ∀ (key : Offer) (entry : Entry), ix.offered[key]? = some entry → entry.package.offer = key :=
    fun key entry hentry => (h.offered key entry hentry).2
  have hreason : ∀ entry ∈ ix.installedEntries, entry.metadata.reason.isSome := by
    intro entry hentry
    obtain ⟨slot, hslot⟩ := mem_values_iff.1 hentry
    exact (h.installed slot entry hslot).2
  unfold ofEntries
  constructor
  · unfold installedEntries at hreason ⊢
    rw [installed_foldl_addOffered, installed_foldl_addInstalled hreason]
    exact values_foldl_insert hslot
  · unfold offeredEntries
    rw [offered_foldl_addOffered (nodup_map_values _ hoffer)]
    · rw [offered_foldl_addInstalled]
      exact values_foldl_insert hoffer
    · intro entry _
      rw [offered_foldl_addInstalled]
      rfl

end Index

/-! ## Reading back -/

/--
If each build of a list is what another one of it is read as, all are read as themselves: otherwise
each one that is not would come from a heavier one.
-/
theorem Build.legible_of_forall_read {builds : List Build} (hread : ∀ b ∈ builds, b.IsRead)
    (hback : ∀ b ∈ builds, ∃ c ∈ builds, ∃ p, Package.parse c.nevra = .ok p ∧ p.build = b) :
    ∀ b ∈ builds, b.Legible := by
  have hle : ∀ b ∈ builds, b.weight ≤ (builds.map weight).sum := fun b hb =>
    List.single_le_sum (fun n _ => Nat.zero_le n) b.weight (List.mem_map_of_mem hb)
  intro b hb
  -- By induction on how much heavier a build of the list could be.
  induction hn : (builds.map weight).sum - b.weight using Nat.strongRecOn generalizing b with
  | ind n ih =>
    obtain ⟨c, hc, p, hp, rfl⟩ := hback b hb
    rcases Package.parse_nevra_cases (hread c hc) hp with ⟨rfl, hlegible⟩ | hlt
    · exact hlegible
    · have hlight := hle c hc
      have hlegible := ih _ (by omega) c hc rfl
      obtain ⟨q, hq, rfl⟩ := (Package.parse_nevra_iff (hread c hc)).2 hlegible
      rw [hq] at hp
      cases hp
      exact hlegible

theorem UniverseEntry.exists_of_mem_read {repo : String} {ws : List UniverseEntry}
    {entries : List Entry} (h : List.Forall₂ (fun w entry => w.read repo = .ok entry) ws entries)
    {p : Package} (hp : p ∈ entries.map Entry.package) :
    ∃ w ∈ ws, ∃ q, Package.parse w.nevra = .ok q ∧ q.build = p.build := by
  obtain ⟨entry, hentry, rfl⟩ := List.mem_map.1 hp
  obtain ⟨w, hw, hread⟩ := exists_of_forall₂ h.flip entry hentry
  obtain ⟨q, hq, rfl⟩ := read_eq_ok_iff.1 hread
  exact ⟨w, hw, q, hq, rfl⟩

namespace Index

theorem isRead_of_ofUniverse {u : Universe} {ix : Index} (h : ofUniverse u = .ok ix) :
    ∀ entry ∈ ix.installedEntries ++ ix.offeredEntries, entry.package.build.IsRead := by
  obtain ⟨installed, offered, hin, hof, rfl⟩ := ofUniverse_eq_ok_iff.1 h
  have hmade := madeOf_ofEntries installed offered
  intro entry hentry
  rcases List.mem_append.1 hentry with hentry | hentry
  · obtain ⟨w, -, q, hq, hbuild⟩ := UniverseEntry.exists_of_mem_read hin (hmade.mem_installed hentry)
    exact hbuild ▸ Package.isRead_of_parse hq
  · obtain ⟨w, -, q, hq, hbuild⟩ := UniverseEntry.exists_of_mem_read hof (hmade.mem_offered hentry)
    exact hbuild ▸ Package.isRead_of_parse hq

/-- The saved index is loaded as one with the same entries, so with the same saved form. -/
def LoadsBack (ix : Index) : Prop :=
  ∃ again, ofUniverse ix.toUniverse = .ok again ∧
    again.installedEntries = ix.installedEntries ∧ again.offeredEntries = ix.offeredEntries ∧
    again.toUniverse = ix.toUniverse

theorem loadsBack_of_legible {ix : Index} {installed offered : List Package}
    (hmade : ix.MadeOf installed offered)
    (hread : ∀ entry ∈ ix.installedEntries ++ ix.offeredEntries, entry.package.build.IsRead)
    (hlegible : ∀ entry ∈ ix.installedEntries ++ ix.offeredEntries, entry.package.build.Legible) :
    ix.LoadsBack := by
  have hback (repo : String) {entries : List Entry}
      (hentries : ∀ entry ∈ entries, entry ∈ ix.installedEntries ++ ix.offeredEntries) :
      List.Forall₂ (fun w entry => UniverseEntry.read repo w = .ok entry) (entries.map .ofEntry)
        entries := by
    rw [List.forall₂_map_left_iff, List.forall₂_same]
    exact fun entry hentry => UniverseEntry.read_ofEntry (hread entry (hentries entry hentry))
      (hlegible entry (hentries entry hentry)) repo
  obtain ⟨hin, hof⟩ := entries_ofEntries hmade
  refine ⟨ofEntries ix.installedEntries ix.offeredEntries, ?_, hin, hof, ?_⟩
  · refine ofUniverse_eq_ok_iff.2 ⟨_, _, hback _ ?_, hback _ ?_, rfl⟩
    · exact fun entry hentry => List.mem_append_left _ hentry
    · exact fun entry hentry => List.mem_append_right _ hentry
  · unfold toUniverse
    rw [hin, hof]

/-- Each build of an index that loads back is what a saved build of the index is read as. -/
theorem LoadsBack.exists_read {ix : Index} (h : ix.LoadsBack) :
    ∀ entry ∈ ix.installedEntries ++ ix.offeredEntries,
      ∃ saved ∈ ix.installedEntries ++ ix.offeredEntries, ∃ p,
        Package.parse saved.package.nevra = .ok p ∧ p.build = entry.package.build := by
  obtain ⟨again, hagain, hin, hof, -⟩ := h
  obtain ⟨installed, offered, hreadin, hreadof, rfl⟩ := ofUniverse_eq_ok_iff.1 hagain
  have hmade := madeOf_ofEntries installed offered
  intro entry hentry
  rcases List.mem_append.1 hentry with hentry | hentry
  · rw [← hin] at hentry
    obtain ⟨w, hw, p, hp⟩ := UniverseEntry.exists_of_mem_read hreadin (hmade.mem_installed hentry)
    obtain ⟨saved, hsaved, rfl⟩ := List.mem_map.1 hw
    exact ⟨saved, List.mem_append_left _ hsaved, p, hp⟩
  · rw [← hof] at hentry
    obtain ⟨w, hw, p, hp⟩ := UniverseEntry.exists_of_mem_read hreadof (hmade.mem_offered hentry)
    obtain ⟨saved, hsaved, rfl⟩ := List.mem_map.1 hw
    exact ⟨saved, List.mem_append_right _ hsaved, p, hp⟩

/-- A saved universe loads back exactly when all builds in it are legible. -/
theorem loadsBack_iff {u : Universe} {ix : Index} (h : ofUniverse u = .ok ix) :
    ix.LoadsBack ↔
      ∀ entry ∈ ix.installedEntries ++ ix.offeredEntries, entry.package.build.Legible := by
  have hread := isRead_of_ofUniverse h
  constructor
  · intro hloads
    have hbuilds : ∀ b ∈ (ix.installedEntries ++ ix.offeredEntries).map fun e => e.package.build,
        b.IsRead := List.forall_mem_map.2 hread
    refine List.forall_mem_map.1 (Build.legible_of_forall_read hbuilds ?_)
    rw [List.forall_mem_map]
    intro entry hentry
    obtain ⟨saved, hsaved, p, hp⟩ := hloads.exists_read entry hentry
    exact ⟨_, List.mem_map_of_mem hsaved, p, hp⟩
  · obtain ⟨installed, offered, -, -, rfl⟩ := ofUniverse_eq_ok_iff.1 h
    exact loadsBack_of_legible (madeOf_ofEntries installed offered) hread

/-! ## A universe that loads back, and one that does not -/

def legibleUniverse : Universe where
  installed := [{ nevra := "lib-c.so-1:2.0-1.x86_64", reason := some .dependency }]
  available := [{ nevra := "app-:2-3.noarch@base", repo := some "updates" }]

def legibleIndex : Index :=
  (({} : Index).addInstalled ⟨⟨"lib-c.so", "x86_64", ⟨1, "2.0", some "1"⟩⟩, systemRepo, none⟩
    { reason := some .dependency }).addOffered
    ⟨⟨"app", "noarch", ⟨0, "2", some "3"⟩⟩, "updates", none⟩ {}

theorem ofUniverse_legible : ofUniverse legibleUniverse = .ok legibleIndex := by
  have hlib : Package.parse "lib-c.so-1:2.0-1.x86_64" =
      .ok ⟨⟨"lib-c.so", "x86_64", ⟨1, "2.0", some "1"⟩⟩, systemRepo, none⟩ := by cbv
  have happ : Package.parse "app-:2-3.noarch@base" =
      .ok ⟨⟨"app", "noarch", ⟨0, "2", some "3"⟩⟩, "base", none⟩ := by cbv
  unfold ofUniverse legibleUniverse UniverseEntry.package
  simp only [List.foldlM, hlib, happ]
  rfl

theorem loadsBack_iff_legible :
    ofUniverse legibleUniverse = .ok legibleIndex ∧ legibleIndex.LoadsBack := by
  have hlib : Build.Legible ⟨"lib-c.so", "x86_64", ⟨1, "2.0", some "1"⟩⟩ := by
    constructor
    · simp [Build.toList_nevra, Evr.toList_text, Evr.epochChars, Evr.body, Nat.toDigits_of_lt_base]
    · simp [Evr.Legible]
  have happ : Build.Legible ⟨"app", "noarch", ⟨0, "2", some "3"⟩⟩ := by
    constructor
    · simp [Build.toList_nevra, Evr.toList_text, Evr.epochChars, Evr.body]
    · have hblank : Text.isBlank '2' = false := by decide
      simp [Evr.Legible, Evr.toList_text, Evr.epochChars, Evr.body, hblank]
  have hentries : legibleIndex.installedEntries ++ legibleIndex.offeredEntries =
      [⟨⟨⟨"lib-c.so", "x86_64", ⟨1, "2.0", some "1"⟩⟩, systemRepo, none⟩,
        { reason := some .dependency }⟩,
        ⟨⟨⟨"app", "noarch", ⟨0, "2", some "3"⟩⟩, "updates", none⟩, {}⟩] := rfl
  refine ⟨ofUniverse_legible, (loadsBack_iff ofUniverse_legible).2 ?_⟩
  rw [hentries, List.forall_mem_cons, List.forall_mem_singleton]
  exact ⟨hlib, happ⟩

/-- The repository behind the last `@` lets another `@` into the name of the build. -/
def strayUniverse : Universe where
  available := [{ nevra := "app@beta-1-1.noarch@base", repo := some "base" }]

def strayIndex : Index :=
  ({} : Index).addOffered ⟨⟨"app@beta", "noarch", ⟨0, "1", some "1"⟩⟩, "base", none⟩ {}

theorem ofUniverse_stray : ofUniverse strayUniverse = .ok strayIndex := by
  have happ : Package.parse "app@beta-1-1.noarch@base" =
      .ok ⟨⟨"app@beta", "noarch", ⟨0, "1", some "1"⟩⟩, "base", none⟩ := by cbv
  unfold ofUniverse strayUniverse UniverseEntry.package
  simp only [List.foldlM, happ]
  rfl

/-- The saved universe is not read at all: what is left of the name has no architecture. -/
theorem ofUniverse_saved_stray :
    ofUniverse strayIndex.toUniverse = .error (.missingArch "app@beta-1-1.noarch") := by
  have hsaved : strayIndex.toUniverse =
      ⟨[], [{ nevra := "app@beta-1-1.noarch", repo := some "base" }]⟩ := by cbv
  have happ : Package.parse "app@beta-1-1.noarch" = .error (.missingArch "app@beta-1-1.noarch") := by
    cbv
  rw [hsaved]
  unfold ofUniverse UniverseEntry.package
  simp only [List.foldlM, happ]
  rfl

theorem not_all_loadBack :
    ¬ ∀ (u : Universe) (ix : Index), ofUniverse u = .ok ix → ix.LoadsBack := by
  intro hall
  obtain ⟨again, hagain, -⟩ := hall strayUniverse strayIndex ofUniverse_stray
  rw [ofUniverse_saved_stray] at hagain
  cases hagain

end Index

end Provision
