import Mathlib
import Provision.Proofs.Offers
import Provision.Proofs.Solver.Runs

/-!
# The search ends

A search is given a number of steps, and could use them up. It never does (`perform_finishes`):
every step of settling, every trial that it makes and every recommendation that it follows decides a
slot that was open and that is either taken or offered (`Decides`), and there are fewer such slots
than steps (`openSlots_lt_steps`).

The one place where this needs an argument is a provider that is tried for a requirement that is not
met. Its slot could be decided and hold that very build, so that trying it would change nothing. But
then the build would meet the requirement already, because all copies of a build list the same
provides (`isDecided_provider`).

So the bound plays no part: any larger number of steps gives the same search, line by line
(`settle_of_le`).
-/

namespace Provision

/-! ## Copies of a build -/

/-- All copies of a build that the index tells about list the same provides. -/
def Index.ProvidesAgree (ix : Index) : Prop :=
  ∀ p q : Package, p.build = q.build →
    (ix.metadata? p).map Metadata.provides = (ix.metadata? q).map Metadata.provides

theorem Index.ProvidesAgree.meets_eq {ix : Index} (h : ix.ProvidesAgree) {p q : Package}
    (hbuild : p.build = q.build) (r : Requirement) : ix.meets p r = ix.meets q r := by
  have hprovides := h p q hbuild
  have hown : p.meets r = q.meets r := by
    unfold Package.meets Package.name Package.evr
    rw [hbuild]
  unfold Index.meets
  rcases hp : ix.metadata? p with _ | m <;> rcases hq : ix.metadata? q with _ | n <;>
    rw [hp, hq] at hprovides
  · exact hown
  · cases hprovides
  · cases hprovides
  · have hprovides : m.provides = n.provides := Option.some.inj hprovides
    show m.meets p r = n.meets q r
    unfold Metadata.meets
    rw [hown, hprovides]

/-- Offers are kept under their own build and repository. -/
def Index.OffersKeyed (ix : Index) : Prop :=
  ∀ kept ∈ ix.offered.toList, kept.2.package.offer = kept.1

/-- All that the index holds, installed or offered. -/
def Index.copies (ix : Index) : List Entry := ix.installedEntries ++ ix.offeredEntries

namespace Index

variable {ix : Index} {p q : Package}

theorem mem_copies_of_installedEntry? {b : Build} {entry : Entry}
    (h : ix.installedEntry? b = some entry) : entry ∈ ix.copies ∧ entry.package.build = b := by
  unfold installedEntry? at h
  rw [Option.filter_eq_some_iff, decide_eq_true_iff] at h
  exact ⟨List.mem_append_left _ (mem_values_iff.2 ⟨_, h.1⟩), h.2⟩

theorem mem_copies_of_offered (hix : ix.OffersKeyed) {entry : Entry}
    (h : ix.offered[p.offer]? = some entry) :
    entry ∈ ix.offeredEntries ∧ entry.package.build = p.build := by
  have hkept := Std.TreeMap.mem_toList_iff_getElem?_eq_some.2 h
  exact ⟨mem_values_iff.2 ⟨_, h⟩, congrArg Offer.build (hix _ hkept)⟩

/-- What is known about a package is what one of the copies of its build says. -/
theorem exists_copy_of_metadata? (hix : ix.OffersKeyed) {m : Metadata}
    (h : ix.metadata? p = some m) :
    ∃ entry ∈ ix.copies, entry.package.build = p.build ∧ entry.metadata = m := by
  have hoffer (h : ix.offeredMetadata? p = some m) :
      ∃ entry ∈ ix.copies, entry.package.build = p.build ∧ entry.metadata = m := by
    unfold offeredMetadata? at h
    split at h
    · rename_i entry hentry
      obtain ⟨hmem, hbuild⟩ := mem_copies_of_offered hix hentry
      exact ⟨entry, List.mem_append_right _ hmem, hbuild, Option.some.inj h⟩
    · obtain ⟨entry, hfind, hmetadata⟩ := Option.map_eq_some_iff.1 h
      exact ⟨entry, List.mem_append_right _ (List.mem_of_find?_eq_some hfind),
        of_decide_eq_true (List.find?_some hfind :), hmetadata⟩
  unfold metadata? at h
  split at h
  · rename_i entry hentry
    obtain ⟨hmem, hbuild⟩ := mem_copies_of_installedEntry? hentry
    split at h
    · exact ⟨entry, hmem, hbuild, Option.some.inj h⟩
    · rcases hoffered : ix.offeredMetadata? p with _ | known
      · rw [hoffered] at h
        exact ⟨entry, hmem, hbuild, Option.some.inj h⟩
      · rw [hoffered] at h
        exact hoffer (hoffered.trans h)
  · exact hoffer h

/-- The index tells about every package of a build that it holds a copy of. -/
theorem isSome_metadata? {entry : Entry} (h : entry ∈ ix.copies)
    (hbuild : entry.package.build = p.build) : (ix.metadata? p).isSome := by
  unfold metadata?
  split
  · split
    · rfl
    · cases ix.offeredMetadata? p <;> rfl
  · rename_i hnone
    rcases List.mem_append.1 h with hinstalled | hoffered
    · have hp : ix.isInstalled p.build :=
        isInstalled_iff.2 ⟨entry.package, List.mem_map_of_mem hinstalled, hbuild⟩
      unfold isInstalled at hp
      rw [hnone] at hp
      cases hp
    · exact isSome_offeredMetadata? ⟨entry.package, List.mem_map_of_mem hoffered, hbuild⟩

/-- It is enough that the copies which the index holds agree. -/
theorem providesAgree_of_copies (hix : ix.OffersKeyed)
    (hcopies : ∀ e ∈ ix.copies, ∀ f ∈ ix.copies, e.package.build = f.package.build →
      e.metadata.provides = f.metadata.provides) : ix.ProvidesAgree := by
  intro p q hbuild
  rcases hp : ix.metadata? p with _ | m <;> rcases hq : ix.metadata? q with _ | n
  · rfl
  · obtain ⟨e, he, heq, -⟩ := exists_copy_of_metadata? hix hq
    have hsome := isSome_metadata? he (heq.trans hbuild.symm)
    rw [hp] at hsome
    cases hsome
  · obtain ⟨e, he, hep, -⟩ := exists_copy_of_metadata? hix hp
    have hsome := isSome_metadata? he (hep.trans hbuild)
    rw [hq] at hsome
    cases hsome
  · obtain ⟨e, he, hep, rfl⟩ := exists_copy_of_metadata? hix hp
    obtain ⟨f, hf, hfq, rfl⟩ := exists_copy_of_metadata? hix hq
    exact congrArg some (hcopies e he f hf (hep.trans (hbuild.trans hfq.symm)))

end Index

namespace Solver

namespace Search

variable {α β : Type}

/-! ## Searches that do not run out of steps -/

/-- The search does not use up its steps. -/
def Finishes (x : Search α) : Prop := x.result ≠ .error .unfinished

theorem finishes_pure (a : α) : (pure a : Search α).Finishes := nofun

theorem finishes_refuse (problems : List Problem) : (refuse problems : Search α).Finishes := by
  intro h
  cases h

theorem Finishes.bind {x : Search α} {f : α → Search β} (hx : x.Finishes)
    (hf : ∀ a, x.result = .ok a → (f a).Finishes) : (x >>= f).Finishes := by
  intro h
  rw [result_bind] at h
  split at h
  · rename_i a ha
    exact hf a ha h
  · rename_i e he
    cases h
    exact hx he

theorem finishes_debug_bind {text : String} {f : Unit → Search β} (hf : (f ()).Finishes) :
    (debug text >>= f).Finishes := by
  intro h
  rw [result_debug_bind] at h
  exact hf h

theorem Finishes.orElse {x : Search α} {next : List Problem → Search α} (hx : x.Finishes)
    (hnext : ∀ found, (next found).Finishes) : (orElse x next).Finishes := by
  intro h
  rw [result_orElse] at h
  split at h
  · exact hnext _ h
  · exact hx h

theorem finishes_firstSuccess {trial : Package → Search α} {packages : List Package}
    (h : ∀ p ∈ packages, (trial p).Finishes) (first : Option (List Problem)) :
    (firstSuccess trial first packages).Finishes := by
  induction packages generalizing first with
  | nil => exact finishes_refuse _
  | cons p rest ih =>
    refine Finishes.orElse ((h p List.mem_cons_self).bind fun a _ => finishes_pure _)
      fun found => ?_
    exact ih (fun q hq => h q (List.mem_cons_of_mem p hq)) _

/-! ## Searches with more steps -/

/-- Unless the first search uses up its steps, the second is the same. -/
def Extends (y x : Search α) : Prop := x.Finishes → y = x

theorem Extends.refl (x : Search α) : x.Extends x := fun _ => rfl

/-- The search with lines written before its own. -/
def after (lines : List Line) (x : Search α) : Search α :=
  ExceptT.mk ⟨(ExceptT.run x).value, lines ++ (ExceptT.run x).lines⟩

theorem bind_congr_of_ok {x : Search α} {f g : α → Search β}
    (h : ∀ a, x.result = .ok a → g a = f a) : (x >>= g) = (x >>= f) := by
  obtain ⟨value, lines⟩ := x
  cases value with
  | error e => rfl
  | ok a => exact congrArg (after lines) (h a rfl)

theorem orElse_congr_of_error {x : Search α} {next next' : List Problem → Search α}
    (h : ∀ found, x.result = .error (.problems found) → next' found = next found) :
    orElse x next' = orElse x next := by
  obtain ⟨value, lines⟩ := x
  rcases value with (found | _) | a
  · exact congrArg (after lines) (h found rfl)
  · rfl
  · rfl

theorem Extends.bind {x y : Search α} {f g : α → Search β} (hx : y.Extends x)
    (hf : ∀ a, (g a).Extends (f a)) : (y >>= g).Extends (x >>= f) := by
  intro h
  have hfinishes : x.Finishes := by
    intro hx
    refine h ?_
    rw [result_bind, hx]
  rw [hx hfinishes]
  refine bind_congr_of_ok fun a ha => hf a fun hfa => h ?_
  rw [result_bind, ha]
  exact hfa

theorem Extends.orElse {x y : Search α} {next next' : List Problem → Search α}
    (hx : y.Extends x) (hnext : ∀ found, (next' found).Extends (next found)) :
    (orElse y next').Extends (orElse x next) := by
  intro h
  have hfinishes : x.Finishes := by
    intro hx
    refine h ?_
    rw [result_orElse, hx]
  rw [hx hfinishes]
  refine orElse_congr_of_error fun found hfound => hnext found fun hn => h ?_
  rw [result_orElse, hfound]
  exact hn

theorem Extends.firstSuccess {trial trial' : Package → Search α}
    (h : ∀ p, (trial' p).Extends (trial p)) (first : Option (List Problem))
    (packages : List Package) :
    (firstSuccess trial' first packages).Extends (firstSuccess trial first packages) := by
  induction packages generalizing first with
  | nil => exact .refl _
  | cons p rest ih =>
    exact ((h p).bind fun a => .refl _).orElse fun found => ih _

end Search

open Model (Reaches)

namespace Scope

variable {s : Scope} {requests : List Request} {m m' : Model}

/-! ## Open slots -/

/-- The slots that are taken, or may be taken by what is offered. -/
def slots (s : Scope) : List Slot := s.installed.keys ++ s.choices.map Package.slot

/-- How many of them the model leaves open. -/
def openSlots (s : Scope) (m : Model) : Nat := s.slots.countP fun slot => !m.isDecided slot

/-- One of the slots is open in the first model and decided in the second. -/
def Decides (s : Scope) (m m' : Model) : Prop :=
  ∃ slot ∈ s.slots, m.isDecided slot = false ∧ m'.isDecided slot

theorem openSlots_lt_steps (m : Model) : s.openSlots m < s.steps := by
  have hle : s.openSlots m ≤ s.slots.length := List.countP_le_length
  unfold slots at hle
  rw [List.length_append, Std.TreeMap.length_keys, List.length_map] at hle
  unfold steps
  omega

/-- Moves open no slot. -/
theorem open_of_reaches {may : Package → Prop} (h : Reaches may m m') {slot : Slot}
    (hopen : m'.isDecided slot = false) : m.isDecided slot = false := by
  by_contra hdecided
  have hdecided := Bool.of_not_eq_false hdecided
  rw [(h.sameAt hdecided).isDecided, hdecided] at hopen
  cases hopen

theorem openSlots_lt_of_decides {may : Package → Prop} (h : Reaches may m m')
    (hdecides : s.Decides m m') : s.openSlots m' < s.openSlots m := by
  obtain ⟨slot, hslot, hopen, hdecided⟩ := hdecides
  have hle (slots : List Slot) : slots.countP (fun slot => !m'.isDecided slot) ≤
      slots.countP fun slot => !m.isDecided slot := by
    refine List.countP_mono_left fun slot _ hopen => ?_
    rw [Bool.not_eq_true'] at hopen ⊢
    exact open_of_reaches h hopen
  obtain ⟨before, after, hsplit⟩ := List.append_of_mem hslot
  have hbefore := hle before
  have hafter := hle after
  unfold openSlots
  rw [hsplit, List.countP_append, List.countP_append,
    List.countP_cons_of_neg (by rw [hdecided]; exact Bool.false_ne_true),
    List.countP_cons_of_pos (by rw [hopen]; rfl)]
  omega

theorem decides_of_choice {p : Package} (hp : p ∈ s.choices) (hopen : m.isDecided p.slot = false)
    (hdecided : m'.isDecided p.slot) : s.Decides m m' :=
  ⟨p.slot, List.mem_append_right _ (List.mem_map_of_mem hp), hopen, hdecided⟩

/-- A slot that was decided stays so. -/
theorem Decides.reaches {may : Package → Prop} {last : Model} (hdecides : s.Decides m m')
    (h : Reaches may m' last) : s.Decides m last := by
  obtain ⟨slot, hslot, hopen, hdecided⟩ := hdecides
  exact ⟨slot, hslot, hopen, (h.sameAt hdecided).isDecided.trans hdecided⟩

theorem Disciplined.reaches (hm : s.Disciplined requests m) (h : Reaches (s.Supply requests) m m') :
    s.Disciplined requests m' := by
  induction h with
  | refl => exact hm
  | tail _ hmove ih => exact ih.move hmove

/-- What is present in an open slot is what is installed there. -/
theorem Disciplined.decides (hm : s.Disciplined requests m) {p : Package} (hp : p ∈ m.packages)
    (hopen : m.isDecided p.slot = false) (hdecided : m'.isDecided p.slot) : s.Decides m m' := by
  have hinstalled := hm.keyed.mem_packages_iff.1 hp
  rw [hm.open_eq p.slot hopen] at hinstalled
  refine ⟨p.slot, List.mem_append_left _ (Std.TreeMap.mem_keys.2 ?_), hopen, hdecided⟩
  rw [Std.TreeMap.mem_iff_isSome_getElem?, hinstalled]
  rfl

/-! ## Every change decides a slot -/

theorem mem_of_victimOf? {p other : Package} {r : Requirement}
    (h : s.victimOf? m p = some (r, other)) : other ∈ m.packages := by
  unfold victimOf? at h
  obtain ⟨obsolete, -, hfind⟩ := List.exists_of_findSome?_eq_some h
  obtain ⟨found, hfound, heq⟩ := Option.map_eq_some_iff.1 hfind
  cases heq
  exact List.mem_of_find?_eq_some hfound

theorem applyObsoletes_decides (hm : s.Disciplined requests m)
    (h : (s.applyObsoletes m).result = .ok (some m')) : s.Decides m m' := by
  obtain ⟨p, -, obsolete, other, hvictim, hopen, rfl⟩ := applyObsoletes_eq_some h
  exact hm.decides (mem_of_victimOf? hvictim) hopen (Model.isDecided_decide_self _ _ _)

theorem mem_of_mem_clashes {c : Clash} (h : c ∈ s.clashes m) :
    c.package ∈ m.packages ∧ c.other ∈ m.packages := by
  unfold clashes at h
  obtain ⟨p, hp, h⟩ := List.mem_flatMap.1 h
  obtain ⟨conflict, -, h⟩ := List.mem_flatMap.1 h
  obtain ⟨other, hother, rfl⟩ := List.mem_map.1 h
  exact ⟨hp, (List.mem_filter.1 hother).1⟩

theorem resolveConflicts_decides (hm : s.Disciplined requests m)
    (h : (s.resolveConflicts m).result = .ok (some m')) : s.Decides m m' := by
  obtain ⟨c, hclash, slot, hside, rfl⟩ := resolveConflicts_eq_some h
  obtain ⟨hpackage, hother⟩ := mem_of_mem_clashes hclash
  obtain ⟨herasable, hslot⟩ := erasableSide?_cases hside
  have hopen := (isErasable_cases herasable).1
  have hdecided : (s.erase m slot .dependency).isDecided slot := Model.isDecided_decide_self _ _ _
  rcases hslot with rfl | rfl
  · exact hm.decides hother hopen hdecided
  · exact hm.decides hpackage hopen hdecided

/-- A need that is to be mended is that of a present package, and nothing present meets it. -/
theorem firstBroken?_cases {need : Need} (h : s.firstBroken? m = some need) :
    need.package ∈ m.packages ∧ s.satisfied m.packages need.requirement = false := by
  unfold firstBroken? at h
  obtain ⟨p, hp, hfind⟩ := List.exists_of_findSome?_eq_some h
  obtain ⟨r, hr, rfl⟩ := Option.map_eq_some_iff.1 hfind
  have hbroken := List.find?_some hr
  unfold isBroken at hbroken
  rw [Bool.and_eq_true, Bool.not_eq_true'] at hbroken
  exact ⟨hp, hbroken.1⟩

theorem unsatisfied_of_mem_missingRecommends {need : Need} (h : need ∈ s.missingRecommends m) :
    s.satisfied m.packages need.requirement = false := by
  unfold missingRecommends at h
  obtain ⟨p, -, h⟩ := List.mem_flatMap.1 h
  obtain ⟨r, hr, rfl⟩ := List.mem_map.1 h
  have hunmet := (List.mem_filter.1 hr).2
  rw [Bool.not_eq_true'] at hunmet
  exact hunmet

/-- A provider of what is not met is not present, so its slot is open. -/
theorem isDecided_provider (hix : s.index.ProvidesAgree) (hm : m.Keyed) {r : Requirement}
    (hunmet : s.satisfied m.packages r = false) {p : Package} (hp : p ∈ s.providers m r) :
    m.isDecided p.slot = false := by
  obtain ⟨-, hopen | ⟨q, hq, hbuild⟩, hmeets⟩ := mem_providers_cases hp
  · exact hopen
  · exfalso
    unfold satisfied at hunmet
    rw [List.any_eq_false] at hunmet
    refine hunmet q ?_ ?_
    · have hslot : q.slot = p.slot := congrArg Build.slot hbuild
      rw [hm.mem_packages_iff, hslot]
      exact hq
    · rw [hix.meets_eq hbuild]
      exact hmeets

theorem Remedy.decides (hix : s.index.ProvidesAgree) (hm : s.Disciplined requests m) {need : Need}
    (hneed : s.firstBroken? m = some need) (h : s.Remedy m need m') : s.Decides m m' := by
  obtain ⟨hpackage, hunmet⟩ := firstBroken?_cases hneed
  have herase (huntouched : s.isUntouched m need.package.slot) :
      s.Decides m (s.erase m need.package.slot .dependency) :=
    hm.decides hpackage (open_of_isUntouched huntouched) (Model.isDecided_decide_self _ _ _)
  cases h with
  | goAlong hgoes => exact herase (isUntouched_of_goesAlong hgoes)
  | provide _ hp hplace =>
    exact decides_of_choice (mem_providers hp) (isDecided_provider hix hm.keyed hunmet hp)
      (place_holds hplace).2
  | upgrade _ huntouched hp hslot _ hplace =>
    exact decides_of_choice hp (hslot ▸ open_of_isUntouched huntouched) (place_holds hplace).2
  | erase _ huntouched => exact herase huntouched

section Settling

variable {settle : Model → Search Model} (hsettle : s.Settles (s.Supply requests) settle)
  (hix : s.index.ProvidesAgree) (hm : s.Disciplined requests m)

include hsettle hix hm

theorem repairRequires_decides (h : (s.repairRequires settle m).result = .ok (some m')) :
    s.Decides m m' := by
  obtain ⟨need, hneed, next, hremedy, hnext⟩ := repairRequires_eq_some h
  have hdecides := hremedy.decides hix hm hneed
  rcases hnext with rfl | hnext
  · exact hdecides
  · have hreaches : Reaches (s.Supply requests) m next :=
      hremedy.reaches (fun _ hp => .inl hp) hm.keyed
    exact hdecides.reaches (hsettle (hm.keyed.reaches hreaches) hnext).1

theorem followOne_decides {needs : List Need}
    (hneeds : ∀ need ∈ needs, s.satisfied m.packages need.requirement = false)
    (h : (s.followOne settle m needs).result = .ok (some m')) : s.Decides m m' := by
  obtain ⟨need, hneed, p, hp, placed, hplace, hplaced⟩ := followOne_eq_some h
  have hchoice := mem_providers hp
  have hopen := isDecided_provider hix hm.keyed (hneeds need hneed) hp
  have hdecides : s.Decides m placed := decides_of_choice hchoice hopen (place_holds hplace).2
  have hreaches : Reaches (s.Supply requests) m placed :=
    place_reaches hm.keyed (.inl hchoice) hplace
  exact hdecides.reaches (hsettle (hm.keyed.reaches hreaches) hplaced).1

end Settling

/-! ## Fewer open slots than steps are enough -/

/-- With fewer slots open than the bound the search that goes on after a trial finishes. -/
def FinishesBelow (s : Scope) (requests : List Request) (bound : Nat)
    (settle : Model → Search Model) : Prop :=
  ∀ ⦃m : Model⦄, s.Disciplined requests m → s.openSlots m < bound → (settle m).Finishes

section Finishing

variable {settle : Model → Search Model} {bound : Nat}
  (hfinishes : s.FinishesBelow requests bound settle) (hm : s.Disciplined requests m)

include hfinishes hm

theorem attempt_finishes {p : Package} {reason : Reason} (hp : s.Supply requests p)
    (hbound : ∀ placed, s.place m p reason = .ok placed → s.openSlots placed < bound) :
    (s.attempt settle m reason p).Finishes := by
  unfold attempt
  split
  · rename_i placed hplace
    exact hfinishes (hm.reaches (place_reaches hm.keyed hp hplace)) (hbound placed hplace)
  · exact Search.finishes_refuse _

/-- The slot of the package is decided by the trial, so it may go on with one step less. -/
theorem attempt_finishes_of_open {p : Package} {reason : Reason} (hp : p ∈ s.choices)
    (hopen : m.isDecided p.slot = false) (hbound : s.openSlots m ≤ bound) :
    (s.attempt settle m reason p).Finishes := by
  have hsupply : s.Supply requests p := .inl hp
  refine attempt_finishes hfinishes hm hsupply fun placed hplace => ?_
  have hdecides : s.Decides m placed := decides_of_choice hp hopen (place_holds hplace).2
  have hless := openSlots_lt_of_decides (place_reaches hm.keyed hsupply hplace) hdecides
  omega

theorem repairWithoutProvider_finishes {need : Need} {untouched : Bool} {refusal : List Problem}
    (hopen : untouched → m.isDecided need.package.slot = false) (hbound : s.openSlots m ≤ bound) :
    (s.repairWithoutProvider settle m need untouched refusal).Finishes := by
  unfold repairWithoutProvider
  split
  · rename_i huntouched
    refine Search.Finishes.orElse ?_ fun found => ?_
    · refine (Search.finishes_firstSuccess (fun q hq => ?_) none).bind fun _ _ =>
        Search.finishes_pure _
      obtain ⟨hchoice, hslot⟩ := mem_upgradesOf hq
      exact attempt_finishes_of_open hfinishes hm hchoice (hslot ▸ hopen huntouched) hbound
    · split
      · exact Search.finishes_debug_bind (Search.finishes_pure _)
      · exact Search.finishes_refuse _
  · exact Search.finishes_refuse _

theorem repairRequires_finishes (hix : s.index.ProvidesAgree) (hbound : s.openSlots m ≤ bound) :
    (s.repairRequires settle m).Finishes := by
  unfold repairRequires
  split
  · exact Search.finishes_pure _
  · rename_i need hfirst
    obtain ⟨-, hunmet⟩ := firstBroken?_cases hfirst
    refine Search.Finishes.bind ?_ fun _ _ => Search.finishes_pure _
    unfold repair
    dsimp only
    split
    · exact Search.finishes_debug_bind (Search.finishes_pure _)
    · refine Search.Finishes.orElse ?_ fun found => ?_
      · refine (Search.finishes_firstSuccess (fun q hq => ?_) none).bind fun _ _ =>
          Search.finishes_debug_bind (Search.finishes_pure _)
        exact attempt_finishes_of_open hfinishes hm (mem_providers hq)
          (isDecided_provider hix hm.keyed hunmet hq) hbound
      · exact repairWithoutProvider_finishes hfinishes hm open_of_isUntouched hbound

theorem followOne_finishes (hall : ∀ m : Model, s.openSlots m < bound) (needs : List Need) :
    (s.followOne settle m needs).Finishes := by
  induction needs with
  | nil => exact Search.finishes_pure _
  | cons need rest ih =>
    unfold followOne
    refine Search.Finishes.orElse ?_ fun found => Search.finishes_debug_bind ih
    refine (Search.finishes_firstSuccess (fun q hq => ?_) none).bind fun _ _ =>
      Search.finishes_debug_bind (Search.finishes_pure _)
    exact attempt_finishes hfinishes hm (.inl (mem_providers hq)) fun placed _ => hall placed

end Finishing

theorem applyObsoletes_finishes : (s.applyObsoletes m).Finishes := by
  unfold applyObsoletes
  dsimp only
  split
  · exact Search.finishes_pure _
  · split
    · exact Search.finishes_refuse _
    · exact Search.finishes_debug_bind (Search.finishes_pure _)

theorem resolveConflicts_finishes : (s.resolveConflicts m).Finishes := by
  unfold resolveConflicts
  dsimp only
  split
  · exact Search.finishes_debug_bind (Search.finishes_pure _)
  · split
    · exact Search.finishes_pure _
    · exact Search.finishes_refuse _

/-- By induction on the steps: what each leads to has one open slot less. -/
theorem settle_finishes (hix : s.index.ProvidesAgree) (steps : Nat) :
    s.FinishesBelow requests steps (s.settle steps) := by
  induction steps with
  | zero =>
    intro m hm hbound
    exact absurd hbound (Nat.not_lt_zero _)
  | succ steps ih =>
    intro m hm hbound
    have hsettle : s.Settles (s.Supply requests) (s.settle steps) :=
      settle_reaches (fun p hp => .inl hp) steps
    have hnext {next : Model} (hreaches : Reaches (s.Supply requests) m next)
        (hdecides : s.Decides m next) : (s.settle steps next).Finishes := by
      have hless := openSlots_lt_of_decides hreaches hdecides
      exact ih (hm.reaches hreaches) (by omega)
    unfold settle
    refine applyObsoletes_finishes.bind fun o ho => ?_
    rcases o with _ | next
    · refine resolveConflicts_finishes.bind fun o ho => ?_
      rcases o with _ | next
      · refine (repairRequires_finishes ih hm hix (by omega)).bind fun o ho => ?_
        rcases o with _ | next
        · exact Search.finishes_pure _
        · exact hnext (repairRequires_reaches hsettle (fun p hp => .inl hp) hm.keyed ho)
            (repairRequires_decides hsettle hix hm ho)
      · exact hnext (.single (resolveConflicts_move ho)) (resolveConflicts_decides hm ho)
    · exact hnext (.single (applyObsoletes_move ho)) (applyObsoletes_decides hm ho)

/-- Following recommendations comes to an end, since each one decides a slot. -/
theorem followRecommends_finishes (hix : s.index.ProvidesAgree) (hm : s.Disciplined requests m)
    {bound steps : Nat} (hbound : s.steps ≤ bound) (hopen : s.openSlots m < steps) :
    (s.followRecommends (s.settle bound) steps m).Finishes := by
  induction steps generalizing m with
  | zero => exact absurd hopen (Nat.not_lt_zero _)
  | succ steps ih =>
    have hsettle : s.Settles (s.Supply requests) (s.settle bound) :=
      settle_reaches (fun p hp => .inl hp) bound
    have hall (m : Model) : s.openSlots m < bound := (openSlots_lt_steps m).trans_le hbound
    unfold followRecommends
    refine (followOne_finishes (settle_finishes hix bound) hm hall _).bind fun o ho => ?_
    rcases o with _ | next
    · exact Search.finishes_pure _
    · obtain ⟨hreaches, -⟩ := followOne_reaches hsettle (fun p hp => .inl hp) hm.keyed ho
      have hdecides := followOne_decides hsettle hix hm
        (fun need hneed => unsatisfied_of_mem_missingRecommends hneed) ho
      have hless := openSlots_lt_of_decides hreaches hdecides
      exact ih (hm.reaches hreaches) (by omega)

/-! ## Jobs -/

theorem install_finishes (hix : s.index.ProvidesAgree) (hm : s.Disciplined requests m)
    {candidates : List Package} (hcandidates : ∀ p ∈ candidates, s.Supply requests p)
    (rejected : List Problem) : (s.install m rejected candidates).Finishes := by
  have hsettle : s.Settles (s.Supply requests) (s.settle s.steps) :=
    settle_reaches (fun p hp => .inl hp) s.steps
  induction candidates generalizing rejected with
  | nil => exact Search.finishes_refuse _
  | cons c rest ih =>
    have hc := hcandidates c List.mem_cons_self
    unfold install
    refine Search.Finishes.orElse ?_ fun found => Search.finishes_debug_bind ?_
    · refine (attempt_finishes (settle_finishes hix s.steps) hm hc fun placed _ =>
        openSlots_lt_steps placed).bind fun settled hattempt => ?_
      obtain ⟨placed, hplace, hplaced⟩ := attempt_eq_ok hattempt
      have hreaches := place_reaches hm.keyed hc hplace
      have hreaches := hreaches.trans (hsettle (hm.keyed.reaches hreaches) hplaced).1
      exact followRecommends_finishes hix (hm.reaches hreaches) le_rfl (openSlots_lt_steps settled)
    · exact ih (fun p hp => hcandidates p (List.mem_cons_of_mem c hp)) _

theorem perform_finishes (hix : s.index.ProvidesAgree) {request : Request}
    (hrequest : request ∈ requests) (hm : s.Disciplined requests m) :
    (s.perform m request.task).Finishes := by
  have hsettle {start : Model} (h : Model.Steps (s.Supply requests) request.task m start) :
      (s.settle s.steps start).Finishes :=
    settle_finishes hix s.steps (hm.steps hrequest h) (openSlots_lt_steps start)
  unfold perform
  split
  · rename_i candidates htask
    exact install_finishes hix hm
      (fun p hp => .inr ⟨request, hrequest, candidates, htask, hp⟩) _
  · rename_i p htask
    unfold reinstall
    split
    · exact Search.finishes_refuse _
    · rename_i hopen
      exact hsettle (.single (.again htask (Bool.eq_false_iff.2 hopen)))
  · rename_i targets htask
    refine (hsettle ?_).bind fun _ _ => Search.finishes_pure _
    rw [htask]
    exact .head (.attitude true) eraseTargets_steps

theorem Disciplined.withJob (hm : s.Disciplined requests m) (job : Nat) :
    ({ s with job := job } : Scope).Disciplined requests m := by
  refine ⟨hm.keyed, hm.open_eq, fun slot p hp => ?_⟩
  cases hm.origin slot p hp with
  | left hold hunmarked => exact .left hold hunmarked
  | chosen hsupply hnew => exact .chosen hsupply hnew
  | again hrequest htask hmarked => exact .again hrequest htask hmarked

/-- A run of jobs comes to its end, job by job. -/
theorem exists_performAll (hix : s.index.ProvidesAgree) {rest : List Request}
    (hrest : ∀ request ∈ rest, request ∈ requests) (hm : s.Disciplined requests m)
    (problems : List Problem) :
    ∃ m' found, (s.performAll m problems rest).value = .ok (m', found) := by
  induction rest generalizing s m problems with
  | nil => exact ⟨m, problems, rfl⟩
  | cons request rest ih =>
    have hrequest := hrest request List.mem_cons_self
    have hrest (r : Request) (hr : r ∈ rest) : r ∈ requests :=
      hrest r (List.mem_cons_of_mem request hr)
    have hix : ({ s with job := request.job } : Scope).index.ProvidesAgree := hix
    have hm := hm.withJob request.job
    rw [performAll_cons]
    rcases hperform : (({ s with job := request.job } : Scope).perform m request.task).result with
      (found | _) | after
    · exact ih hix hrest hm _
    · exact absurd hperform (perform_finishes hix hrequest hm)
    · have haccepts : s.Accepts ⟨m, request, after⟩ := hperform
      have hsteps := (haccepts.steps hrequest hm.keyed).1
      exact ih hix hrest (hm.steps hrequest hsteps) _

/-! ## The bound plays no part -/

section Extending

open Search (Extends)

variable {settle settle' : Model → Search Model} (h : ∀ m, (settle' m).Extends (settle m))

include h

theorem attempt_extends (m : Model) (reason : Reason) (p : Package) :
    (s.attempt settle' m reason p).Extends (s.attempt settle m reason p) := by
  unfold attempt
  split
  · exact h _
  · exact .refl _

theorem firstAttempt_extends (m : Model) (reason : Reason) (packages : List Package) :
    (Search.firstSuccess (s.attempt settle' m reason) none packages).Extends
      (Search.firstSuccess (s.attempt settle m reason) none packages) :=
  Extends.firstSuccess (attempt_extends h m reason) none packages

theorem repairWithoutProvider_extends (m : Model) (need : Need) (untouched : Bool)
    (refusal : List Problem) :
    (s.repairWithoutProvider settle' m need untouched refusal).Extends
      (s.repairWithoutProvider settle m need untouched refusal) := by
  unfold repairWithoutProvider
  split
  · exact ((firstAttempt_extends h m _ _).bind fun _ => .refl _).orElse fun _ => .refl _
  · exact .refl _

theorem repairRequires_extends (m : Model) :
    (s.repairRequires settle' m).Extends (s.repairRequires settle m) := by
  unfold repairRequires
  split
  · exact .refl _
  · refine Extends.bind ?_ fun _ => .refl _
    unfold repair
    dsimp only
    split
    · exact .refl _
    · exact ((firstAttempt_extends h m _ _).bind fun _ => .refl _).orElse fun _ =>
        repairWithoutProvider_extends h m _ _ _

theorem followOne_extends (m : Model) (needs : List Need) :
    (s.followOne settle' m needs).Extends (s.followOne settle m needs) := by
  induction needs with
  | nil => exact .refl _
  | cons need rest ih =>
    unfold followOne
    exact ((firstAttempt_extends h m _ _).bind fun _ => .refl _).orElse fun _ =>
      .bind (.refl _) fun _ => ih

end Extending

theorem settle_extends (steps : Nat) (m : Model) :
    (s.settle (steps + 1) m).Extends (s.settle steps m) := by
  induction steps generalizing m with
  | zero => exact fun hfinishes => absurd rfl hfinishes
  | succ steps ih =>
    rw [settle, settle]
    refine .bind (.refl _) fun o => ?_
    cases o with
    | some next => exact ih next
    | none =>
      refine .bind (.refl _) fun o => ?_
      cases o with
      | some next => exact ih next
      | none =>
        refine .bind (repairRequires_extends ih m) fun o => ?_
        cases o with
        | some next => exact ih next
        | none => exact .refl _

theorem followRecommends_extends {settle settle' : Model → Search Model}
    (h : ∀ m, (settle' m).Extends (settle m)) (steps : Nat) (m : Model) :
    (s.followRecommends settle' (steps + 1) m).Extends (s.followRecommends settle steps m) := by
  induction steps generalizing m with
  | zero => exact fun hfinishes => absurd rfl hfinishes
  | succ steps ih =>
    rw [followRecommends, followRecommends]
    refine .bind (followOne_extends h m _) fun o => ?_
    cases o with
    | some next => exact ih next
    | none => exact .refl _

/-- Steps beyond those that are enough change nothing, not even what is written to the log. -/
theorem settle_of_le (hix : s.index.ProvidesAgree) (hm : s.Disciplined requests m) {bound : Nat}
    (hbound : s.steps ≤ bound) : s.settle bound m = s.settle s.steps m := by
  induction bound, hbound using Nat.le_induction with
  | base => rfl
  | succ bound hle ih =>
    have hfinishes := settle_finishes hix bound hm ((openSlots_lt_steps m).trans_le hle)
    rw [settle_extends bound m hfinishes, ih]

theorem followRecommends_of_le (hix : s.index.ProvidesAgree) (hm : s.Disciplined requests m)
    {bound : Nat} (hbound : s.steps ≤ bound) :
    s.followRecommends (s.settle bound) bound m =
      s.followRecommends (s.settle s.steps) s.steps m := by
  induction bound, hbound using Nat.le_induction with
  | base => rfl
  | succ bound hle ih =>
    have hfinishes :=
      followRecommends_finishes hix hm hle ((openSlots_lt_steps m).trans_le hle)
    rw [followRecommends_extends (settle_extends bound) bound m hfinishes, ih]

end Scope

/-! ## Solving -/

/--
Solving requests comes to an end if all copies of a build list the same provides. The bounds on
settling and on following recommendations cut nothing short: with larger ones both would be the
same.
-/
theorem solve_returns {ix : Index} (hix : ix.ProvidesAgree) (policy : Policy)
    (requests : List Request) :
    (∃ outcome, (solve ix policy requests).value = .ok outcome) ∧
      ∀ (s : Scope) (job : Nat), s = { Scope.ofIndex ix policy with job := job } →
        ∀ m, s.Disciplined requests m → ∀ bound ≥ s.steps,
          s.settle bound m = s.settle s.steps m ∧
          s.followRecommends (s.settle bound) bound m =
            s.followRecommends (s.settle s.steps) s.steps m := by
  constructor
  · have hstart := (Scope.start_orderly (s := Scope.ofIndex ix policy)
      Scope.slot_installed_ofIndex requests).disciplined
    obtain ⟨m, found, hrun⟩ := Scope.exists_performAll hix (fun _ h => h) hstart []
    unfold solve
    rw [Traced.value_bind, hrun]
    exact ⟨_, rfl⟩
  · rintro s job rfl m hm bound hbound
    exact ⟨Scope.settle_of_le hix hm hbound, Scope.followRecommends_of_le hix hm hbound⟩

/-! ### Two packages that require each other -/

def ring (name repo : String) : Package := ⟨⟨name, "noarch", ⟨0, "1", none⟩⟩, repo, none⟩

/-- Two packages require each other, and one obsoletes a third that is known in two copies. -/
def ringIndex : Index :=
  let charm : Metadata := { provides := [⟨"charm", none⟩] }
  (((({} : Index).addInstalled (ring "relic" systemRepo) charm).addOffered
    (ring "relic" "base") charm).addOffered
    (ring "yang" "base") { requires := [⟨"yin", .any⟩] }).addOffered
    (ring "yin" "base") { requires := [⟨"yang", .any⟩], obsoletes := [⟨"relic", .any⟩] }

def ringRequests : List Request :=
  [⟨0, .install [ring "yin" "base"], false⟩, ⟨1, .remove [ring "relic" systemRepo], false⟩]

theorem providesAgree_ring : ringIndex.ProvidesAgree := by
  refine Index.providesAgree_of_copies ?_ (by decide +kernel)
  unfold Index.OffersKeyed
  decide +kernel

theorem solve_returns_ring :
    ringIndex.ProvidesAgree ∧
      ∃ outcome, (solve ringIndex ⟨true, false⟩ ringRequests).value = .ok outcome :=
  ⟨providesAgree_ring, (solve_returns providesAgree_ring _ _).1⟩

end Solver

end Provision
