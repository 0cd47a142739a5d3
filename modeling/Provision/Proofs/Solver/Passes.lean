import Provision.Proofs.Query
import Provision.Proofs.Solver.Moves

/-!
# What the passes of the search do

A search goes through passes: it applies obsoletes, resolves conflicts, mends a requirement, follows
a recommendation. Here it is said once for each of them what it comes to when it ends with a model,
in terms of the packages that it places and the slots that it clears.

1. Placing a package is a sequence of moves after which its build is present (`place_reaches`,
   `place_holds`).
2. Applying obsoletes and resolving conflicts clear one slot each (`applyObsoletes_eq_some`,
   `resolveConflicts_eq_some`).
3. A requirement is mended by one of its remedies (`Remedy`, `repairRequires_eq_some`), and a
   recommendation is followed by placing a provider (`followOne_eq_some`). What is settled after that
   is left to the search that the pass is given.
-/

namespace Provision.Solver

open Model (Reaches SameAt)

/-- The build is present. -/
def Model.Holds (m : Model) (b : Build) : Prop := ∃ p, m.present[b.slot]? = some p ∧ p.build = b

theorem Model.SameAt.holds {m m' : Model} {b : Build} (h : SameAt b.slot m m') (hb : m.Holds b) :
    m'.Holds b := by
  obtain ⟨p, hp, hbuild⟩ := hb
  exact ⟨p, h.present.trans hp, hbuild⟩

namespace Scope

variable {s : Scope} {may : Package → Prop} {m m' : Model}

/-! ## Placing -/

/-- The packages that have to go before a package can be put into its slot. -/
def displaced (m : Model) (p : Package) : List Package :=
  m.packages.filter fun other => Displaces p.slot other.slot

theorem ne_of_mem_displaced {p q : Package} (h : q ∈ displaced m p) : q.slot ≠ p.slot := by
  have hdisplaces : Displaces p.slot q.slot := of_decide_eq_true (List.mem_filter.1 h).2
  intro heq
  exact hdisplaces.2.1 (congrArg Slot.arch heq)

theorem nodup_displaced (hm : m.Keyed) (p : Package) :
    ((displaced m p).map Package.slot).Nodup :=
  hm.nodup_slots.sublist (List.filter_sublist.map Package.slot)

theorem enter_cases {p : Package} {reason : Reason} (h : s.enter m p reason = .ok m') :
    (∀ q ∈ displaced m p, m.isDecided q.slot = false) ∧
      m' = ((displaced m p).foldl (s.displace p) m).fill p ⟨reason, s.job, .plain⟩ := by
  unfold enter at h
  dsimp only at h
  split at h
  · cases h
  · rename_i hfind
    refine ⟨fun q hq => ?_, (Except.ok.inj h).symm⟩
    exact Bool.eq_false_iff.2 (List.find?_eq_none.1 hfind q hq)

/-- What a placement does: nothing, decide the slot, or fill it. -/
theorem place_cases {p : Package} {reason : Reason} (h : s.place m p reason = .ok m') :
    (m.Holds p.build ∧
      ((m.isDecided p.slot ∧ m' = m) ∨
        (m.isDecided p.slot = false ∧ m' = m.decide p.slot ⟨reason, s.job, .plain⟩))) ∨
    (m.isDecided p.slot = false ∧ (∀ q, m.present[p.slot]? = some q → q.build ≠ p.build) ∧
      (∀ q ∈ displaced m p, m.isDecided q.slot = false) ∧
      m' = ((displaced m p).foldl (s.displace p) m).fill p ⟨reason, s.job, .plain⟩) := by
  unfold place at h
  split at h
  · rename_i current hcurrent
    split at h
    · rename_i hbuild
      refine .inl ⟨⟨current, hcurrent, hbuild⟩, ?_⟩
      split at h
      · rename_i hdecided
        exact .inl ⟨hdecided, (Except.ok.inj h).symm⟩
      · rename_i hdecided
        exact .inr ⟨Bool.eq_false_iff.2 hdecided, (Except.ok.inj h).symm⟩
    · rename_i hbuild
      split at h
      · cases h
      · rename_i hdecided
        refine .inr ⟨Bool.eq_false_iff.2 hdecided, ?_, enter_cases h⟩
        intro q hq
        rw [hcurrent] at hq
        cases hq
        exact hbuild
  · rename_i hnone
    split at h
    · cases h
    · rename_i hdecided
      refine .inr ⟨Bool.eq_false_iff.2 hdecided, ?_, enter_cases h⟩
      intro q hq
      rw [hnone] at hq
      cases hq

theorem displaceAll_sameAt {wanted : Package} {slot : Slot} {gone : List Package}
    (hslot : ∀ q ∈ gone, q.slot ≠ slot) : SameAt slot m (gone.foldl (s.displace wanted) m) := by
  induction gone generalizing m with
  | nil => exact .refl slot m
  | cons q rest ih =>
    have hq : SameAt slot m (s.displace wanted m q) :=
      Model.sameAt_clear m _ (hslot q List.mem_cons_self).symm
    exact hq.trans (ih fun r hr => hslot r (List.mem_cons_of_mem q hr))

theorem displaceAll_reaches {wanted : Package} {gone : List Package}
    (hnodup : (gone.map Package.slot).Nodup) (hopen : ∀ q ∈ gone, m.isDecided q.slot = false) :
    Reaches may m (gone.foldl (s.displace wanted) m) := by
  induction gone generalizing m with
  | nil => exact .refl
  | cons q rest ih =>
    rw [List.map_cons, List.nodup_cons] at hnodup
    have hmove : m.Move may (s.displace wanted m q) :=
      .clear (hopen q List.mem_cons_self) Fate.noConfusion
    refine .head hmove (ih hnodup.2 fun r hr => ?_)
    have hne : r.slot ≠ q.slot := by
      intro heq
      exact hnodup.1 (heq ▸ List.mem_map_of_mem hr)
    exact (Model.sameAt_clear m _ hne).isDecided.trans (hopen r (List.mem_cons_of_mem q hr))

theorem place_reaches {p : Package} {reason : Reason} (hm : m.Keyed) (hp : may p)
    (h : s.place m p reason = .ok m') : Reaches may m m' := by
  rcases place_cases h with ⟨-, ⟨-, rfl⟩ | ⟨hopen, rfl⟩⟩ | ⟨hopen, hnew, hgone, rfl⟩
  · exact .refl
  · exact .single (.keep hopen Fate.noConfusion)
  · have hsame : SameAt p.slot m ((displaced m p).foldl (s.displace p) m) :=
      displaceAll_sameAt fun q hq => ne_of_mem_displaced hq
    refine .tail (displaceAll_reaches (nodup_displaced hm p) hgone) (.fill hp ?_ Fate.noConfusion ?_)
    · exact hsame.isDecided.trans hopen
    · intro q hq
      exact hnew q (hsame.present ▸ hq)

/-- What was placed is present, and its slot is decided. -/
theorem place_holds {p : Package} {reason : Reason} (h : s.place m p reason = .ok m') :
    m'.Holds p.build ∧ m'.isDecided p.slot := by
  rcases place_cases h with ⟨hholds, ⟨hdecided, rfl⟩ | ⟨-, rfl⟩⟩ | ⟨-, -, -, rfl⟩
  · exact ⟨hholds, hdecided⟩
  · refine ⟨?_, Model.isDecided_decide_self m _ _⟩
    obtain ⟨q, hq, hbuild⟩ := hholds
    exact ⟨q, by rw [Model.present_decide]; exact hq, hbuild⟩
  · refine ⟨⟨p, ?_, rfl⟩, Model.isDecided_decide_self _ _ _⟩
    rw [Model.present_fill, if_pos rfl]

/-! ## Obsoletes -/

theorem applyObsoletes_eq_none_iff :
    (s.applyObsoletes m).result = .ok none ↔ ∀ p ∈ s.changed m, s.victimOf? m p = none := by
  have hfind : (s.changed m).findSome? (fun p => (s.victimOf? m p).map (p, ·)) = none ↔
      ∀ p ∈ s.changed m, s.victimOf? m p = none := by
    simp only [List.findSome?_eq_none_iff, Option.map_eq_none_iff]
  rw [← hfind]
  unfold applyObsoletes
  dsimp only
  split
  · rename_i hnone
    exact iff_of_true rfl hnone
  · rename_i hsome
    rw [hsome]
    refine iff_of_false (fun h => ?_) nofun
    split at h
    · cases h
    · rw [Search.result_debug_bind] at h
      cases h

/-- The victim of a changed package is taken off, if its slot is open. -/
theorem applyObsoletes_eq_some (h : (s.applyObsoletes m).result = .ok (some m')) :
    ∃ p ∈ s.changed m, ∃ obsolete other, s.victimOf? m p = some (obsolete, other) ∧
      m.isDecided other.slot = false ∧
      m' = m.clear other.slot ⟨.dependency, s.job, .obsoletedBy p⟩ := by
  unfold applyObsoletes at h
  dsimp only at h
  split at h
  · cases h
  · rename_i p obsolete other hfind
    split at h
    · cases h
    · rename_i hdecided
      rw [Search.result_debug_bind] at h
      obtain ⟨q, hq, hmap⟩ := List.exists_of_findSome?_eq_some hfind
      obtain ⟨victim, hvictim, heq⟩ := Option.map_eq_some_iff.1 hmap
      cases heq
      cases h
      exact ⟨p, hq, obsolete, other, hvictim, Bool.eq_false_iff.2 hdecided, rfl⟩

theorem applyObsoletes_move (h : (s.applyObsoletes m).result = .ok (some m')) :
    m.Move may m' := by
  obtain ⟨p, -, obsolete, other, -, hopen, rfl⟩ := applyObsoletes_eq_some h
  exact .clear hopen Fate.noConfusion

/-! ## Conflicts -/

theorem isErasable_cases {slot : Slot} (h : s.isErasable m slot) :
    m.isDecided slot = false ∧ (s.policy.allowErasing ∨ m.erasesDependents) := by
  unfold isErasable at h
  rw [Bool.and_eq_true, Bool.not_eq_true', Bool.or_eq_true] at h
  exact h

/-- The side that may go is one of the two. -/
theorem erasableSide?_cases {c : Clash} {slot : Slot} (h : s.erasableSide? m c = some slot) :
    s.isErasable m slot ∧ (slot = c.other.slot ∨ slot = c.package.slot) := by
  unfold erasableSide? at h
  split at h
  · rename_i herasable
    cases h
    exact ⟨herasable, .inl rfl⟩
  · split at h
    · rename_i herasable
      cases h
      exact ⟨herasable, .inr rfl⟩
    · cases h

theorem resolveConflicts_eq_none_iff :
    (s.resolveConflicts m).result = .ok none ↔ s.clashes m = [] := by
  constructor
  · intro h
    unfold resolveConflicts at h
    dsimp only at h
    split at h
    · rw [Search.result_debug_bind] at h
      cases h
    · split at h
      · exact List.isEmpty_iff.1 ‹_›
      · cases h
  · intro h
    unfold resolveConflicts
    rw [h]
    rfl

theorem resolveConflicts_eq_some (h : (s.resolveConflicts m).result = .ok (some m')) :
    ∃ c ∈ s.clashes m, ∃ slot, s.erasableSide? m c = some slot ∧
      m' = s.erase m slot .dependency := by
  unfold resolveConflicts at h
  dsimp only at h
  split at h
  · rename_i c slot hfind
    rw [Search.result_debug_bind] at h
    obtain ⟨clash, hclash, hmap⟩ := List.exists_of_findSome?_eq_some hfind
    obtain ⟨side, hside, heq⟩ := Option.map_eq_some_iff.1 hmap
    cases heq
    cases h
    exact ⟨c, hclash, slot, hside, rfl⟩
  · split at h <;> cases h

theorem resolveConflicts_move (h : (s.resolveConflicts m).result = .ok (some m')) :
    m.Move may m' := by
  obtain ⟨c, -, slot, hside, rfl⟩ := resolveConflicts_eq_some h
  exact .clear (isErasable_cases (erasableSide?_cases hside).1).1 Fate.noConfusion

/-! ## Requirements -/

/-- A provider is a choice that meets the requirement and whose slot is open or holds it already. -/
theorem mem_providers_cases {r : Requirement} {p : Package} (h : p ∈ s.providers m r) :
    p ∈ s.choices ∧ (m.isDecided p.slot = false ∨ m.Holds p.build) ∧ s.index.meets p r := by
  unfold providers at h
  dsimp only at h
  have hsorted {p : Package} (h : p ∈ dropRepeats (fun p q => decide (p.build = q.build))
      ((s.choices.filter fun p =>
        (!m.isDecided p.slot || (m.present[p.slot]?).any fun q => q.build = p.build) &&
          s.index.meets p r).mergeSort fun p q => (s.providerOrder p q).isLE)) :
      p ∈ s.choices ∧ (m.isDecided p.slot = false ∨ m.Holds p.build) ∧ s.index.meets p r := by
    have h := (dropRepeats_sublist _).subset h
    rw [List.mem_mergeSort, List.mem_filter, Bool.and_eq_true, Bool.or_eq_true, Bool.not_eq_true',
      Option.any_eq_true] at h
    obtain ⟨hchoice, hfree, hmeets⟩ := h
    refine ⟨hchoice, hfree.imp_right fun ⟨q, hq, hbuild⟩ => ?_, hmeets⟩
    exact ⟨q, hq, of_decide_eq_true hbuild⟩
  split at h
  · exact hsorted (List.mem_of_mem_take h)
  · exact hsorted h

theorem mem_providers {r : Requirement} {p : Package} (h : p ∈ s.providers m r) :
    p ∈ s.choices := (mem_providers_cases h).1

theorem mem_upgradesOf_iff {p q : Package} :
    q ∈ s.upgradesOf p ↔ q ∈ s.choices ∧ q.slot = p.slot ∧ p.evr.Older q.evr := by
  unfold upgradesOf sortByPreference
  rw [List.mem_mergeSort, List.mem_filter, Bool.and_eq_true, decide_eq_true_eq, decide_eq_true_eq]

theorem mem_upgradesOf {p q : Package} (h : q ∈ s.upgradesOf p) :
    q ∈ s.choices ∧ q.slot = p.slot := by
  obtain ⟨hchoice, hslot, -⟩ := mem_upgradesOf_iff.1 h
  exact ⟨hchoice, hslot⟩

/-- What is in the slot was left alone, and may still be dealt with. -/
def isUntouched (s : Scope) (m : Model) (slot : Slot) : Bool :=
  !s.isChanged m slot && !m.isDecided slot

theorem open_of_isUntouched {slot : Slot} (h : s.isUntouched m slot) :
    m.isDecided slot = false := by
  unfold isUntouched at h
  rw [Bool.and_eq_true, Bool.not_eq_true', Bool.not_eq_true'] at h
  exact h.2

/-- The package goes because what it requires is removed. -/
def goesAlong (s : Scope) (m : Model) (need : Need) : Bool :=
  s.isUntouched m need.package.slot && m.erasesDependents

/-- What may be done about a broken requirement. -/
inductive Remedy (s : Scope) (m : Model) (need : Need) : Model → Prop
  | goAlong (hgoes : s.goesAlong m need) :
      Remedy s m need (s.erase m need.package.slot .dependency)
  | provide {p : Package} {m' : Model} (hstays : s.goesAlong m need = false)
      (hp : p ∈ s.providers m need.requirement) (hplace : s.place m p .dependency = .ok m') :
      Remedy s m need m'
  | upgrade {p : Package} {m' : Model} (hstays : s.goesAlong m need = false)
      (huntouched : s.isUntouched m need.package.slot) (hp : p ∈ s.choices)
      (hslot : p.slot = need.package.slot) (hnewer : need.package.evr.Older p.evr)
      (hplace : s.place m p .dependency = .ok m') : Remedy s m need m'
  | erase (hstays : s.goesAlong m need = false) (huntouched : s.isUntouched m need.package.slot)
      (hallowed : s.policy.allowErasing) :
      Remedy s m need (s.erase m need.package.slot .dependency)

theorem isUntouched_of_goesAlong {need : Need} (h : s.goesAlong m need) :
    s.isUntouched m need.package.slot := (Bool.and_eq_true_iff.1 h).1

theorem Remedy.reaches {need : Need} (hmay : ∀ p ∈ s.choices, may p) (hm : m.Keyed)
    (h : s.Remedy m need m') : Reaches may m m' := by
  cases h with
  | goAlong hgoes =>
    exact .single (.clear (open_of_isUntouched (isUntouched_of_goesAlong hgoes)) Fate.noConfusion)
  | provide _ hp hplace => exact place_reaches hm (hmay _ (mem_providers hp)) hplace
  | upgrade _ _ hp _ _ hplace => exact place_reaches hm (hmay _ hp) hplace
  | erase _ huntouched =>
    exact .single (.clear (open_of_isUntouched huntouched) Fate.noConfusion)

section Trials

variable {settle : Model → Search Model}

theorem attempt_eq_ok {reason : Reason} {p : Package}
    (h : (s.attempt settle m reason p).result = .ok m') :
    ∃ placed, s.place m p reason = .ok placed ∧ (settle placed).result = .ok m' := by
  unfold attempt at h
  split at h
  · exact ⟨_, ‹_›, h⟩
  · cases h

/-- The first of some packages that can be placed and settled is one of them. -/
theorem firstAttempt_eq_ok {packages : List Package} {reason : Reason} {p : Package}
    (h : (Search.firstSuccess (s.attempt settle m reason) none packages).result = .ok (p, m')) :
    p ∈ packages ∧ ∃ placed, s.place m p reason = .ok placed ∧ (settle placed).result = .ok m' := by
  obtain ⟨hp, hattempt⟩ := Search.result_firstSuccess_eq_ok h
  exact ⟨hp, attempt_eq_ok hattempt⟩

theorem repair_eq (settle : Model → Search Model) (m : Model) (need : Need) :
    s.repair settle m need =
      if s.goesAlong m need then s.eraseNeedy m need
      else
        Search.orElse
          (do
            let (p, settled) ← Search.firstSuccess (s.attempt settle m .dependency) none
              (s.providers m need.requirement)
            Search.debug
              s!"{p.nevra} satisfies '{need.requirement.text}' for {need.package.nevra}"
            return settled)
          fun found =>
            s.repairWithoutProvider settle m need (s.isUntouched m need.package.slot)
              (Problem.insertAll [needProblem need (s.isChanged m need.package.slot)
                (s.providers m need.requirement)] found) := rfl

theorem result_eraseNeedy (need : Need) :
    (s.eraseNeedy m need).result = .ok (s.erase m need.package.slot .dependency) :=
  Search.result_debug_bind _ _

theorem repairWithoutProvider_remedy {need : Need} {refusal : List Problem}
    (hstays : s.goesAlong m need = false)
    (h : (s.repairWithoutProvider settle m need (s.isUntouched m need.package.slot)
      refusal).result = .ok m') :
    ∃ next, s.Remedy m need next ∧ (next = m' ∨ (settle next).result = .ok m') := by
  unfold repairWithoutProvider at h
  split at h
  · rename_i huntouched
    rcases Search.result_orElse_eq_ok h with h | ⟨-, h⟩
    · obtain ⟨⟨p, settled⟩, hfirst, heq⟩ := Search.result_bind_eq_ok.1 h
      cases heq
      obtain ⟨hp, placed, hplace, hsettle⟩ := firstAttempt_eq_ok hfirst
      obtain ⟨hp, hslot, hnewer⟩ := mem_upgradesOf_iff.1 hp
      exact ⟨placed, .upgrade hstays huntouched hp hslot hnewer hplace, .inr hsettle⟩
    · split at h
      · rename_i hallowed
        rw [result_eraseNeedy] at h
        cases h
        exact ⟨_, .erase hstays huntouched hallowed, .inl rfl⟩
      · cases h
  · cases h

/-- Repairing applies a remedy, and settles the model unless the remedy was to erase. -/
theorem repair_cases {need : Need} (h : (s.repair settle m need).result = .ok m') :
    ∃ next, s.Remedy m need next ∧ (next = m' ∨ (settle next).result = .ok m') := by
  rw [repair_eq] at h
  split at h
  · rename_i hgoes
    rw [result_eraseNeedy] at h
    cases h
    exact ⟨_, .goAlong hgoes, .inl rfl⟩
  · rename_i hstays
    have hstays := Bool.eq_false_iff.2 hstays
    rcases Search.result_orElse_eq_ok h with h | ⟨found, h⟩
    · obtain ⟨⟨p, settled⟩, hfirst, heq⟩ := Search.result_bind_eq_ok.1 h
      rw [Search.result_debug_bind] at heq
      cases heq
      obtain ⟨hp, placed, hplace, hsettle⟩ := firstAttempt_eq_ok hfirst
      exact ⟨placed, .provide hstays hp hplace, .inr hsettle⟩
    · exact repairWithoutProvider_remedy hstays h

/-- The need that is mended is the first broken one. -/
theorem repairRequires_eq_some (h : (s.repairRequires settle m).result = .ok (some m')) :
    ∃ need, s.firstBroken? m = some need ∧ ∃ next, s.Remedy m need next ∧
      (next = m' ∨ (settle next).result = .ok m') := by
  unfold repairRequires at h
  split at h
  · cases h
  · rename_i need hneed
    obtain ⟨_, hrepair, heq⟩ := Search.result_bind_eq_ok.1 h
    cases heq
    exact ⟨need, hneed, repair_cases hrepair⟩

theorem repairRequires_eq_none_iff (settle : Model → Search Model) :
    (s.repairRequires settle m).result = .ok none ↔ s.firstBroken? m = none := by
  constructor
  · intro h
    unfold repairRequires at h
    split at h
    · assumption
    · obtain ⟨_, -, h⟩ := Search.result_bind_eq_ok.1 h
      cases h
  · intro h
    unfold repairRequires
    rw [h]
    rfl

/-! ## Recommendations -/

/-- A recommendation that is followed is one of those that were missing. -/
theorem followOne_eq_some {needs : List Need}
    (h : (s.followOne settle m needs).result = .ok (some m')) :
    ∃ need ∈ needs, ∃ p ∈ s.providers m need.requirement, ∃ placed,
      s.place m p .weakDependency = .ok placed ∧ (settle placed).result = .ok m' := by
  induction needs with
  | nil => cases h
  | cons need rest ih =>
    unfold followOne at h
    rcases Search.result_orElse_eq_ok h with h | ⟨-, h⟩
    · obtain ⟨⟨p, settled⟩, hfirst, heq⟩ := Search.result_bind_eq_ok.1 h
      rw [Search.result_debug_bind] at heq
      cases heq
      obtain ⟨hp, htrial⟩ := firstAttempt_eq_ok hfirst
      exact ⟨need, List.mem_cons_self, p, hp, htrial⟩
    · rw [Search.result_debug_bind] at h
      obtain ⟨other, hother, htrial⟩ := ih h
      exact ⟨other, List.mem_cons_of_mem need hother, htrial⟩

theorem followRecommends_succ_eq_ok {steps : Nat}
    (h : (s.followRecommends settle (steps + 1) m).result = .ok m') :
    m' = m ∨ ∃ next, (s.followOne settle m (s.missingRecommends m)).result = .ok (some next) ∧
      (s.followRecommends settle steps next).result = .ok m' := by
  unfold followRecommends at h
  obtain ⟨o, hfollow, h⟩ := Search.result_bind_eq_ok.1 h
  rcases o with _ | next
  · exact .inl (Except.ok.inj h).symm
  · exact .inr ⟨next, hfollow, h⟩

end Trials

end Scope

end Provision.Solver
