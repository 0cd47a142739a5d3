import Mathlib
import Provision.Proofs.Solver.Sound

/-!
# Conflicts are settled or all told

A conflict stands between two packages of a model of which not both were left alone (`Collides`). It
gives way if one of its sides is open and erasing is allowed (`Yields`). One pass over the conflicts
of a model has one of three results: there are none, one that gives way is settled by erasing one of
its sides, or none gives way and every one of them is told, each once (`resolveConflicts_exact`).
All this is said of models that keep every package under its own slot, as those of a search do
(`Keyed.reaches`).
-/

namespace Provision.Solver.Scope

variable {s : Scope} {m : Model} {c : Clash}

/-- A package conflicts with what another one offers, and not both were left alone. -/
structure Collides (s : Scope) (m : Model) (c : Clash) : Prop where
  package : c.package ∈ m.packages
  other : c.other ∈ m.packages
  apart : c.other ≠ c.package
  declared : ∃ metadata, s.index.metadata? c.package = some metadata ∧
    c.conflict ∈ metadata.conflicts
  matched : s.index.meets c.other c.conflict
  changed : s.isChanged m c.package.slot ∨ s.isChanged m c.other.slot

/-- Erasing is allowed, and one of the sides may still be erased. -/
def Yields (s : Scope) (m : Model) (c : Clash) : Prop :=
  (s.policy.allowErasing ∨ m.erasesDependents) ∧
    (m.isDecided c.package.slot = false ∨ m.isDecided c.other.slot = false)

/-! ## The conflicts of a model -/

theorem mem_clashes_iff (hm : m.Keyed) : c ∈ s.clashes m ↔ s.Collides m c := by
  have happart (hp : c.package ∈ m.packages) (hq : c.other ∈ m.packages) :
      c.other.slot ≠ c.package.slot ↔ c.other ≠ c.package :=
    not_congr ⟨hm.unique hq hp, congrArg Package.slot⟩
  unfold clashes
  simp only [List.mem_flatMap, List.mem_map, List.mem_filter, Bool.and_eq_true, Bool.or_eq_true,
    decide_eq_true_eq]
  constructor
  · rintro ⟨p, hp, conflict, hconflict, q, ⟨hq, ⟨hslot, hmeets⟩, hchanged⟩, rfl⟩
    exact ⟨hp, hq, (happart hp hq).1 hslot, (mem_metadataOf_iff Metadata.conflicts rfl).1 hconflict,
      hmeets, hchanged⟩
  · intro h
    exact ⟨c.package, h.package, c.conflict,
      (mem_metadataOf_iff Metadata.conflicts rfl).2 h.declared, c.other,
      ⟨h.other, ⟨(happart h.package h.other).2 h.apart, h.matched⟩, h.changed⟩, rfl⟩

/-- Problems about two conflicts are the same only if they are equal. -/
theorem Collides.problem_eq (hm : m.Keyed) {d : Clash} (hc : s.Collides m c) (hd : s.Collides m d)
    (hsame : (Clash.problem c).Same (Clash.problem d)) : Clash.problem c = Clash.problem d := by
  obtain ⟨-, hbuilds, hmessage⟩ := hsame
  have hbuilds : c.package.build = d.package.build ∧ c.other.build = d.other.build := by
    simpa [Clash.problem] using hbuilds
  have himplicated : (Clash.problem c).implicated = (Clash.problem d).implicated := by
    show [c.package, c.other] = [d.package, d.other]
    rw [hm.unique hc.package hd.package (congrArg Build.slot hbuilds.1),
      hm.unique hc.other hd.other (congrArg Build.slot hbuilds.2)]
  exact (Problem.mk.injEq ..).mpr ⟨rfl, himplicated, hmessage⟩

/-! ## One pass over them -/

theorem isErasable_iff {slot : Slot} :
    s.isErasable m slot ↔
      (s.policy.allowErasing ∨ m.erasesDependents) ∧ m.isDecided slot = false := by
  unfold isErasable
  rw [Bool.and_eq_true, Bool.or_eq_true, Bool.not_eq_true', and_comm]

theorem erasableSide?_eq_none_iff : s.erasableSide? m c = none ↔ ¬ s.Yields m c := by
  have hyields : s.Yields m c ↔
      s.isErasable m c.other.slot ∨ s.isErasable m c.package.slot := by
    unfold Yields
    rw [isErasable_iff, isErasable_iff, ← and_or_left,
      or_comm (a := m.isDecided c.other.slot = false)]
  rw [hyields]
  unfold erasableSide?
  split
  · rename_i h
    simp [h]
  · rename_i hother
    split
    · rename_i h
      simp [h]
    · rename_i hpackage
      simp [hother, hpackage]

/-- If no conflict gives way, the pass tells of all of them, and does nothing if there are none. -/
theorem resolveConflicts_of_not_yields (hnone : ∀ c ∈ s.clashes m, ¬ s.Yields m c) :
    (s.resolveConflicts m).result =
      if (s.clashes m).isEmpty then .ok none
      else .error (.problems (Problem.insertAll [] ((s.clashes m).map Clash.problem))) := by
  have hfind : (s.clashes m).findSome? (fun c => (s.erasableSide? m c).map (c, ·)) = none := by
    rw [List.findSome?_eq_none_iff]
    intro c hc
    rw [erasableSide?_eq_none_iff.2 (hnone c hc), Option.map_none]
  unfold resolveConflicts
  dsimp only
  rw [hfind]
  dsimp only
  split <;> rfl

/-- A conflict that gives way, the first of its kind, loses one of its sides. -/
theorem resolveConflicts_of_yields (hc : c ∈ s.clashes m) (hyields : s.Yields m c) :
    ∃ d ∈ s.clashes m, ∃ slot, s.erasableSide? m d = some slot ∧
      (s.resolveConflicts m).result = .ok (some (s.erase m slot .dependency)) := by
  rcases hfind : (s.clashes m).findSome? (fun c => (s.erasableSide? m c).map (c, ·)) with
    _ | ⟨d, slot⟩
  · have hside := List.findSome?_eq_none_iff.1 hfind c hc
    rw [Option.map_eq_none_iff, erasableSide?_eq_none_iff] at hside
    exact absurd hyields hside
  · obtain ⟨e, he, hmap⟩ := List.exists_of_findSome?_eq_some hfind
    obtain ⟨side, hside, heq⟩ := Option.map_eq_some_iff.1 hmap
    cases heq
    refine ⟨d, he, slot, hside, ?_⟩
    unfold resolveConflicts
    dsimp only
    rw [hfind]
    exact Search.result_debug_bind _ _

/-- One side of one conflict is taken off, and every other slot keeps what it holds. -/
structure GivesUp (s : Scope) (m : Model) (c : Clash) (gone : Package) (m' : Model) : Prop where
  collides : s.Collides m c
  side : gone = c.package ∨ gone = c.other
  free : m.isDecided gone.slot = false
  held : m.present[gone.slot]? = some gone
  present : ∀ slot, m'.present[slot]? = if gone.slot = slot then none else m.present[slot]?

/-- The problems are about all conflicts of the model, and each stands there once. -/
structure Tells (s : Scope) (m : Model) (found : List Problem) : Prop where
  distinct : Problem.Distinct found
  mem_iff : ∀ p, p ∈ found ↔ ∃ c, s.Collides m c ∧ p = Clash.problem c

theorem Collides.erase (hm : m.Keyed) (hc : s.Collides m c) {slot : Slot}
    (hside : s.erasableSide? m c = some slot) :
    ∃ gone, s.GivesUp m c gone (s.erase m slot .dependency) := by
  obtain ⟨herasable, rfl | rfl⟩ := erasableSide?_cases hside
  · exact ⟨c.other, hc, .inr rfl, (isErasable_iff.1 herasable).2, hm.mem_packages_iff.1 hc.other,
      fun other => Model.present_clear m _ other _⟩
  · exact ⟨c.package, hc, .inl rfl, (isErasable_iff.1 herasable).2,
      hm.mem_packages_iff.1 hc.package, fun other => Model.present_clear m _ other _⟩

theorem resolveConflicts_givesUp (hm : m.Keyed) (hc : s.Collides m c) (hyields : s.Yields m c) :
    ∃ m', (s.resolveConflicts m).result = .ok (some m') ∧ ∃ d gone, s.GivesUp m d gone m' := by
  obtain ⟨d, hd, slot, hside, hresult⟩ :=
    resolveConflicts_of_yields ((mem_clashes_iff hm).2 hc) hyields
  exact ⟨_, hresult, d, ((mem_clashes_iff hm).1 hd).erase hm hside⟩

theorem tells_insertAll (hm : m.Keyed) :
    s.Tells m (Problem.insertAll [] ((s.clashes m).map Clash.problem)) := by
  have hcases {p : Problem}
      (hp : p ∈ Problem.insertAll [] ((s.clashes m).map Clash.problem)) :
      ∃ c, s.Collides m c ∧ p = Clash.problem c := by
    obtain ⟨c, hc, rfl⟩ :=
      List.mem_map.1 ((Problem.mem_of_mem_insertAll hp).resolve_left List.not_mem_nil)
    exact ⟨c, (mem_clashes_iff hm).1 hc, rfl⟩
  refine ⟨Problem.Distinct.insertAll .nil _, fun p => ⟨hcases, ?_⟩⟩
  rintro ⟨c, hc, rfl⟩
  obtain ⟨q, hq, hsame⟩ :=
    Problem.exists_same_insertAll (List.mem_map_of_mem ((mem_clashes_iff hm).2 hc))
  obtain ⟨d, hd, rfl⟩ := hcases hq
  rwa [hd.problem_eq hm hc hsame] at hq

theorem resolveConflicts_tells (hm : m.Keyed) (hc : s.Collides m c)
    (hnone : ∀ d, s.Collides m d → ¬ s.Yields m d) :
    ∃ found, (s.resolveConflicts m).result = .error (.problems found) ∧ s.Tells m found := by
  have hne : ¬ (s.clashes m).isEmpty := by
    rw [List.isEmpty_iff]
    exact List.ne_nil_of_mem ((mem_clashes_iff hm).2 hc)
  refine ⟨_, ?_, tells_insertAll hm⟩
  rw [resolveConflicts_of_not_yields fun d hd => hnone d ((mem_clashes_iff hm).1 hd), if_neg hne]

/--
A pass over the conflicts of a model fails exactly if there are some and none of them gives way.
Then it tells of every conflict, once, and of nothing else. If there is one that gives way, one side
of one conflict is erased, and every other slot keeps what it holds.
-/
theorem resolveConflicts_exact (hm : m.Keyed) :
    ((∃ refusal, (s.resolveConflicts m).result = .error refusal) ↔
      (∃ c, s.Collides m c) ∧ ∀ c, s.Collides m c → ¬ s.Yields m c) ∧
    (∀ refusal, (s.resolveConflicts m).result = .error refusal →
      ∃ found, refusal = .problems found ∧ s.Tells m found) ∧
    ((∃ c, s.Collides m c ∧ s.Yields m c) →
      ∃ m', (s.resolveConflicts m).result = .ok (some m') ∧ ∃ c gone, s.GivesUp m c gone m') := by
  have hfails {refusal : Refusal} (h : (s.resolveConflicts m).result = .error refusal) :
      (∃ c, s.Collides m c) ∧ ∀ c, s.Collides m c → ¬ s.Yields m c := by
    refine ⟨?_, fun c hc hyields => ?_⟩
    · by_contra hnone
      have hclashes : s.clashes m = [] := List.eq_nil_iff_forall_not_mem.2 fun c hc =>
        hnone ⟨c, (mem_clashes_iff hm).1 hc⟩
      rw [resolveConflicts_eq_none_iff.2 hclashes] at h
      cases h
    · obtain ⟨m', hresult, -⟩ := resolveConflicts_givesUp hm hc hyields
      rw [h] at hresult
      cases hresult
  refine ⟨⟨fun ⟨refusal, h⟩ => hfails h, fun ⟨⟨c, hc⟩, hnone⟩ => ?_⟩, fun refusal h => ?_,
    fun ⟨c, hc, hyields⟩ => resolveConflicts_givesUp hm hc hyields⟩
  · obtain ⟨found, hresult, -⟩ := resolveConflicts_tells hm hc hnone
    exact ⟨_, hresult⟩
  · obtain ⟨⟨c, hc⟩, hnone⟩ := hfails h
    obtain ⟨found, hresult, htells⟩ := resolveConflicts_tells hm hc hnone
    rw [h] at hresult
    exact ⟨found, Except.error.inj hresult, htells⟩

/-! ### Two packages in the way of a third -/

def rival (name : String) : Package := ⟨⟨name, "x", ⟨0, "1", none⟩⟩, "r", none⟩

/-- `c` conflicts with `a` and `b`, which are installed. -/
def rivalIndex : Index :=
  ((({} : Index).addInstalled (rival "a") {}).addInstalled (rival "b") {}).addOffered (rival "c")
    { conflicts := [⟨"a", .any⟩, ⟨"b", .any⟩] }

def rivalScope (allowErasing : Bool) : Scope := Scope.ofIndex rivalIndex { allowErasing }

def rivalModel : Model := (rivalScope false).start.fill (rival "c") ⟨.user, 0, .plain⟩

def rivalClash (name : String) : Clash := ⟨rival "c", ⟨name, .any⟩, rival name⟩

theorem resolveConflicts_exact_rivals :
    rivalModel.Keyed ∧
      (∃ found, ((rivalScope false).resolveConflicts rivalModel).result =
          .error (.problems found) ∧ Problem.Distinct found ∧
        ∀ p, p ∈ found ↔
          p = Clash.problem (rivalClash "a") ∨ p = Clash.problem (rivalClash "b")) ∧
      ∃ m', ((rivalScope true).resolveConflicts rivalModel).result = .ok (some m') ∧
        ∃ gone : Slot, ∀ slot, m'.present[slot]? =
          if gone = slot then none else rivalModel.present[slot]? := by
  have hstart : (rivalScope false).start.Keyed :=
    @slot_installed_ofIndex rivalIndex { allowErasing := false }
  have hm : rivalModel.Keyed := hstart.fill _ _
  have hcollides (allowErasing : Bool) (c : Clash) :
      (rivalScope allowErasing).Collides rivalModel c ↔
        c = rivalClash "a" ∨ c = rivalClash "b" := by
    have hclashes :
        (rivalScope allowErasing).clashes rivalModel = [rivalClash "a", rivalClash "b"] := by
      cases allowErasing <;> cbv
    rw [← mem_clashes_iff hm, hclashes, List.mem_cons, List.mem_singleton]
  refine ⟨hm, ?_, ?_⟩
  · have hnone (c : Clash) : ¬ (rivalScope false).Yields rivalModel c := by
      rintro ⟨hallowed | hallowed, -⟩ <;> cases hallowed
    obtain ⟨refusal, hrefusal⟩ := (resolveConflicts_exact hm).1.2
      ⟨⟨_, (hcollides false _).2 (.inl rfl)⟩, fun c _ => hnone c⟩
    obtain ⟨found, rfl, htells⟩ := (resolveConflicts_exact hm).2.1 refusal hrefusal
    refine ⟨found, hrefusal, htells.distinct, fun p => (htells.mem_iff p).trans ?_⟩
    simp only [hcollides, or_and_right, exists_or, exists_eq_left]
  · have hopen : rivalModel.isDecided (rivalClash "a").other.slot = false := by cbv
    obtain ⟨m', hm', _, gone, hgone⟩ := (resolveConflicts_exact hm).2.2
      ⟨_, (hcollides true _).2 (.inl rfl), .inl rfl, .inr hopen⟩
    exact ⟨m', hm', gone.slot, hgone.present⟩

end Provision.Solver.Scope
