import Mathlib.Data.List.Perm.Basic
import Provision.Proofs.Plan.Rounds

/-!
# The least order

A plan takes the least change that nothing blocks, then the least of the rest, and so on. Any other
order that keeps to the same edges starts with a change that nothing blocks either, so with the same
one or a greater one, and if with the same one, then the argument goes on with what follows
(`Graph.takeFree_least`). The edges kept to are those that the rounds leave
(`Graph.Rounds.edge_iff`), which are the demands between changes without those that the breaks give
up (`kept_iff_edge`). So of all orders that keep to these the plan has the least by name and
architecture (`ofChanges_least`).
-/

namespace Provision.Plan

namespace Graph

variable {g last : Graph} {left other : List Nat}

/-! ## Taking the least -/

/-- Nothing that could be taken as well is smaller than what is taken. -/
theorem le_of_find?_free (hsorted : left.Pairwise (· < ·)) {m n : Nat}
    (hn : (left.find? fun n => !g.isBlocked left n) = some n) (hm : m ∈ left)
    (hfree : ¬ g.isBlocked left m) : n ≤ m := by
  obtain ⟨-, before, after, rfl, hblocked⟩ := List.find?_eq_some_iff_append.1 hn
  rcases List.mem_append.1 hm with hm | hm
  · exact absurd (by simpa using hblocked m hm) hfree
  · rcases List.mem_cons.1 hm with rfl | hm
    · exact le_rfl
    · exact ((List.pairwise_cons.1 (List.pairwise_append.1 hsorted).2.1).1 m hm).le

/--
By induction on the steps: another order starts with something that is free, so not with less than
what is taken, and if with just that, then its rest is an order of what is left.
-/
theorem takeFree_least (hloopless : ∀ n, ¬ g.Edge n n) {bound : Nat}
    (hbound : left.length ≤ bound) (hsorted : left.Pairwise (· < ·)) (hperm : other.Perm left)
    (hother : other.Pairwise fun m n => ¬ g.Edge n m) :
    (g.takeFree bound left).1 = other ∨ List.Lex (· < ·) (g.takeFree bound left).1 other := by
  induction bound generalizing left other with
  | zero =>
    rw [List.eq_nil_of_length_eq_zero (Nat.le_zero.1 hbound)] at hperm
    exact .inl hperm.eq_nil.symm
  | succ bound ih =>
    cases other with
    | nil =>
      rw [hperm.nil_eq.symm]
      exact .inl rfl
    | cons first rest =>
      obtain ⟨hfirst, hrest⟩ := List.pairwise_cons.1 hother
      have hmem : first ∈ left := hperm.subset List.mem_cons_self
      have hfree : ¬ g.isBlocked left first := by
        intro hblocked
        obtain ⟨m, hm, hedge⟩ := isBlocked_iff.1 hblocked
        rcases List.mem_cons.1 (hperm.symm.subset hm) with rfl | hm
        · exact hloopless m hedge
        · exact hfirst m hm hedge
      unfold takeFree
      split
      · rename_i hnone
        exact absurd (by simpa using List.find?_eq_none.1 hnone first hmem) hfree
      · rename_i n hn
        rcases (le_of_find?_free hsorted hn hmem hfree).eq_or_lt with rfl | hlt
        · have hlength := List.length_erase_of_mem hmem
          have hsmaller : (left.erase n).Pairwise (· < ·) := hsorted.sublist List.erase_sublist
          have hrestPerm : rest.Perm (left.erase n) :=
            (hperm.trans (List.perm_cons_erase hmem)).cons_inv
          rcases ih (by omega) hsmaller hrestPerm hrest with heq | hlex
          · exact .inl (congrArg (n :: ·) heq)
          · exact .inr (.cons hlex)
        · exact .inr (.rel hlt)

/-! ## Edges that are left -/

variable {rounds : List (List Nat × (Nat × Nat))} {m n : Nat}

theorem Rounds.edge_iff (h : g.Rounds rounds last) (hnodup : g.edges.Nodup) :
    last.Edge m n ↔ g.Edge m n ∧ (m, n) ∉ rounds.map Prod.snd := by
  have hdisjoint := List.disjoint_of_nodup_append (h.edges_perm.nodup_iff.1 hnodup)
  constructor
  · intro hlast
    exact ⟨h.edges_perm.mem_iff.2 (List.mem_append_right _ hlast), fun hdropped =>
      hdisjoint hdropped hlast⟩
  · rintro ⟨hedge, hkept⟩
    exact (List.mem_append.1 (h.edges_perm.subset hedge)).resolve_left hkept

/-- Of all orders of the numbers that keep to the edges left, sorting gives the least. -/
theorem Rounds.sort_least (hg : g.Proper) (h : g.Rounds rounds last)
    (hperm : other.Perm g.numbers) (hother : other.Pairwise fun m n => ¬ last.Edge n m) :
    last.sort.1 = other ∨ List.Lex (· < ·) last.sort.1 other := by
  have hloopless (n : Nat) : ¬ last.Edge n n := fun hedge =>
    (hg.edge ((h.edge_iff hg.nodup).1 hedge).1).2.2 rfl
  have hbound : last.numbers.length ≤ last.nodes.length := by
    rw [numbers, List.length_range]
  rw [← h.numbers_eq] at hperm
  exact takeFree_least hloopless hbound List.pairwise_lt_range hperm hother

theorem Proper.change_inj (hg : g.Proper) (hm : m < g.nodes.length) (hn : n < g.nodes.length)
    (h : g.change m = g.change n) : m = n := by
  have hirrefl (c : Change) : ¬ Before c c := by simp [Before]
  rcases Nat.lt_trichotomy m n with hlt | heq | hlt
  · exact absurd (h ▸ hg.change_before hn hlt) (hirrefl _)
  · exact heq
  · exact absurd (h ▸ hg.change_before hm hlt) (hirrefl _)

theorem Proper.lex_map (hg : g.Proper) {numbers others : List Nat}
    (h : List.Lex (· < ·) numbers others) (hothers : ∀ n ∈ others, n < g.nodes.length) :
    List.Lex Before (numbers.map g.change) (others.map g.change) := by
  induction h with
  | nil => exact .nil
  | rel hlt => exact .rel (hg.change_before (hothers _ List.mem_cons_self) hlt)
  | cons _ ih => exact .cons (ih fun n hn => hothers n (List.mem_cons_of_mem _ hn))

end Graph

/-! ## Orders of changes -/

/-- A demand between two changes that is given up by no break. -/
def Kept (ix : Index) (changes : List Change) (c d : Change) : Prop :=
  Demands ix changes c d ∧ ¬ ∃ b ∈ breaks ix changes, b.before = c ∧ b.after = d

/-- An order of the changes in which nothing stands before what has to come before it. -/
structure Arranges (r : Change → Change → Prop) (changes order : List Change) : Prop where
  perm : order.Perm changes
  respects : order.Pairwise fun c d => ¬ r d c

section Least

variable {ix : Index} {changes : List Change} {rounds : List (List Nat × (Nat × Nat))}
  {last : Graph} {m n : Nat}

theorem demands_change_iff (hg : (Graph.ofChanges ix changes).Proper)
    (hnodup : (changes.map (·.package.slot)).Nodup)
    (hm : m < (Graph.ofChanges ix changes).nodes.length)
    (hn : n < (Graph.ofChanges ix changes).nodes.length) :
    Demands ix changes ((Graph.ofChanges ix changes).change m)
      ((Graph.ofChanges ix changes).change n) ↔ (Graph.ofChanges ix changes).Edge m n := by
  refine ⟨fun h => ?_, demands_of_edge hnodup⟩
  obtain ⟨k, l, hedge, hk, hl⟩ := exists_edge h
  obtain ⟨hklt, hllt, -⟩ := hg.edge hedge
  rw [← hg.change_inj hklt hm hk, ← hg.change_inj hllt hn hl]
  exact hedge

/-- The edges of the last graph are the demands that are kept. -/
theorem kept_change_iff (hnodup : (changes.map (·.package.slot)).Nodup)
    (h : (Graph.ofChanges ix changes).Rounds rounds last)
    (hm : m < (Graph.ofChanges ix changes).nodes.length)
    (hn : n < (Graph.ofChanges ix changes).nodes.length) :
    Kept ix changes ((Graph.ofChanges ix changes).change m)
      ((Graph.ofChanges ix changes).change n) ↔ last.Edge m n := by
  have hg := ofChanges_proper ix hnodup
  have hbreak : (∃ b ∈ breaks ix changes, b.before = (Graph.ofChanges ix changes).change m ∧
      b.after = (Graph.ofChanges ix changes).change n) ↔ (m, n) ∈ rounds.map Prod.snd := by
    rw [h.breaks_eq]
    constructor
    · rintro ⟨b, hb, hbefore, hafter⟩
      obtain ⟨r, hr, rfl⟩ := List.mem_map.1 hb
      have hedge : (Graph.ofChanges ix changes).Edge r.2.1 r.2.2 :=
        h.edges_perm.mem_iff.2 (List.mem_append_left _ (List.mem_map_of_mem hr))
      obtain ⟨hk, hl, -⟩ := hg.edge hedge
      exact List.mem_map.2
        ⟨r, hr, Prod.ext (hg.change_inj hk hm hbefore) (hg.change_inj hl hn hafter)⟩
    · intro hmem
      obtain ⟨r, hr, heq⟩ := List.mem_map.1 hmem
      exact ⟨_, List.mem_map_of_mem hr, by rw [heq], by rw [heq]⟩
  rw [Kept, demands_change_iff hg hnodup hm hn, hbreak, h.edge_iff hg.nodup]

theorem pairwise_kept_iff (hnodup : (changes.map (·.package.slot)).Nodup)
    (h : (Graph.ofChanges ix changes).Rounds rounds last) {order : List Nat}
    (horder : order.Perm (Graph.ofChanges ix changes).numbers) :
    ((order.map (Graph.ofChanges ix changes).change).Pairwise fun c d => ¬ Kept ix changes d c) ↔
      order.Pairwise fun m n => ¬ last.Edge n m := by
  have hlt {n : Nat} (hn : n ∈ order) : n < (Graph.ofChanges ix changes).nodes.length :=
    List.mem_range.1 (horder.subset hn)
  rw [List.pairwise_map]
  exact List.Pairwise.iff_of_mem fun hm hn =>
    not_congr (kept_change_iff hnodup h (hlt hn) (hlt hm))

/-- An order of the changes is one of their numbers. -/
theorem exists_numbers (ix : Index) {other : List Change} (h : other.Perm changes) :
    ∃ numbers : List Nat, numbers.Perm (Graph.ofChanges ix changes).numbers ∧
      numbers.map (Graph.ofChanges ix changes).change = other := by
  obtain ⟨numbers, rfl, hperm⟩ :
      Relation.Comp (· = List.map (Graph.ofChanges ix changes).change ·) List.Perm other
        (Graph.ofChanges ix changes).numbers := by
    rw [List.eq_map_comp_perm]
    exact h.trans (map_change_perm ix changes (.refl _)).symm
  exact ⟨numbers, hperm, rfl⟩

/--
Changes in different slots have a plan, and it puts them into an order that keeps to all demands but
those that its breaks give up. Any other order that keeps to these is greater: where the two first
differ, the plan has the change that is less by name and architecture.
-/
theorem ofChanges_least (ix : Index) {changes : List Change}
    (h : (changes.map (·.package.slot)).Nodup) :
    ∃ plan order, (ofChanges ix changes).value = .ok plan ∧
      plan.items = order.mapIdx Item.ofChange ∧
      plan.warnings = (breaks ix changes).map Break.warning ∧
      Arranges (Kept ix changes) changes order ∧
      ∀ other, Arranges (Kept ix changes) changes other →
        order = other ∨ List.Lex Before order other := by
  have hg := ofChanges_proper ix h
  obtain ⟨plan, hplan⟩ := ofChanges_of_nodup ix h
  obtain ⟨-, hitems, hwarnings⟩ := eq_of_ofChanges hplan
  obtain ⟨rounds, last, hrounds⟩ := Graph.exists_rounds hg
  rw [hrounds.ranking_eq] at hitems
  have hsorted := hrounds.sort_perm
  refine ⟨plan, _, hplan, hitems, hwarnings, ⟨map_change_perm ix changes hsorted, ?_⟩, ?_⟩
  · exact (pairwise_kept_iff h hrounds hsorted).2 (Graph.takeFree_pairwise _ _)
  · rintro other ⟨hperm, hrespects⟩
    obtain ⟨others, hothers, rfl⟩ := exists_numbers ix hperm
    rw [pairwise_kept_iff h hrounds hothers] at hrespects
    rcases hrounds.sort_least hg hothers hrespects with heq | hlex
    · exact .inl (congrArg (List.map _) heq)
    · exact .inr (hg.lex_map hlex fun n hn => List.mem_range.1 (hothers.subset hn))

end Least

/-! ## Behind what waits -/

/-- An index with an offer that wants to come before another one. -/
def waitingIndex : Index :=
  ({} : Index).addOffered (plainPackage "c" "base") { installBefore := ["a"] }

def incoming (name : String) : Change :=
  { package := plainPackage name "base", action := .install, reason := .user }

def waitingChanges : List Change := [incoming "a", incoming "b", incoming "c"]

theorem arranges_waiting :
    Arranges (Kept waitingIndex waitingChanges) waitingChanges
      [incoming "c", incoming "a", incoming "b"] where
  perm := (List.perm_append_comm : ([incoming "c"] ++ [incoming "a", incoming "b"]).Perm _)
  respects := by
    have hac : mustPrecede waitingIndex (incoming "a") (incoming "c") = false := by cbv
    have hbc : mustPrecede waitingIndex (incoming "b") (incoming "c") = false := by cbv
    have hba : mustPrecede waitingIndex (incoming "b") (incoming "a") = false := by cbv
    have hnot {c d : Change} (h : mustPrecede waitingIndex c d = false) :
        ¬ Kept waitingIndex waitingChanges c d := fun hkept => by
      rw [hkept.1.2.2.2] at h
      cases h
    simp [hnot hac, hnot hbc, hnot hba]

theorem ofChanges_least_waiting :
    ∃ plan order, (ofChanges waitingIndex waitingChanges).value = .ok plan ∧
      plan.items = order.mapIdx Item.ofChange ∧
      plan.items.map (·.package.name) = ["b", "c", "a"] ∧
      List.Lex Before order [incoming "c", incoming "a", incoming "b"] := by
  have hslots : (waitingChanges.map (·.package.slot)).Nodup := by decide
  obtain ⟨plan, order, hplan, hitems, -, -, hleast⟩ := ofChanges_least waitingIndex hslots
  have hnames : plan.items.map (·.package.name) = ["b", "c", "a"] := by
    have hvalue : ((ofChanges waitingIndex waitingChanges).value.map fun plan =>
        plan.items.map (·.package.name)) = .ok ["b", "c", "a"] := by cbv
    rw [hplan] at hvalue
    exact Except.ok.inj hvalue
  refine ⟨plan, order, hplan, hitems, hnames, (hleast _ arranges_waiting).resolve_left ?_⟩
  rintro rfl
  rw [hitems] at hnames
  exact absurd hnames (by decide)

end Provision.Plan
