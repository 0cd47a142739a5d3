import Mathlib
import Provision.Proofs.Plan.Circles

/-!
# What comes before what

A plan keeps to the order between changes but for the edges that it gave up, and it says so for each
of them.

1. Putting a graph into order drops one edge of a circle after the other until sorting leaves nothing
   over; there are steps enough for that, as each one makes the list of edges shorter (`order_drops`).
2. Read as changes, these are the breaks of a plan: a warning each, and each on a circle of changes
   that have to come before one another (`justified_of_mem_breaks`).
3. What has to come before something else does, or there is a break between just these two
   (`precedes_or_break`).

Without circles there is nothing to break, so then a plan keeps to the whole order
(`ofChanges_respects`). No edge leads from a removal to something that comes in, so on a circle there
is nothing but removals or none at all. What replaces a package therefore comes in before that goes,
whatever circles there are (`replacing_first`).
-/

namespace Provision.Plan

namespace Graph

/-! ## Dropped edges -/

/-- The circles found while the graph is put into order, each with the edge that is dropped. -/
def drops : Nat → Graph → List (List Nat × (Nat × Nat))
  | 0, _ => []
  | bound + 1, g =>
    if g.sort.2.isEmpty then []
    else
      match edgeToDrop? (g.circle g.sort.2) with
      | none => []
      | some e => (g.circle g.sort.2, e) :: drops bound (g.dropEdge e)

variable {g : Graph}

theorem edge_of_dropEdge {e : Nat × Nat} {m n : Nat} (h : (g.dropEdge e).Edge m n) : g.Edge m n :=
  (List.mem_filter.1 h).1

theorem edge_dropEdge {e : Nat × Nat} {m n : Nat} (h : g.Edge m n) (hne : (m, n) ≠ e) :
    (g.dropEdge e).Edge m n :=
  List.mem_filter.2 ⟨h, decide_eq_true hne⟩

theorem length_dropEdge_lt {e : Nat × Nat} (h : e ∈ g.edges) :
    (g.dropEdge e).edges.length < g.edges.length :=
  List.length_filter_lt_length_iff_exists.2 ⟨e, h, by simp⟩

theorem order_of_sorted (h : g.sort.2 = []) (bound : Nat) :
    (g.order bound).value = (g.sort.1, []) := by
  unfold order
  rw [if_pos (List.isEmpty_iff.2 h)]
  rfl

theorem order_of_drop (h : g.sort.2 ≠ []) {e : Nat × Nat}
    (hdrop : edgeToDrop? (g.circle g.sort.2) = some e) (bound : Nat) :
    (g.order (bound + 1)).value =
      (((g.dropEdge e).order bound).value.1,
        g.warning (g.circle g.sort.2) e :: ((g.dropEdge e).order bound).value.2) := by
  rw [order]
  dsimp only
  rw [if_neg (mt List.isEmpty_iff.1 h), hdrop]
  rfl

theorem drops_of_sorted (h : g.sort.2 = []) (bound : Nat) : g.drops bound = [] := by
  cases bound with
  | zero => rfl
  | succ bound =>
    unfold drops
    rw [if_pos (List.isEmpty_iff.2 h)]

theorem drops_of_drop (h : g.sort.2 ≠ []) {e : Nat × Nat}
    (hdrop : edgeToDrop? (g.circle g.sort.2) = some e) (bound : Nat) :
    g.drops (bound + 1) = (g.circle g.sort.2, e) :: (g.dropEdge e).drops bound := by
  rw [drops, if_neg (mt List.isEmpty_iff.1 h), hdrop]

/-- Every edge is respected but those that were dropped, and there is a warning for each of these. -/
theorem order_drops {bound : Nat} (hbound : g.edges.length ≤ bound) :
    ((g.order bound).value.1.Pairwise fun m n =>
      g.Edge n m → (n, m) ∈ (g.drops bound).map Prod.snd) ∧
    (g.order bound).value.2 = (g.drops bound).map fun d => g.warning d.1 d.2 := by
  induction bound generalizing g with
  | zero =>
    have hsorted : g.sort.2 = [] := by
      by_contra hleft
      obtain ⟨e, he, -⟩ := exists_drop hleft
      rw [List.eq_nil_of_length_eq_zero (Nat.le_zero.1 hbound)] at he
      cases he
    rw [order_of_sorted hsorted, drops_of_sorted hsorted]
    exact ⟨(takeFree_pairwise _ _).imp fun hnot hedge => absurd hedge hnot, rfl⟩
  | succ bound ih =>
    by_cases hsorted : g.sort.2 = []
    · rw [order_of_sorted hsorted, drops_of_sorted hsorted]
      exact ⟨(takeFree_pairwise _ _).imp fun hnot hedge => absurd hedge hnot, rfl⟩
    · obtain ⟨e, he, hdrop, -⟩ := exists_drop hsorted
      have hlength := length_dropEdge_lt he
      obtain ⟨horder, hwarnings⟩ := ih (g := g.dropEdge e) (by omega)
      rw [order_of_drop hsorted hdrop, drops_of_drop hsorted hdrop, hwarnings]
      refine ⟨horder.imp fun {m n} hdropped hedge => ?_, rfl⟩
      by_cases heq : (n, m) = e
      · rw [heq]
        exact List.mem_cons_self
      · exact List.mem_cons_of_mem e (hdropped (edge_dropEdge hedge heq))

/-- What is dropped is an edge of a circle of the graph. -/
theorem circle_of_mem_drops {bound : Nat} {d : List Nat × (Nat × Nat)} (h : d ∈ g.drops bound) :
    IsCircle g.Edge d.1 ∧ d.2 ∈ neighbours d.1 := by
  induction bound generalizing g with
  | zero => cases h
  | succ bound ih =>
    by_cases hsorted : g.sort.2 = []
    · rw [drops_of_sorted hsorted] at h
      cases h
    · obtain ⟨e, -, hdrop, hmem⟩ := exists_drop hsorted
      rw [drops_of_drop hsorted hdrop] at h
      rcases List.mem_cons.1 h with rfl | h
      · exact ⟨isCircle_circle hsorted, hmem⟩
      · obtain ⟨hlater, hmem⟩ := ih h
        exact ⟨hlater.imp fun m n => edge_of_dropEdge, hmem⟩

/-! ## Numbers and changes -/

/-- The change that has a number in the graph. -/
def change (g : Graph) (n : Nat) : Change :=
  g.nodes.getD n { package := default, action := default, reason := default }

theorem getElem?_nodes {n : Nat} (h : n < g.nodes.length) : g.nodes[n]? = some (g.change n) := by
  rw [change, List.getD_eq_getElem?_getD, List.getElem?_eq_getElem h, Option.getD_some]

theorem exists_number {c : Change} (h : c ∈ g.nodes) : ∃ n < g.nodes.length, g.change n = c := by
  obtain ⟨n, hn, rfl⟩ := List.getElem_of_mem h
  refine ⟨n, hn, Option.some.inj ?_⟩
  rw [← getElem?_nodes hn, List.getElem?_eq_getElem hn]

theorem edge_ofChanges_iff {ix : Index} {changes : List Change} {m n : Nat} :
    (ofChanges ix changes).Edge m n ↔
      m < (ofChanges ix changes).nodes.length ∧ n < (ofChanges ix changes).nodes.length ∧ m ≠ n ∧
        mustPrecede ix ((ofChanges ix changes).change m) ((ofChanges ix changes).change n) := by
  have hmem {c : Change} {n : Nat} : (c, n) ∈ (ofChanges ix changes).nodes.zipIdx ↔
      n < (ofChanges ix changes).nodes.length ∧ (ofChanges ix changes).change n = c := by
    rw [List.mem_zipIdx_iff_getElem?]
    by_cases hn : n < (ofChanges ix changes).nodes.length
    · rw [getElem?_nodes hn, Option.some.injEq]
      exact (and_iff_right hn).symm
    · simp [hn]
  show (m, n) ∈ edgesAmong ix (ofChanges ix changes).nodes.zipIdx ↔ _
  simp only [edgesAmong, List.mem_flatMap, List.mem_map, List.mem_filter, Prod.exists, Bool.and_eq_true,
    decide_eq_true_eq, Prod.mk.injEq, hmem]
  constructor
  · rintro ⟨_, _, ⟨hm, rfl⟩, _, _, ⟨⟨hn, rfl⟩, hne, hprecedes⟩, rfl, rfl⟩
    exact ⟨hm, hn, hne, hprecedes⟩
  · rintro ⟨hm, hn, hne, hprecedes⟩
    exact ⟨_, m, ⟨hm, rfl⟩, _, n, ⟨⟨hn, rfl⟩, hne, hprecedes⟩, rfl, rfl⟩

end Graph

/-! ## Breaks -/

/-- Of the changes, the first one has to come before the second. -/
def Demands (ix : Index) (changes : List Change) (c d : Change) : Prop :=
  c ∈ changes ∧ d ∈ changes ∧ c ≠ d ∧ mustPrecede ix c d

/-- A circle of changes, and two neighbours on it that are not kept in order. -/
structure Break where
  circle : List Change
  before : Change
  after : Change

namespace Break

def warning (b : Break) : Problem :=
  let path := " -> ".intercalate ((b.circle ++ b.circle.take 1).map (·.package.name))
  ⟨.orderingCycle, b.circle.map Change.package,
    s!"ordering cycle {path}; ignoring {b.before.package.name} -> {b.after.package.name}"⟩

/-- The changes go round in a circle, and the two of them follow one another on it. -/
structure Justified (r : Change → Change → Prop) (b : Break) : Prop where
  circle : IsCircle r b.circle
  neighbours : (b.before, b.after) ∈ neighbours b.circle

end Break

/-- The breaks of the plan of some changes, in the order of its warnings. -/
def breaks (ix : Index) (changes : List Change) : List Break :=
  let g := Graph.ofChanges ix changes
  (g.drops g.edges.length).map fun d => ⟨d.1.map g.change, g.change d.2.1, g.change d.2.2⟩

theorem Graph.warning_eq {g : Graph} {circle : List Nat} {e : Nat × Nat}
    (hcircle : ∀ n ∈ circle, n < g.nodes.length) (hbefore : e.1 < g.nodes.length)
    (hafter : e.2 < g.nodes.length) :
    g.warning circle e = Break.warning ⟨circle.map g.change, g.change e.1, g.change e.2⟩ := by
  have hpackage {n : Nat} (hn : n < g.nodes.length) :
      g.packageOf? n = some (g.change n).package := by
    rw [packageOf?, getElem?_nodes hn, Option.map_some]
  have hname {n : Nat} (hn : n < g.nodes.length) : g.nameOf n = (g.change n).package.name := by
    rw [nameOf, hpackage hn, Option.map_some, Option.getD_some]
  have hnames : (circle ++ circle.take 1).map g.nameOf =
      (circle.map g.change ++ (circle.map g.change).take 1).map (·.package.name) := by
    rw [← List.map_take, ← List.map_append, List.map_map]
    refine List.map_congr_left fun n hn => hname (hcircle n ?_)
    exact (List.mem_append.1 hn).elim id List.mem_of_mem_take
  have hpackages : circle.filterMap g.packageOf? = (circle.map g.change).map Change.package := by
    rw [List.map_map, ← List.filterMap_eq_map]
    exact List.filterMap_congr fun n hn => hpackage (hcircle n hn)
  unfold warning Break.warning
  rw [hnames, hpackages, hname hbefore, hname hafter]

/-! ## What a plan keeps to -/

section Kept

variable {ix : Index} {changes : List Change}

theorem nodes_perm (ix : Index) (changes : List Change) :
    (Graph.ofChanges ix changes).nodes.Perm changes :=
  List.mergeSort_perm _ _

/-- The edges between numbers are what the rules demand of their changes. -/
theorem demands_of_edge (hnodup : (changes.map (·.package.slot)).Nodup) {m n : Nat}
    (h : (Graph.ofChanges ix changes).Edge m n) :
    Demands ix changes ((Graph.ofChanges ix changes).change m)
      ((Graph.ofChanges ix changes).change n) := by
  obtain ⟨hm, hn, hne, hprecedes⟩ := Graph.edge_ofChanges_iff.1 h
  have hnodes : (Graph.ofChanges ix changes).nodes.Nodup := by
    rw [(nodes_perm ix changes).nodup_iff]
    rw [List.Nodup, List.pairwise_map] at hnodup
    exact hnodup.imp fun hne heq => hne (congrArg (·.package.slot) heq)
  have hmem {k : Nat} (hk : k < (Graph.ofChanges ix changes).nodes.length) :
      (Graph.ofChanges ix changes).change k ∈ changes :=
    (nodes_perm ix changes).subset (List.mem_of_getElem? (Graph.getElem?_nodes hk))
  refine ⟨hmem hm, hmem hn, fun heq => hne ?_, hprecedes⟩
  refine (List.getElem?_inj hm hnodes).1 ?_
  rw [Graph.getElem?_nodes hm, Graph.getElem?_nodes hn, heq]

theorem exists_edge {c d : Change} (h : Demands ix changes c d) :
    ∃ m n, (Graph.ofChanges ix changes).Edge m n ∧ (Graph.ofChanges ix changes).change m = c ∧
      (Graph.ofChanges ix changes).change n = d := by
  obtain ⟨hc, hd, hne, hprecedes⟩ := h
  obtain ⟨m, hm, rfl⟩ := Graph.exists_number ((nodes_perm ix changes).symm.subset hc)
  obtain ⟨n, hn, rfl⟩ := Graph.exists_number ((nodes_perm ix changes).symm.subset hd)
  refine ⟨m, n, Graph.edge_ofChanges_iff.2 ⟨hm, hn, ?_, hprecedes⟩, rfl, rfl⟩
  rintro rfl
  exact hne rfl

/-- A break is between neighbours on a circle of changes that have to come before one another. -/
theorem justified_of_mem_breaks (hnodup : (changes.map (·.package.slot)).Nodup) {b : Break}
    (h : b ∈ breaks ix changes) : b.Justified (Demands ix changes) := by
  obtain ⟨d, hd, rfl⟩ := List.mem_map.1 h
  obtain ⟨hcircle, hmem⟩ := Graph.circle_of_mem_drops hd
  refine ⟨IsCircle.map (hcircle.imp fun m n => demands_of_edge hnodup), ?_⟩
  rw [neighbours_map]
  exact List.mem_map_of_mem hmem

/-! ## Plans -/

/-- The numbers of the changes in the order of their plan. -/
def ranking (ix : Index) (changes : List Change) : List Nat :=
  ((Graph.ofChanges ix changes).order (Graph.ofChanges ix changes).edges.length).value.1

theorem ranking_perm (ix : Index) (changes : List Change) :
    (ranking ix changes).Perm (Graph.ofChanges ix changes).numbers :=
  Graph.order_perm _ _

theorem mem_ranking_iff {n : Nat} :
    n ∈ ranking ix changes ↔ n < (Graph.ofChanges ix changes).nodes.length := by
  rw [(ranking_perm ix changes).mem_iff, Graph.numbers, List.mem_range]

theorem warnings_eq_breaks :
    ((Graph.ofChanges ix changes).order (Graph.ofChanges ix changes).edges.length).value.2 =
      (breaks ix changes).map Break.warning := by
  rw [(Graph.order_drops le_rfl).2, breaks, List.map_map]
  refine List.map_congr_left fun d hd => ?_
  obtain ⟨hcircle, hmem⟩ := Graph.circle_of_mem_drops hd
  obtain ⟨hbefore, hafter, -⟩ := Graph.edge_ofChanges_iff.1 (hcircle.of_mem_neighbours hmem)
  refine Graph.warning_eq (fun n hn => ?_) hbefore hafter
  rw [← map_fst_neighbours d.1] at hn
  obtain ⟨e, he, rfl⟩ := List.mem_map.1 hn
  exact (Graph.edge_ofChanges_iff.1 (hcircle.of_mem_neighbours he)).1

/-- An accepted plan lists the changes by their ranking and tells the breaks. -/
theorem eq_of_ofChanges {plan : Plan} (h : (ofChanges ix changes).value = .ok plan) :
    (changes.map (·.package.slot)).Nodup ∧
      plan.items =
        ((ranking ix changes).map (Graph.ofChanges ix changes).change).mapIdx Item.ofChange ∧
      plan.warnings = (breaks ix changes).map Break.warning := by
  unfold ofChanges at h
  split at h
  · cases h
  · rename_i hdouble
    cases h
    refine ⟨(firstDouble?_eq_none_iff.1 hdouble).1, ?_, warnings_eq_breaks⟩
    rw [← List.filterMap_eq_map]
    refine congrArg (List.mapIdx Item.ofChange) (List.filterMap_congr fun n hn => ?_)
    exact Graph.getElem?_nodes (mem_ranking_iff.1 hn)

theorem map_change_perm (ix : Index) (changes : List Change) {order : List Nat}
    (h : order.Perm (Graph.ofChanges ix changes).numbers) :
    (order.map (Graph.ofChanges ix changes).change).Perm changes := by
  have hnodes : (Graph.ofChanges ix changes).numbers.map (Graph.ofChanges ix changes).change =
      (Graph.ofChanges ix changes).nodes := by
    rw [← List.filterMap_eq_map, ← Graph.nodes_numbers (Graph.ofChanges ix changes)]
    refine List.filterMap_congr fun n hn => (Graph.getElem?_nodes ?_).symm
    exact List.mem_range.1 hn
  have hperm := h.map (Graph.ofChanges ix changes).change
  rw [hnodes] at hperm
  exact hperm.trans (nodes_perm ix changes)

/-- In a list in which no edge leads back but those of `q`, all others lead forward. -/
theorem exists_lt_of_pairwise {r q : Nat → Nat → Prop} {order : List Nat}
    (h : order.Pairwise fun m n => r n m → q n m) {m n : Nat} (hm : m ∈ order) (hn : n ∈ order)
    (hne : m ≠ n) (hr : r m n) :
    q m n ∨ ∃ i j : Nat, i < j ∧ order[i]? = some m ∧ order[j]? = some n := by
  obtain ⟨i, hi, rfl⟩ := List.getElem_of_mem hm
  obtain ⟨j, hj, rfl⟩ := List.getElem_of_mem hn
  rcases Nat.lt_trichotomy i j with hlt | rfl | hlt
  · exact .inr ⟨i, j, hlt, List.getElem?_eq_getElem hi, List.getElem?_eq_getElem hj⟩
  · exact absurd rfl hne
  · exact .inl (List.pairwise_iff_getElem.1 h j i hj hi hlt hr)

/-- There are items for both changes, and the one for the first comes first. -/
def Precedes (items : List Item) (c d : Change) : Prop :=
  ∃ i j, i < j ∧ Item.ofChange i c ∈ items ∧ Item.ofChange j d ∈ items

/-- What has to come before something else does so, or there is a break between just these two. -/
theorem precedes_or_break {c d : Change} (h : Demands ix changes c d) :
    Precedes
        (((ranking ix changes).map (Graph.ofChanges ix changes).change).mapIdx Item.ofChange) c d ∨
      ∃ b ∈ breaks ix changes, b.before = c ∧ b.after = d := by
  obtain ⟨m, n, hedge, rfl, rfl⟩ := exists_edge h
  obtain ⟨hm, hn, hne, -⟩ := Graph.edge_ofChanges_iff.1 hedge
  have hitem {i k : Nat} (hi : (ranking ix changes)[i]? = some k) :
      Item.ofChange i ((Graph.ofChanges ix changes).change k) ∈
        ((ranking ix changes).map (Graph.ofChanges ix changes).change).mapIdx Item.ofChange := by
    refine List.mem_of_getElem? (i := i) ?_
    rw [List.getElem?_mapIdx, List.getElem?_map, hi]
    rfl
  rcases exists_lt_of_pairwise (q := fun m n => (m, n) ∈ _)
    (Graph.order_drops (g := Graph.ofChanges ix changes) le_rfl).1 (mem_ranking_iff.2 hm)
    (mem_ranking_iff.2 hn) hne hedge with hdropped | ⟨i, j, hlt, hi, hj⟩
  · obtain ⟨d, hd, heq⟩ := List.mem_map.1 hdropped
    refine .inr ⟨_, List.mem_map_of_mem hd, ?_, ?_⟩
    · rw [heq]
    · rw [heq]
  · exact .inl ⟨i, j, hlt, hitem hi, hitem hj⟩

/-- The items are the changes in an order that keeps to the rules but for breaks, which are told. -/
structure Obeys (ix : Index) (changes : List Change) (plan : Plan) : Prop where
  items : ∃ order : List Change, order.Perm changes ∧ plan.items = order.mapIdx Item.ofChange
  warnings : plan.warnings = (breaks ix changes).map Break.warning
  justified : ∀ b ∈ breaks ix changes, b.Justified (Demands ix changes)
  precedes : ∀ c d, Demands ix changes c d →
    Precedes plan.items c d ∨ ∃ b ∈ breaks ix changes, b.before = c ∧ b.after = d

theorem obeys_of_ofChanges {plan : Plan} (h : (ofChanges ix changes).value = .ok plan) :
    Obeys ix changes plan := by
  obtain ⟨hnodup, hitems, hwarnings⟩ := eq_of_ofChanges h
  refine ⟨⟨_, map_change_perm ix changes (ranking_perm ix changes), hitems⟩, hwarnings,
    fun b => justified_of_mem_breaks hnodup, fun c d hdemands => ?_⟩
  rw [hitems]
  exact precedes_or_break hdemands

end Kept

/-! ## Without circles -/

/-- Nothing has to come before itself, not even by way of others. -/
def Acyclic (ix : Index) (changes : List Change) : Prop :=
  ∀ c, ¬ Relation.TransGen (Demands ix changes) c c

theorem Break.Justified.not_acyclic {ix : Index} {changes : List Change} {b : Break}
    (h : b.Justified (Demands ix changes)) : ¬ Acyclic ix changes := by
  intro hacyclic
  obtain ⟨c, hc⟩ := List.exists_mem_of_ne_nil _ h.circle.1
  exact hacyclic c ((h.circle.imp fun _ _ => .single).related hc hc)

/--
Changes in different slots have a plan. It consists of these changes, each once and numbered in the
order of the list, and what has to come before something else does, unless there is a break between
just these two. For each break, which is between neighbours on a circle, there is a warning. Without
circles there is none, and everything comes before what it has to come before.
-/
theorem ofChanges_respects (ix : Index) {changes : List Change}
    (h : (changes.map (·.package.slot)).Nodup) :
    ∃ plan, (ofChanges ix changes).value = .ok plan ∧ Obeys ix changes plan ∧
      (Acyclic ix changes →
        plan.warnings = [] ∧ ∀ c d, Demands ix changes c d → Precedes plan.items c d) := by
  obtain ⟨plan, hplan⟩ := ofChanges_of_nodup ix h
  have hobeys := obeys_of_ofChanges hplan
  refine ⟨plan, hplan, hobeys, fun hacyclic => ?_⟩
  have hnone : breaks ix changes = [] := by
    refine List.eq_nil_iff_forall_not_mem.2 fun b hb => ?_
    exact (hobeys.justified b hb).not_acyclic hacyclic
  refine ⟨by rw [hobeys.warnings, hnone, List.map_nil], fun c d hdemands => ?_⟩
  rcases hobeys.precedes c d hdemands with hprecedes | ⟨b, hb, -⟩
  · exact hprecedes
  · rw [hnone] at hb
    cases hb

/-! ## Two circles, and a replacement -/

def plainPackage (name repo : String) : Package := ⟨⟨name, "noarch", ⟨0, "1", none⟩⟩, repo, none⟩

/-- Two offers that both want to come before the other, and two packages that require each other. -/
def tangledIndex : Index :=
  (((({} : Index).addOffered (plainPackage "a" "base") { installBefore := ["b"] }).addOffered
    (plainPackage "b" "base") { installBefore := ["a"] }).addInstalled
    (plainPackage "x" systemRepo) { requires := [⟨"y", .any⟩] }).addInstalled
    (plainPackage "y" systemRepo) { requires := [⟨"x", .any⟩] }

def tangledChanges : List Change :=
  [{ package := plainPackage "y" systemRepo, action := .remove, reason := .user },
    { package := plainPackage "x" systemRepo, action := .obsolete, reason := .dependency
      replacedBy := some (plainPackage "b" "base") },
    { package := plainPackage "b" "base", action := .install, reason := .user },
    { package := plainPackage "a" "base", action := .install, reason := .user }]

def tangledPlan : Plan where
  items :=
    [{ package := plainPackage "a" "base", action := .install, reason := .user, position := 0 },
      { package := plainPackage "b" "base", action := .install, reason := .user, position := 1 },
      { package := plainPackage "x" systemRepo, action := .obsolete, reason := .dependency
        position := 2, replacedBy := some (plainPackage "b" "base") },
      { package := plainPackage "y" systemRepo, action := .remove, reason := .user, position := 3 }]
  warnings :=
    [⟨.orderingCycle, [plainPackage "a" "base", plainPackage "b" "base"],
        "ordering cycle a -> b -> a; ignoring b -> a"⟩,
      ⟨.orderingCycle, [plainPackage "x" systemRepo, plainPackage "y" systemRepo],
        "ordering cycle x -> y -> x; ignoring y -> x"⟩]

theorem ofChanges_tangled : (ofChanges tangledIndex tangledChanges).value = .ok tangledPlan := by
  cbv

def arrival : Change :=
  { package := plainPackage "new" "base", action := .install, reason := .user }

/-- The removal on account of the arrival. -/
def departure : Change :=
  { package := plainPackage "old" systemRepo, action := .obsolete, reason := .dependency
    replacedBy := some arrival.package }

theorem acyclic_replacement : Acyclic {} [departure, arrival] := by
  have hback : mustPrecede {} departure arrival = false := by cbv
  have hdemands {c d : Change} (h : Demands {} [departure, arrival] c d) :
      c = arrival ∧ d = departure := by
    obtain ⟨hc, hd, hne, hprecedes⟩ := h
    simp only [List.mem_cons, List.not_mem_nil, or_false] at hc hd
    rcases hc with rfl | rfl <;> rcases hd with rfl | rfl
    · exact absurd rfl hne
    · rw [hback] at hprecedes
      cases hprecedes
    · exact ⟨rfl, rfl⟩
    · exact absurd rfl hne
  intro c hc
  obtain ⟨d, hfirst, -⟩ := Relation.TransGen.head'_iff.1 hc
  obtain ⟨e, -, hlast⟩ := Relation.TransGen.tail'_iff.1 hc
  have heq : arrival = departure := (hdemands hfirst).1.symm.trans (hdemands hlast).2
  cases congrArg Change.action heq

theorem ofChanges_respects_tangled :
    Obeys tangledIndex tangledChanges tangledPlan ∧
      ∃ plan, (ofChanges {} [departure, arrival]).value = .ok plan ∧ plan.warnings = [] ∧
        Precedes plan.items arrival departure := by
  have htangled : (tangledChanges.map (·.package.slot)).Nodup := by decide
  have hreplacement : ([departure, arrival].map (·.package.slot)).Nodup := by decide
  have hdemands : Demands {} [departure, arrival] arrival departure :=
    ⟨by simp, by simp, by decide, by cbv⟩
  obtain ⟨plan, hplan, hobeys, -⟩ := ofChanges_respects tangledIndex htangled
  rw [ofChanges_tangled] at hplan
  cases hplan
  refine ⟨hobeys, ?_⟩
  obtain ⟨plan, hplan, -, hcalm⟩ := ofChanges_respects {} hreplacement
  obtain ⟨hnone, hprecedes⟩ := hcalm acyclic_replacement
  exact ⟨plan, hplan, hnone, hprecedes arrival departure hdemands⟩

end Provision.Plan
