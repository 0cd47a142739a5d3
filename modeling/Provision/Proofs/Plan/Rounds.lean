import Provision.Proofs.Offers
import Provision.Proofs.Plan.Precedence

/-!
# Rounds

While sorting leaves something over, there is a circle to be found and an edge of it to drop. Such a
round (`Graph.Round`) takes one edge away, so there is an end to them, when sorting leaves nothing
over (`Graph.exists_rounds`). The nodes of the graph of some changes are in the order of their slots
(`ofChanges_proper`), so the largest number of a circle is the largest change by name and
architecture.

With a step for every edge, putting a graph into order goes through all its rounds: there is a
warning for each and the order is that of the graph at the end (`Graph.Rounds.order_eq`). The order of
the numbers themselves, which is there for the case that no edge can be dropped, is never fallen back
on (`ofChanges_rounds`).
-/

namespace Provision.Plan

/-- The first is less by name or, of the same name, by architecture. -/
def Before (c d : Change) : Prop := compare c.package.slot d.package.slot = .lt

/-! ## Nodes in order -/

theorem compareChanges_eq (c d : Change) : compareChanges c d =
    (compare c.package.slot d.package.slot).then
      (compareLex (compareOn fun c => c.action.rank) (compareOn fun c => c.package.evr) c d) := by
  show (compare c.package.name d.package.name).then _ =
    ((compare c.package.name d.package.name).then (compare c.package.arch d.package.arch)).then _
  cases compare c.package.name d.package.name <;> rfl

theorem before_of_compareChanges {c d : Change} (h : (compareChanges c d).isLE)
    (hslot : c.package.slot ≠ d.package.slot) : Before c d := by
  unfold Before
  rcases hcompare : compare c.package.slot d.package.slot
  · rfl
  · exact absurd (Std.LawfulEqOrd.eq_of_compare hcompare) hslot
  · rw [compareChanges_eq, hcompare] at h
    cases h

instance : Std.TransCmp compareChanges := by
  unfold compareChanges
  infer_instance

namespace Graph

variable {g last : Graph} {circle : List Nat} {e : Nat × Nat}

/-- Nodes stand in the order of their slots, and edges, each once, between different numbers. -/
structure Proper (g : Graph) : Prop where
  nodes : g.nodes.Pairwise Before
  nodup : g.edges.Nodup
  edge : ∀ {m n : Nat}, g.Edge m n → m < g.nodes.length ∧ n < g.nodes.length ∧ m ≠ n

theorem getElem_nodes {n : Nat} (h : n < g.nodes.length) : g.nodes[n] = g.change n :=
  Option.some.inj ((List.getElem?_eq_getElem h).symm.trans (getElem?_nodes h))

namespace Proper

theorem change_before (hg : g.Proper) {m n : Nat} (hn : n < g.nodes.length) (hlt : m < n) :
    Before (g.change m) (g.change n) := by
  have hm : m < g.nodes.length := hlt.trans hn
  have hbefore := List.pairwise_iff_getElem.1 hg.nodes m n hm hn hlt
  rwa [getElem_nodes hm, getElem_nodes hn] at hbefore

theorem dropEdge (hg : g.Proper) (e : Nat × Nat) : (g.dropEdge e).Proper where
  nodes := hg.nodes
  nodup := hg.nodup.filter _
  edge h := hg.edge (edge_of_dropEdge h)

end Proper

/-! ## One round -/

/--
One round: sorting leaves something over, a circle of it is found, from its smallest number on, and
the edge that leaves its largest change is dropped, and no other one.
-/
structure Round (g : Graph) (circle : List Nat) (e : Nat × Nat) : Prop where
  leftover : g.sort.2 ≠ []
  found : g.circle g.sort.2 = circle
  tour : g.Tour circle
  chosen : edgeToDrop? circle = some e
  on_circle : e ∈ neighbours circle
  largest : ∀ n ∈ circle, n ≠ e.1 → Before (g.change n) (g.change e.1)
  dropped : g.edges.Perm (e :: (g.dropEdge e).edges)

theorem edges_perm_dropEdge (hnodup : g.edges.Nodup) (he : e ∈ g.edges) :
    g.edges.Perm (e :: (g.dropEdge e).edges) := by
  have herase : (g.dropEdge e).edges = g.edges.erase e := by
    rw [hnodup.erase_eq_filter, Graph.dropEdge]
    exact List.filter_congr fun d _ => by simp [bne, beq_eq_decide]
  rw [herase]
  exact List.perm_cons_erase he

theorem exists_round (hg : g.Proper) (h : g.sort.2 ≠ []) : ∃ circle e, g.Round circle e := by
  have htour := tour_circle h
  obtain ⟨e, hmem, hdrop, hmax⟩ := exists_edgeToDrop htour.isCircle
  have hedge : g.Edge e.1 e.2 := htour.isCircle.of_mem_neighbours hmem
  obtain ⟨-, hlargest⟩ := List.max?_eq_some_iff.1 hmax
  exact ⟨_, e, {
    leftover := h
    found := rfl
    tour := htour
    chosen := hdrop
    on_circle := hmem
    largest := fun n hn hne =>
      hg.change_before (hg.edge hedge).1 (lt_of_le_of_ne (hlargest n hn) hne)
    dropped := edges_perm_dropEdge hg.nodup hedge }⟩

theorem Round.edgeToDrop?_circle (h : g.Round circle e) :
    edgeToDrop? (g.circle g.sort.2) = some e := by
  rw [h.found]
  exact h.chosen

/-! ## All rounds -/

/-- The rounds from the first graph on, each with its circle and the edge dropped, until sorting the
last graph leaves nothing over. -/
inductive Rounds : Graph → List (List Nat × (Nat × Nat)) → Graph → Prop
  | done {g : Graph} (h : g.sort.2 = []) : Rounds g [] g
  | round {g last : Graph} {circle : List Nat} {e : Nat × Nat}
      {rounds : List (List Nat × (Nat × Nat))} (h : g.Round circle e)
      (hrest : Rounds (g.dropEdge e) rounds last) : Rounds g ((circle, e) :: rounds) last

variable {rounds : List (List Nat × (Nat × Nat))}

/-- By induction on the number of edges, of which each round takes one away. -/
theorem exists_rounds (hg : g.Proper) : ∃ rounds last, g.Rounds rounds last := by
  induction hlength : g.edges.length using Nat.strong_induction_on generalizing g with
  | _ length ih =>
    by_cases hsorted : g.sort.2 = []
    · exact ⟨[], g, .done hsorted⟩
    · obtain ⟨circle, e, hround⟩ := exists_round hg hsorted
      have hdropped := hround.dropped.length_eq
      rw [hlength, List.length_cons] at hdropped
      obtain ⟨rounds, last, hrest⟩ := ih _ (by omega) (hg.dropEdge e) rfl
      exact ⟨_, last, .round hround hrest⟩

namespace Rounds

theorem sorted (h : g.Rounds rounds last) : last.sort.2 = [] := by
  induction h with
  | done h => exact h
  | round _ _ ih => exact ih

theorem nodes_eq (h : g.Rounds rounds last) : last.nodes = g.nodes := by
  induction h with
  | done => rfl
  | round _ _ ih => exact ih

theorem numbers_eq (h : g.Rounds rounds last) : last.numbers = g.numbers := by
  unfold numbers
  rw [h.nodes_eq]

theorem sort_perm (h : g.Rounds rounds last) : last.sort.1.Perm g.numbers := by
  rw [← h.numbers_eq]
  exact Graph.sort_perm (List.isEmpty_iff.2 h.sorted)

/-- Each edge is taken away in one round, or is an edge of the last graph. -/
theorem edges_perm (h : g.Rounds rounds last) :
    g.edges.Perm (rounds.map Prod.snd ++ last.edges) := by
  induction h with
  | done => exact .refl _
  | round hround _ ih => exact hround.dropped.trans (ih.cons _)

theorem length_le (h : g.Rounds rounds last) : rounds.length ≤ g.edges.length := by
  rw [h.edges_perm.length_eq, List.length_append, List.length_map]
  exact Nat.le_add_right _ _

theorem order_eq (h : g.Rounds rounds last) {bound : Nat} (hbound : rounds.length ≤ bound) :
    (g.order bound).value = (last.sort.1, rounds.map fun r => g.warning r.1 r.2) := by
  induction h generalizing bound with
  | done h => exact order_of_sorted h bound
  | round hround hrest ih =>
    cases bound with
    | zero => cases hbound
    | succ bound =>
      rw [order_of_drop hround.leftover hround.edgeToDrop?_circle,
        ih (Nat.le_of_succ_le_succ hbound), hround.found]
      rfl

theorem drops_eq (h : g.Rounds rounds last) {bound : Nat} (hbound : rounds.length ≤ bound) :
    g.drops bound = rounds := by
  induction h generalizing bound with
  | done h => exact drops_of_sorted h bound
  | round hround hrest ih =>
    cases bound with
    | zero => cases hbound
    | succ bound =>
      rw [drops_of_drop hround.leftover hround.edgeToDrop?_circle,
        ih (Nat.le_of_succ_le_succ hbound), hround.found]

end Rounds

end Graph

/-! ## The rounds of a plan -/

variable {ix : Index} {changes : List Change}

theorem nodup_edgesAmong (ix : Index) {nodes : List (Change × Nat)}
    (h : (nodes.map Prod.snd).Nodup) : (Graph.edgesAmong ix nodes).Nodup := by
  have hfst {e : Nat × Nat} {c : Change × Nat} (he : e ∈ (nodes.filter fun d =>
      c.2 ≠ d.2 && mustPrecede ix c.1 d.1).map fun d => (c.2, d.2)) : e.1 = c.2 := by
    obtain ⟨d, -, rfl⟩ := List.mem_map.1 he
    rfl
  unfold Graph.edgesAmong
  refine List.nodup_flatMap.2 ⟨fun c _ => ?_, ?_⟩
  · refine List.Nodup.of_map Prod.snd ?_
    rw [List.map_map]
    exact h.sublist (List.filter_sublist.map Prod.snd)
  · rw [List.Nodup, List.pairwise_map] at h
    exact h.imp fun hne e he he' => hne ((hfst he).symm.trans (hfst he'))

theorem ofChanges_proper (ix : Index) (h : (changes.map (·.package.slot)).Nodup) :
    (Graph.ofChanges ix changes).Proper where
  nodes := by
    have hsorted : (Graph.ofChanges ix changes).nodes.Pairwise fun c d =>
        (compareChanges c d).isLE := pairwise_isLE_mergeSort compareChanges changes
    have hslots : ((Graph.ofChanges ix changes).nodes.map (·.package.slot)).Nodup :=
      ((nodes_perm ix changes).map _).nodup_iff.2 h
    rw [List.Nodup, List.pairwise_map] at hslots
    exact hsorted.imp₂ (fun _ _ => before_of_compareChanges) hslots
  nodup := nodup_edgesAmong ix (by rw [List.zipIdx_map_snd]; exact List.nodup_range')
  edge hedge := by
    obtain ⟨hm, hn, hne, -⟩ := Graph.edge_ofChanges_iff.1 hedge
    exact ⟨hm, hn, hne⟩

/-- The breaks of a plan are its rounds, read as changes. -/
theorem Graph.Rounds.breaks_eq {rounds : List (List Nat × (Nat × Nat))} {last : Graph}
    (h : (Graph.ofChanges ix changes).Rounds rounds last) :
    breaks ix changes = rounds.map fun r =>
      ⟨r.1.map (Graph.ofChanges ix changes).change, (Graph.ofChanges ix changes).change r.2.1,
        (Graph.ofChanges ix changes).change r.2.2⟩ :=
  congrArg (List.map _) (h.drops_eq h.length_le)

theorem Graph.Rounds.ranking_eq {rounds : List (List Nat × (Nat × Nat))} {last : Graph}
    (h : (Graph.ofChanges ix changes).Rounds rounds last) : ranking ix changes = last.sort.1 := by
  unfold ranking
  rw [h.order_eq h.length_le]

/--
Changes in different slots are put into order in rounds. What these take away and what the last graph
has left are all edges, so a step for every edge is enough, and with more steps nothing changes: the
order is the one in which sorting places all numbers of the last graph. It is the order of the plan,
and for each round there is a warning that names the changes of its circle.
-/
theorem ofChanges_rounds (ix : Index) {changes : List Change}
    (h : (changes.map (·.package.slot)).Nodup) :
    ∃ rounds last plan, (Graph.ofChanges ix changes).Rounds rounds last ∧
      last.sort.2 = [] ∧
      (Graph.ofChanges ix changes).edges.Perm (rounds.map Prod.snd ++ last.edges) ∧
      (∀ bound, (Graph.ofChanges ix changes).edges.length ≤ bound →
        ((Graph.ofChanges ix changes).order bound).value =
          (last.sort.1, rounds.map fun r => (Graph.ofChanges ix changes).warning r.1 r.2)) ∧
      (ofChanges ix changes).value = .ok plan ∧
      plan.items = (last.sort.1.map (Graph.ofChanges ix changes).change).mapIdx Item.ofChange ∧
      plan.warnings = rounds.map fun r =>
        Break.warning ⟨r.1.map (Graph.ofChanges ix changes).change,
          (Graph.ofChanges ix changes).change r.2.1, (Graph.ofChanges ix changes).change r.2.2⟩ := by
  obtain ⟨plan, hplan⟩ := ofChanges_of_nodup ix h
  obtain ⟨-, hitems, hwarnings⟩ := eq_of_ofChanges hplan
  obtain ⟨rounds, last, hrounds⟩ := Graph.exists_rounds (ofChanges_proper ix h)
  refine ⟨rounds, last, plan, hrounds, hrounds.sorted, hrounds.edges_perm, fun bound hbound => ?_,
    hplan, ?_, ?_⟩
  · exact hrounds.order_eq (hrounds.length_le.trans hbound)
  · rw [hitems, hrounds.ranking_eq]
  · rw [hwarnings, hrounds.breaks_eq, List.map_map]
    rfl

theorem ofChanges_rounds_tangled :
    ∃ rounds last, (Graph.ofChanges tangledIndex tangledChanges).Rounds rounds last ∧
      rounds.length = 2 ∧ last.edges.length = 3 := by
  have htangled : (tangledChanges.map (·.package.slot)).Nodup := by decide
  obtain ⟨rounds, last, plan, hrounds, -, hperm, -, hplan, -, hwarnings⟩ :=
    ofChanges_rounds tangledIndex htangled
  rw [ofChanges_tangled] at hplan
  cases hplan
  have htwo : rounds.length = 2 := by
    have hlength := congrArg List.length hwarnings
    rw [List.length_map] at hlength
    exact hlength.symm
  have hfive : (Graph.ofChanges tangledIndex tangledChanges).edges.length = 5 := by cbv
  rw [hperm.length_eq, List.length_append, List.length_map] at hfive
  exact ⟨rounds, last, hrounds, htwo, by omega⟩

end Provision.Plan
