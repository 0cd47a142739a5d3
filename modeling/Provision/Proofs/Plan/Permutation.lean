import Provision.Plan

/-!
# Plans are permutations

A plan carries out just the changes that it orders, each once: circles only cost edges
(`Graph.order_perm`). No two changes of a plan are in one slot (`orders_of_ofChanges`).
-/

namespace Provision.Plan

/-! ## The order -/

namespace Graph

/-- The numbers that were placed and those that were not are all numbers. -/
theorem takeFree_perm (g : Graph) (bound : Nat) (left : List Nat) :
    ((g.takeFree bound left).1 ++ (g.takeFree bound left).2).Perm left := by
  induction bound generalizing left with
  | zero => exact .refl left
  | succ bound ih =>
    unfold takeFree
    split
    · exact .refl left
    · rename_i n hfind
      have hmem : n ∈ left := List.mem_of_find?_eq_some hfind
      exact ((ih (left.erase n)).cons n).trans (List.perm_cons_erase hmem).symm

theorem sort_perm {g : Graph} (h : g.sort.2.isEmpty) : g.sort.1.Perm g.numbers := by
  have hperm : (g.sort.1 ++ g.sort.2).Perm g.numbers := g.takeFree_perm _ _
  rw [List.isEmpty_iff.1 h, List.append_nil] at hperm
  exact hperm

/-- By induction on the edges that may be dropped; dropping one leaves the numbers as they are. -/
theorem order_perm (bound : Nat) (g : Graph) : (g.order bound).value.1.Perm g.numbers := by
  induction bound generalizing g with
  | zero =>
    unfold order
    dsimp only
    split
    · exact sort_perm ‹_›
    · exact .refl _
  | succ bound ih =>
    unfold order
    dsimp only
    split
    · exact sort_perm ‹_›
    · rcases edgeToDrop? (g.circle g.sort.2) with _ | edge
      · exact .refl _
      · dsimp only
        rw [Traced.value_bind, Traced.value_bind]
        exact ih (g.dropEdge edge)

theorem nodes_numbers (g : Graph) : (g.numbers.filterMap fun n => g.nodes[n]?) = g.nodes := by
  have hmap : g.numbers.map (fun n => g.nodes[n]?) = g.nodes.map some := by
    refine List.ext_getElem? fun n => ?_
    rw [List.getElem?_map, List.getElem?_map]
    unfold numbers
    by_cases hn : n < g.nodes.length
    · rw [List.getElem?_range hn, List.getElem?_eq_getElem hn]
      simp only [Option.map_some, List.getElem?_eq_getElem hn]
    · have hlength : (List.range g.nodes.length).length ≤ n := by
        rw [List.length_range]
        omega
      rw [List.getElem?_eq_none hlength, List.getElem?_eq_none (by omega)]
      rfl
  calc g.numbers.filterMap (fun n => g.nodes[n]?)
      = (g.numbers.map fun n => g.nodes[n]?).filterMap id := by
        rw [List.filterMap_map]
        rfl
    _ = g.nodes := by
        rw [hmap, List.filterMap_map]
        exact List.filterMap_some

end Graph

/-! ## Slots -/

/-- Without a double every slot is taken once. -/
theorem firstDouble?_eq_none_iff {seen cs : List Change} :
    firstDouble? seen cs = none ↔
      (cs.map (·.package.slot)).Nodup ∧
        ∀ c ∈ cs, ∀ d ∈ seen, d.package.slot ≠ c.package.slot := by
  induction cs generalizing seen with
  | nil => simp [firstDouble?]
  | cons c rest ih =>
    unfold firstDouble?
    split
    · rename_i d hfind
      refine ⟨nofun, ?_⟩
      rintro ⟨-, hseen⟩
      have hd := List.find?_some hfind
      exact absurd (of_decide_eq_true hd)
        (hseen c List.mem_cons_self d (List.mem_of_find?_eq_some hfind))
    · rename_i hfind
      have hc (d : Change) (hd : d ∈ seen) : d.package.slot ≠ c.package.slot := by
        have := List.find?_eq_none.1 hfind d hd
        exact of_decide_eq_false (Bool.eq_false_iff.2 this)
      rw [ih, List.map_cons, List.nodup_cons]
      constructor
      · rintro ⟨hnodup, hseen⟩
        refine ⟨⟨?_, hnodup⟩, ?_⟩
        · intro hmem
          obtain ⟨d, hd, heq⟩ := List.mem_map.1 hmem
          exact hseen d hd c List.mem_cons_self heq.symm
        · intro d hd e he
          rcases List.mem_cons.1 hd with rfl | hd
          · exact hc e he
          · exact hseen d hd e (List.mem_cons_of_mem c he)
      · rintro ⟨⟨hfresh, hnodup⟩, hseen⟩
        refine ⟨hnodup, fun d hd e he => ?_⟩
        rcases List.mem_cons.1 he with rfl | he
        · intro heq
          exact hfresh (heq ▸ List.mem_map_of_mem hd)
        · exact hseen d (List.mem_cons_of_mem c hd) e he

/-! ## Plans -/

/-- The items are the changes, each once and each in a slot of its own. -/
structure Orders (items : List Item) (changes : List Change) : Prop where
  of_mem : ∀ i ∈ items, ∃ c ∈ changes, ∃ position, i = .ofChange position c
  mem_of : ∀ c ∈ changes, ∃ position, .ofChange position c ∈ items
  nodup : (items.map (·.package.slot)).Nodup

theorem orders_of_perm {order changes : List Change} (hperm : order.Perm changes)
    (hnodup : (changes.map (·.package.slot)).Nodup) :
    Orders (order.mapIdx Item.ofChange) changes := by
  refine ⟨fun i hi => ?_, fun c hc => ?_, ?_⟩
  · obtain ⟨n, hn, rfl⟩ := List.mem_mapIdx.1 hi
    exact ⟨order[n], hperm.subset (List.getElem_mem hn), n, rfl⟩
  · obtain ⟨n, hn, rfl⟩ := List.getElem_of_mem (hperm.symm.subset hc)
    exact ⟨n, List.mem_mapIdx.2 ⟨n, hn, rfl⟩⟩
  · have hslots : (order.mapIdx Item.ofChange).map (·.package.slot) =
        order.map (·.package.slot) := by
      refine List.ext_getElem? fun n => ?_
      rw [List.getElem?_map, List.getElem?_map, List.getElem?_mapIdx, Option.map_map]
      rfl
    rw [hslots]
    exact (hperm.map _).nodup_iff.2 hnodup

theorem orders_of_ofChanges {ix : Index} {changes : List Change} {plan : Plan}
    (h : (ofChanges ix changes).value = .ok plan) : Orders plan.items changes := by
  unfold ofChanges at h
  split at h
  · cases h
  · rename_i hdouble
    cases h
    refine orders_of_perm ?_ (firstDouble?_eq_none_iff.1 hdouble).1
    have horder := (Graph.order_perm (Graph.ofChanges ix changes).edges.length
      (Graph.ofChanges ix changes)).filterMap fun n => (Graph.ofChanges ix changes).nodes[n]?
    rw [Graph.nodes_numbers] at horder
    exact horder.trans (List.mergeSort_perm _ _)

theorem ofChanges_of_nodup (ix : Index) {changes : List Change}
    (h : (changes.map (·.package.slot)).Nodup) :
    ∃ plan, (ofChanges ix changes).value = .ok plan := by
  have hdouble : firstDouble? [] changes = none :=
    firstDouble?_eq_none_iff.2 ⟨h, fun _ _ _ hd => nomatch hd⟩
  unfold ofChanges
  rw [hdouble]
  exact ⟨_, rfl⟩

end Provision.Plan
