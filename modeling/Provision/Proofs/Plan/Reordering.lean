import Provision.Proofs.Plan.Rounds

/-!
# The order in which changes are given

The changes of a plan are numbered by name and architecture. When they are in different slots no two
of them tie, so there is one such numbering of a set of changes, however the set is listed
(`nodes_eq_of_perm`). Edges lead between numbers, and sorting, looking for a circle and choosing the
edge to drop ask for nothing else, so from the graph on all is the same: the circles that are broken
and in which sequence, the places of the items, the warnings and the log (`ofChanges_eq_of_perm`).
-/

namespace Provision.Plan

theorem Before.asymm {c d : Change} (h : Before c d) : ¬ Before d c := by
  intro hback
  have hgt : compare d.package.slot c.package.slot = .gt := Std.OrientedCmp.gt_of_lt h
  exact absurd (hgt.symm.trans hback) (by decide)

variable {ix : Index} {changes changes' : List Change}

theorem nodup_slots_of_perm (hperm : changes.Perm changes')
    (h : (changes.map (·.package.slot)).Nodup) : (changes'.map (·.package.slot)).Nodup :=
  (hperm.map _).nodup_iff.1 h

/-- Two lists of the nodes that are both in order are equal, since no two nodes tie. -/
theorem nodes_eq_of_perm (ix : Index) (hperm : changes.Perm changes')
    (h : (changes.map (·.package.slot)).Nodup) :
    (Graph.ofChanges ix changes).nodes = (Graph.ofChanges ix changes').nodes := by
  have hnodes : (Graph.ofChanges ix changes).nodes.Perm (Graph.ofChanges ix changes').nodes :=
    (nodes_perm ix changes).trans (hperm.trans (nodes_perm ix changes').symm)
  have hleft := (ofChanges_proper ix h).nodes
  have hright := (ofChanges_proper ix (nodup_slots_of_perm hperm h)).nodes
  exact hnodes.eq_of_pairwise (fun c d _ _ hcd hdc => absurd hdc hcd.asymm) hleft hright

theorem graph_eq_of_perm (ix : Index) (hperm : changes.Perm changes')
    (h : (changes.map (·.package.slot)).Nodup) :
    Graph.ofChanges ix changes = Graph.ofChanges ix changes' :=
  congrArg (fun nodes => (⟨nodes, Graph.edgesAmong ix nodes.zipIdx⟩ : Plan.Graph))
    (nodes_eq_of_perm ix hperm h)

/--
However a set of changes in different slots is listed, it has a plan, and that is the same one: the
same items in the same places, the same breaks in the same sequence, the same warnings, and the same
lines in the log.
-/
theorem ofChanges_eq_of_perm (ix : Index) {changes changes' : List Change}
    (hperm : changes.Perm changes') (h : (changes.map (·.package.slot)).Nodup) :
    ∃ plan lines, ofChanges ix changes = ⟨.ok plan, lines⟩ ∧
      ofChanges ix changes' = ⟨.ok plan, lines⟩ ∧
      breaks ix changes = breaks ix changes' ∧
      plan.warnings = (breaks ix changes).map Break.warning := by
  have hgraph := graph_eq_of_perm ix hperm h
  have hdouble : firstDouble? [] changes = none :=
    firstDouble?_eq_none_iff.2 ⟨h, fun _ _ _ hd => nomatch hd⟩
  have hdouble' : firstDouble? [] changes' = none :=
    firstDouble?_eq_none_iff.2 ⟨nodup_slots_of_perm hperm h, fun _ _ _ hd => nomatch hd⟩
  have hsame : ofChanges ix changes = ofChanges ix changes' := by
    unfold ofChanges
    rw [hdouble, hdouble', hgraph]
  obtain ⟨plan, hplan⟩ := ofChanges_of_nodup ix h
  obtain ⟨-, -, hwarnings⟩ := eq_of_ofChanges hplan
  have hresult : ofChanges ix changes = ⟨.ok plan, (ofChanges ix changes).lines⟩ := by
    rw [← hplan]
  refine ⟨plan, _, hresult, hsame ▸ hresult, ?_, hwarnings⟩
  unfold breaks
  rw [hgraph]

theorem ofChanges_eq_of_perm_tangled :
    (ofChanges tangledIndex tangledChanges.reverse).value = .ok tangledPlan ∧
      (breaks tangledIndex tangledChanges.reverse).length = 2 := by
  have htangled : (tangledChanges.map (·.package.slot)).Nodup := by decide
  have hperm : tangledChanges.Perm tangledChanges.reverse :=
    (List.reverse_perm tangledChanges).symm
  obtain ⟨plan, lines, hplan, hreversed, hbreaks, hwarnings⟩ :=
    ofChanges_eq_of_perm tangledIndex hperm htangled
  have hvalue := ofChanges_tangled
  rw [hplan] at hvalue
  cases hvalue
  refine ⟨by rw [hreversed], ?_⟩
  rw [← hbreaks, ← List.length_map Break.warning, ← hwarnings]
  rfl

end Provision.Plan
