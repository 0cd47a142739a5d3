import Mathlib.Data.List.Chain
import Mathlib.Data.List.Perm.Subperm
import Provision.Proofs.Plan.Permutation

/-!
# Circles

Sorting a graph takes what nothing blocks, so no edge leads back in what it gives (`takeFree_pairwise`).
What it leaves over is blocked by something left over (`isBlocked_of_mem_takeFree`). Walking back
among the numbers left over therefore never ends but by coming to a number a second time:

1. the walk is a chain of edges without repetitions, so it is no longer than the list of numbers
   left (`tour_walkBack`);
2. cut off at the number that came again, it is a circle (`isCircle_of_walk`), and so it is from
   whichever number one starts (`IsCircle.swap`), its smallest one among them (`tour_fromSmallest`);
3. an edge of the circle leaves its largest number (`exists_edgeToDrop`).

So as long as something is left over there is an edge to drop (`exists_drop`).
-/

namespace Provision.Plan

/-- A list of things each of which is related to the next one, and the last one to the first. -/
def IsCircle {α : Type} (r : α → α → Prop) (circle : List α) : Prop :=
  circle ≠ [] ∧ (circle ++ circle.take 1).IsChain r

/-- The things on a circle, each with the one that follows it. -/
def neighbours {α : Type} (circle : List α) : List (α × α) :=
  circle.zip (circle.drop 1 ++ circle.take 1)

theorem map_fst_neighbours {α : Type} (circle : List α) :
    (neighbours circle).map Prod.fst = circle := by
  refine List.map_fst_zip ?_
  rw [List.length_append, List.length_drop, List.length_take]
  omega

theorem neighbours_map {α β : Type} (f : α → β) (circle : List α) :
    neighbours (circle.map f) = (neighbours circle).map (Prod.map f f) := by
  unfold neighbours
  rw [← List.map_drop, ← List.map_take, ← List.map_append, List.zip_map]

namespace IsCircle

variable {α β : Type} {r s : α → α → Prop} {circle : List α}

theorem imp (h : IsCircle r circle) (hrs : ∀ a b, r a b → s a b) : IsCircle s circle :=
  ⟨h.1, h.2.imp hrs⟩

theorem map {f : α → β} {r : β → β → Prop} (h : IsCircle (fun a b => r (f a) (f b)) circle) :
    IsCircle r (circle.map f) := by
  refine ⟨mt List.map_eq_nil_iff.1 h.1, ?_⟩
  rw [← List.map_take, ← List.map_append, List.isChain_map]
  exact h.2

/-- A circle may start anywhere. -/
theorem swap {as bs : List α} (h : IsCircle r (as ++ bs)) : IsCircle r (bs ++ as) := by
  cases as with
  | nil =>
    rw [List.append_nil]
    exact h
  | cons a as =>
    cases bs with
    | nil =>
      rw [List.append_nil] at h
      exact h
    | cons b bs =>
      obtain ⟨-, h⟩ := h
      refine ⟨List.cons_ne_nil _ _, ?_⟩
      -- Both ways round the chain falls into the piece from `a` to `b` and the one from `b` to `a`.
      simp only [List.cons_append, List.take_succ_cons, List.take_zero, List.append_assoc] at h ⊢
      rw [← List.cons_append, List.isChain_split] at h ⊢
      exact ⟨h.2, h.1⟩

/-- Around a circle, what is transitive holds between any two. -/
theorem related [IsTrans α r] (h : IsCircle r circle) {a b : α} (ha : a ∈ circle)
    (hb : b ∈ circle) : r a b := by
  obtain ⟨-, h⟩ := h
  cases circle with
  | nil => cases ha
  | cons x rest =>
    rw [List.take_succ_cons, List.take_zero, List.isChain_iff_pairwise, List.cons_append,
      List.pairwise_cons, List.pairwise_append] at h
    obtain ⟨hfrom, -, -, hto⟩ := h
    have hx : x ∈ [x] := List.mem_singleton_self x
    have hxx : r x x := hfrom x (List.mem_append_right _ hx)
    have hax : r a x := by
      rcases List.mem_cons.1 ha with rfl | ha
      · exact hxx
      · exact hto a ha x hx
    have hxb : r x b := by
      rcases List.mem_cons.1 hb with rfl | hb
      · exact hxx
      · exact hfrom b (List.mem_append_left _ hb)
    exact IsTrans.trans a x b hax hxb

theorem of_mem_neighbours (h : IsCircle r circle) {a b : α} (hab : (a, b) ∈ neighbours circle) :
    r a b := by
  obtain ⟨-, h⟩ := h
  unfold neighbours at hab
  cases circle with
  | nil => cases hab
  | cons x rest =>
    simp only [List.take_succ_cons, List.take_zero, List.drop_succ_cons, List.drop_zero] at h hab
    exact List.forall₂_zip (List.isChain_cons_append_singleton_iff_forall₂.1 h) hab

end IsCircle

namespace Graph

variable {g : Graph} {left : List Nat}

/-- An edge of the graph leads from the first number to the second. -/
def Edge (g : Graph) (m n : Nat) : Prop := (m, n) ∈ g.edges

/-! ## Sorting -/

theorem isBlocked_iff {n : Nat} : g.isBlocked left n ↔ ∃ m ∈ left, g.Edge m n := by
  simp only [isBlocked, Edge, List.any_eq_true, Bool.and_eq_true, beq_iff_eq, List.contains_iff_mem,
    Prod.exists]
  constructor
  · rintro ⟨m, _, hedge, rfl, hm⟩
    exact ⟨m, hm, hedge⟩
  · rintro ⟨m, hm, hedge⟩
    exact ⟨m, n, hedge, rfl, hm⟩

/-- Nothing among what was left at the time, so nothing later, has to come before what is taken. -/
theorem takeFree_pairwise (bound : Nat) (left : List Nat) :
    (g.takeFree bound left).1.Pairwise fun m n => ¬ g.Edge n m := by
  induction bound generalizing left with
  | zero => exact .nil
  | succ bound ih =>
    unfold takeFree
    split
    · exact .nil
    · rename_i n hfree
      refine List.Pairwise.cons (fun m hm hedge => ?_) (ih (left.erase n))
      have hmem : m ∈ left :=
        List.mem_of_mem_erase ((g.takeFree_perm bound (left.erase n)).subset (List.mem_append_left _ hm))
      have hblocked : g.isBlocked left n := isBlocked_iff.2 ⟨m, hmem, hedge⟩
      simpa [hblocked] using List.find?_some hfree

/-- With steps enough for all numbers, only what is blocked is left over. -/
theorem isBlocked_of_mem_takeFree {bound : Nat} (hbound : left.length ≤ bound) {n : Nat}
    (hn : n ∈ (g.takeFree bound left).2) : g.isBlocked (g.takeFree bound left).2 n := by
  induction bound generalizing left with
  | zero =>
    rw [List.eq_nil_of_length_eq_zero (Nat.le_zero.1 hbound)] at hn
    cases hn
  | succ bound ih =>
    unfold takeFree at hn ⊢
    split at hn
    · rename_i hnone
      simpa using List.find?_eq_none.1 hnone n hn
    · rename_i k hfree
      have hlength := List.length_erase_of_mem (List.mem_of_find?_eq_some hfree)
      exact ih (by omega) hn

/-! ## Walking back -/

theorem exists_predecessor {n : Nat} (h : g.isBlocked left n) :
    ∃ m, g.predecessor? left n = some m ∧ m ∈ left ∧ g.Edge m n := by
  obtain ⟨m, hm, hedge⟩ := isBlocked_iff.1 h
  unfold predecessor?
  rcases hfind : left.find? fun m => g.edges.contains (m, n) with _ | k
  · have hnot := List.find?_eq_none.1 hfind m hm
    exact absurd (List.contains_iff_mem.2 hedge) hnot
  · have hk := List.find?_some hfind
    exact ⟨k, rfl, List.mem_of_find?_eq_some hfind, List.contains_iff_mem.1 hk⟩

theorem exists_dropWhile_eq {walk : List Nat} {n : Nat} (h : n ∈ walk) :
    ∃ rest, walk.dropWhile (· ≠ n) = n :: rest := by
  obtain ⟨as, bs, rfl, hfresh⟩ := List.eq_append_cons_of_mem h
  have has (m : Nat) (hm : m ∈ as) : decide (m ≠ n) = true :=
    decide_eq_true fun heq => hfresh (heq ▸ hm)
  exact ⟨bs, by rw [List.dropWhile_append_of_pos has, List.dropWhile_cons_of_neg (by simp)]⟩

theorem isCircle_fromSmallest {circle : List Nat} (h : IsCircle g.Edge circle) :
    IsCircle g.Edge (fromSmallest circle) := by
  unfold fromSmallest
  split
  · rename_i hnone
    exact absurd (List.min?_eq_none_iff.1 hnone) h.1
  · rename_i least _
    refine IsCircle.swap ?_
    rw [List.takeWhile_append_dropWhile]
    exact h

theorem fromSmallest_perm (circle : List Nat) : (fromSmallest circle).Perm circle := by
  unfold fromSmallest
  split
  · rename_i hnone
    rw [List.min?_eq_none_iff.1 hnone]
  · refine List.perm_append_comm.trans ?_
    rw [List.takeWhile_append_dropWhile]

theorem head?_fromSmallest (circle : List Nat) : (fromSmallest circle).head? = circle.min? := by
  unfold fromSmallest
  split
  · rename_i hnone
    exact hnone.symm
  · rename_i least hleast
    obtain ⟨rest, hrest⟩ := exists_dropWhile_eq (List.min?_mem hleast)
    rw [hleast, hrest]
    rfl

/-- A circle without repetitions that starts with its smallest number. -/
structure Tour (g : Graph) (circle : List Nat) : Prop where
  isCircle : IsCircle g.Edge circle
  nodup : circle.Nodup
  least : circle.head? = circle.min?

theorem tour_fromSmallest {circle : List Nat} (h : IsCircle g.Edge circle) (hnodup : circle.Nodup) :
    g.Tour (fromSmallest circle) where
  isCircle := isCircle_fromSmallest h
  nodup := (fromSmallest_perm circle).nodup_iff.2 hnodup
  least := by
    rw [head?_fromSmallest]
    refine Option.ext fun n => ?_
    rw [List.min?_eq_some_iff, List.min?_eq_some_iff, (fromSmallest_perm circle).mem_iff]
    simp only [(fromSmallest_perm circle).mem_iff]

/-- The part of a walk down to a number that leads to its head is a circle. -/
theorem isCircle_of_walk {current : Nat} {walk : List Nat}
    (hchain : (current :: walk).IsChain g.Edge) {n : Nat} (hn : n ∈ current :: walk)
    (hedge : g.Edge n current) :
    IsCircle g.Edge ((current :: walk).takeWhile (· ≠ n) ++ [n]) := by
  obtain ⟨rest, hrest⟩ := exists_dropWhile_eq hn
  have hsplit := List.takeWhile_append_dropWhile (p := (· ≠ n)) (l := current :: walk)
  rw [hrest] at hsplit
  rw [← hsplit] at hchain
  have hfirst : ((current :: walk).takeWhile (· ≠ n) ++ [n]).take 1 = [current] := by
    by_cases heq : current = n
    · rw [List.takeWhile_cons_of_neg (by simp [heq]), heq]
      rfl
    · rw [List.takeWhile_cons_of_pos (by simp [heq])]
      rfl
  refine ⟨by simp, ?_⟩
  rw [hfirst, List.append_assoc, List.singleton_append, List.isChain_split]
  exact ⟨(List.isChain_split.1 hchain).1, List.isChain_pair.2 hedge⟩

theorem nodup_of_walk {walk : List Nat} (hnodup : walk.Nodup) {n : Nat} (hn : n ∈ walk) :
    (walk.takeWhile (· ≠ n) ++ [n]).Nodup := by
  obtain ⟨rest, hrest⟩ := exists_dropWhile_eq hn
  rw [← List.takeWhile_append_dropWhile (p := (· ≠ n)) (l := walk), hrest,
    List.append_cons] at hnodup
  exact (List.nodup_append.1 hnodup).1

/-- By induction on the steps: a walk that may go on comes round before it is longer than `left`. -/
theorem tour_walkBack (hleft : ∀ n ∈ left, g.isBlocked left n) {bound : Nat} {walk : List Nat}
    (hne : walk ≠ []) (hnodup : walk.Nodup) (hsubset : walk ⊆ left)
    (hchain : walk.IsChain g.Edge) (hbound : left.length < bound + walk.length) :
    g.Tour (g.walkBack left bound walk) := by
  induction bound generalizing walk with
  | zero =>
    have hlength := (List.subperm_of_subset hnodup hsubset).length_le
    omega
  | succ bound ih =>
    cases walk with
    | nil => exact absurd rfl hne
    | cons current walk =>
      obtain ⟨n, hn, hmem, hedge⟩ := exists_predecessor (hleft current (hsubset List.mem_cons_self))
      rw [walkBack, hn]
      dsimp only
      split
      · rename_i hagain
        rw [List.contains_iff_mem] at hagain
        exact tour_fromSmallest (isCircle_of_walk hchain hagain hedge)
          (nodup_of_walk hnodup hagain)
      · rename_i hfresh
        rw [List.contains_iff_mem] at hfresh
        refine ih (List.cons_ne_nil _ _) (List.nodup_cons.2 ⟨hfresh, hnodup⟩)
          (List.cons_subset.2 ⟨hmem, hsubset⟩) (hchain.cons_cons hedge) ?_
        rw [List.length_cons]
        omega

/-- The numbers left over by sorting go round in a circle. -/
theorem tour_circle (h : g.sort.2 ≠ []) : g.Tour (g.circle g.sort.2) := by
  have hleft (n : Nat) (hn : n ∈ g.sort.2) : g.isBlocked g.sort.2 n := by
    refine isBlocked_of_mem_takeFree ?_ hn
    rw [numbers, List.length_range]
  rcases hsort : g.sort.2 with _ | ⟨start, rest⟩
  · exact absurd hsort h
  · rw [hsort] at hleft
    unfold circle
    refine tour_walkBack hleft (List.cons_ne_nil _ _) (List.pairwise_singleton _ start) ?_
      (List.isChain_singleton start) ?_
    · exact List.cons_subset.2 ⟨List.mem_cons_self, List.nil_subset _⟩
    · rw [List.length_singleton]
      omega

theorem isCircle_circle (h : g.sort.2 ≠ []) : IsCircle g.Edge (g.circle g.sort.2) :=
  (tour_circle h).isCircle

/-! ## The edge to drop -/

/-- The edge of the circle that leaves its largest number. -/
theorem exists_edgeToDrop {circle : List Nat} (h : IsCircle g.Edge circle) :
    ∃ e ∈ neighbours circle, edgeToDrop? circle = some e ∧ circle.max? = some e.1 := by
  obtain ⟨largest, hlargest⟩ := Option.ne_none_iff_exists'.1 (mt List.max?_eq_none_iff.1 h.1)
  have hmem : largest ∈ (neighbours circle).map Prod.fst := by
    rw [map_fst_neighbours]
    exact List.max?_mem hlargest
  obtain ⟨e, he, rfl⟩ := List.mem_map.1 hmem
  have hdrop : edgeToDrop? circle = (neighbours circle).find? fun d => d.1 = e.1 := by
    unfold edgeToDrop?
    rw [hlargest]
    rfl
  rcases hfind : (neighbours circle).find? fun d => d.1 = e.1 with _ | d
  · exact absurd (decide_eq_true rfl) (List.find?_eq_none.1 hfind e he)
  · have hd := List.find?_some hfind
    refine ⟨d, List.mem_of_find?_eq_some hfind, hdrop.trans hfind, ?_⟩
    rw [hlargest, of_decide_eq_true hd]

/-- While something is left over, an edge of a circle can be dropped. -/
theorem exists_drop (h : g.sort.2 ≠ []) :
    ∃ e ∈ g.edges, edgeToDrop? (g.circle g.sort.2) = some e ∧
      e ∈ neighbours (g.circle g.sort.2) := by
  have hcircle := isCircle_circle h
  obtain ⟨e, hmem, hdrop, -⟩ := exists_edgeToDrop hcircle
  exact ⟨e, hcircle.of_mem_neighbours hmem, hdrop, hmem⟩

end Graph

end Provision.Plan
