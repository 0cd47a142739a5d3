import Mathlib
import Provision.Constraint
import Provision.Proofs.Evr.Order

/-!
# The versions that a constraint selects

A constraint is the conjunction of its bounds (`satisfiedBy_iff`), each of which looks at how a
version ranks against the one that it names. Among versions that have a release this rank follows
their order, whether or not the named version has a release (`rankLoosely_eq`): what is not older
does not rank lower. So a bound that asks for newer versions selects upward and one that asks for
older versions downward, what lies between two versions that match a bound exactly matches it too,
and without `!=` a constraint selects an interval (`selects_interval`).
-/

namespace Provision

/-! ## Ranks against a bound -/

namespace Evr

variable {x y : Evr}

/-- The rank without the release where the bound has none. -/
def rankFor (bound : Evr) : Evr → Evr → Ordering :=
  if bound.release.isSome then rank else rankVersion

instance (bound : Evr) : Std.TransCmp (rankFor bound) := by
  unfold rankFor
  split <;> infer_instance

theorem isLE_rankFor (h : (compare x y).isLE) (bound : Evr) : (rankFor bound x y).isLE := by
  have hrank : (rank x y).isLE := Ordering.isLE_left_of_isLE_then h
  unfold rankFor
  split
  · exact hrank
  · exact Ordering.isLE_left_of_isLE_then hrank

theorem rankLoosely_eq (hx : x.release.isSome) (bound : Evr) :
    x.rankLoosely bound = rankFor bound x bound := by
  obtain ⟨r, hr⟩ := Option.isSome_iff_exists.1 hx
  unfold rankLoosely rankFor
  rcases hbound : bound.release with _ | s
  · simp only [hr, Option.isSome_none, Bool.false_eq_true, ↓reduceIte, Ordering.then_eq]
  · simp only [hr, Option.isSome_some, ↓reduceIte, rank, hbound]

variable (hx : x.release.isSome) (hy : y.release.isSome) (h : (compare x y).isLE) {bound : Evr}

include hx hy h

theorem rankLoosely_lt_of_isLE (hlt : y.rankLoosely bound = .lt) : x.rankLoosely bound = .lt := by
  rw [rankLoosely_eq hx]
  rw [rankLoosely_eq hy] at hlt
  exact Std.TransCmp.lt_of_isLE_of_lt (isLE_rankFor h bound) hlt

theorem rankLoosely_gt_of_isLE (hgt : x.rankLoosely bound = .gt) : y.rankLoosely bound = .gt := by
  rw [rankLoosely_eq hy]
  rw [rankLoosely_eq hx] at hgt
  have hlow : rankFor bound bound x = .lt := Std.OrientedCmp.lt_of_gt hgt
  exact Std.OrientedCmp.gt_of_lt (Std.TransCmp.lt_of_lt_of_isLE hlow (isLE_rankFor h bound))

end Evr

/-! ## Single bounds -/

namespace Comparison

/-- The comparison asks for newer versions. -/
def AsksNewer (c : Comparison) : Prop := c = newer ∨ c = newerOrEqual

/-- The comparison asks for older versions. -/
def AsksOlder (c : Comparison) : Prop := c = older ∨ c = olderOrEqual

variable {c : Comparison} {x y z bound : Evr} (hx : x.release.isSome) (hy : y.release.isSome)
  (hxy : (compare x y).isLE)

include hx hy hxy

theorem AsksNewer.holds_of_isLE (hc : c.AsksNewer) (h : c.holds (x.rankLoosely bound)) :
    c.holds (y.rankLoosely bound) := by
  rcases hc with rfl | rfl
  · have hgt : x.rankLoosely bound = .gt := eq_of_beq h
    exact beq_iff_eq.2 (Evr.rankLoosely_gt_of_isLE hx hy hxy hgt)
  · have hne : x.rankLoosely bound ≠ .lt := bne_iff_ne.1 h
    exact bne_iff_ne.2 fun hlt => hne (Evr.rankLoosely_lt_of_isLE hx hy hxy hlt)

theorem AsksOlder.holds_of_isLE (hc : c.AsksOlder) (h : c.holds (y.rankLoosely bound)) :
    c.holds (x.rankLoosely bound) := by
  rcases hc with rfl | rfl
  · have hlt : y.rankLoosely bound = .lt := eq_of_beq h
    exact beq_iff_eq.2 (Evr.rankLoosely_lt_of_isLE hx hy hxy hlt)
  · have hne : y.rankLoosely bound ≠ .gt := bne_iff_ne.1 h
    exact bne_iff_ne.2 fun hgt => hne (Evr.rankLoosely_gt_of_isLE hx hy hxy hgt)

/-- Where a bound holds below and above, it holds in between. -/
theorem holds_between (hc : c ≠ unequal) (hz : z.release.isSome) (hyz : (compare y z).isLE)
    (hbelow : c.holds (x.rankLoosely bound)) (habove : c.holds (z.rankLoosely bound)) :
    c.holds (y.rankLoosely bound) := by
  cases c with
  | newer => exact AsksNewer.holds_of_isLE hx hy hxy (.inl rfl) hbelow
  | newerOrEqual => exact AsksNewer.holds_of_isLE hx hy hxy (.inr rfl) hbelow
  | older => exact AsksOlder.holds_of_isLE hy hz hyz (.inl rfl) habove
  | olderOrEqual => exact AsksOlder.holds_of_isLE hy hz hyz (.inr rfl) habove
  | unequal => exact absurd rfl hc
  | equal =>
    have hx' : x.rankLoosely bound = .eq := eq_of_beq hbelow
    have hz' : z.rankLoosely bound = .eq := eq_of_beq habove
    show (y.rankLoosely bound == .eq) = true
    rcases hy' : y.rankLoosely bound with _ | _ | _
    · have hlt := Evr.rankLoosely_lt_of_isLE hx hy hxy hy'
      rw [hx'] at hlt
      cases hlt
    · rfl
    · have hgt := Evr.rankLoosely_gt_of_isLE hy hz hyz hy'
      rw [hz'] at hgt
      cases hgt

end Comparison

/-! ## Conjunctions -/

namespace Constraint

/-- The comparisons in a constraint, each with the version that it names. -/
def bounds : Constraint → List (Comparison × Evr)
  | any => []
  | bound comparison evr => [(comparison, evr)]
  | both left right => left.bounds ++ right.bounds

theorem satisfiedBy_iff {c : Constraint} {version : Evr} :
    c.satisfiedBy version ↔ ∀ b ∈ c.bounds, b.1.holds (version.rankLoosely b.2) := by
  induction c with
  | any => simp [satisfiedBy, bounds]
  | bound comparison evr => simp [satisfiedBy, bounds]
  | both left right ihl ihr =>
    unfold satisfiedBy bounds
    rw [Bool.and_eq_true, ihl, ihr, List.forall_mem_append]

/-- What is selected reaches upward, among the versions that have a release. -/
def SelectsUpward (c : Constraint) : Prop :=
  ∀ x y : Evr, x.release.isSome → y.release.isSome → (compare x y).isLE →
    c.satisfiedBy x → c.satisfiedBy y

/-- What is selected reaches downward, among the versions that have a release. -/
def SelectsDownward (c : Constraint) : Prop :=
  ∀ x y : Evr, x.release.isSome → y.release.isSome → (compare x y).isLE →
    c.satisfiedBy y → c.satisfiedBy x

/-- What is selected has no gaps, among the versions that have a release. -/
def SelectsInterval (c : Constraint) : Prop :=
  ∀ x y z : Evr, x.release.isSome → y.release.isSome → z.release.isSome →
    (compare x y).isLE → (compare y z).isLE →
    c.satisfiedBy x → c.satisfiedBy z → c.satisfiedBy y

/--
A constraint without `!=` selects an interval, one that only asks for newer versions selects upward,
and one that only asks for older versions downward.
-/
theorem selects_interval (c : Constraint) :
    ((∀ b ∈ c.bounds, b.1 ≠ .unequal) → c.SelectsInterval) ∧
      ((∀ b ∈ c.bounds, b.1.AsksNewer) → c.SelectsUpward) ∧
      ((∀ b ∈ c.bounds, b.1.AsksOlder) → c.SelectsDownward) := by
  refine ⟨fun hbounds x y z hx hy hz hxy hyz hbelow habove => ?_,
    fun hbounds x y hx hy hxy h => ?_, fun hbounds x y hx hy hxy h => ?_⟩
  · rw [satisfiedBy_iff] at hbelow habove ⊢
    exact fun b hb => Comparison.holds_between hx hy hxy (hbounds b hb) hz hyz (hbelow b hb)
      (habove b hb)
  · rw [satisfiedBy_iff] at h ⊢
    exact fun b hb => (hbounds b hb).holds_of_isLE hx hy hxy (h b hb)
  · rw [satisfiedBy_iff] at h ⊢
    exact fun b hb => (hbounds b hb).holds_of_isLE hx hy hxy (h b hb)

/-- The bound with a release and the one without select one interval. -/
theorem selects_interval_range :
    (both (bound .newerOrEqual ⟨0, "1", none⟩) (bound .older ⟨0, "2", some "3"⟩)).satisfiedBy
      ⟨0, "1.5", some "1"⟩ :=
  (selects_interval _).1 (by decide) ⟨0, "1", some "1"⟩ ⟨0, "1.5", some "1"⟩ ⟨0, "2", some "2"⟩
    rfl rfl rfl (by cbv) (by cbv) (by cbv) (by cbv)

/-- Without a release `1` is as good as `1-5`, but `1-1`, which is not older, is not. -/
example : (bound .newerOrEqual ⟨0, "1", some "5"⟩).satisfiedBy ⟨0, "1", none⟩ = true ∧
    (bound .newerOrEqual ⟨0, "1", some "5"⟩).satisfiedBy ⟨0, "1", some "1"⟩ = false := by cbv

end Constraint

end Provision
