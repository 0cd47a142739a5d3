import Provision.Proofs.Evr.Tokens

/-!
# The order of versions

EVRs rank by the epoch and by the tokens of version and release (`rankVersion_eq`, `rank_eq`), and
those of one rank compare by their texts. So the order is transitive, only equal EVRs compare as
equal, and of two different ones one is older (`older_or_older`). It follows the rank as long as
there is a difference in rank (`older_iff`).
-/

namespace Provision.Evr

theorem rankVersion_eq : rankVersion =
    compareLex (compareOn Evr.epoch) (compareOn fun e => tokens e.version.toList) := by
  funext a b
  unfold rankVersion
  rw [compareTexts_eq]
  rfl

theorem rank_eq : rank =
    compareLex rankVersion (compareOn fun e => e.release.map fun r => tokens r.toList) := by
  funext a b
  unfold rank
  rw [compareTexts_eq]
  rcases hr : a.release with _ | r <;> rcases hs : b.release with _ | s <;>
    simp only [compareLex, compareOn, hr, hs] <;> rfl

instance : Std.TransCmp rankVersion := by
  rw [rankVersion_eq]
  infer_instance

instance : Std.TransCmp rank := by
  rw [rank_eq]
  infer_instance

instance : Std.TransOrd Evr :=
  inferInstanceAs (Std.TransCmp
    (compareLex rank (compareLex (compareOn Evr.version) (compareOn Evr.release))))

instance : Std.LawfulEqOrd Evr where
  eq_of_compare {a b} h := by
    obtain ⟨hrank, htexts⟩ := Ordering.then_eq_eq.1 h
    obtain ⟨hversion, hrelease⟩ := Ordering.then_eq_eq.1 htexts
    obtain ⟨hranked, -⟩ := Ordering.then_eq_eq.1 hrank
    obtain ⟨hepoch, -⟩ := Ordering.then_eq_eq.1 hranked
    have he : a.epoch = b.epoch := Std.LawfulEqOrd.eq_of_compare hepoch
    have hv : a.version = b.version := Std.LawfulEqOrd.eq_of_compare hversion
    have hr : a.release = b.release := Std.LawfulEqOrd.eq_of_compare hrelease
    cases a
    cases b
    simp_all

/-- How the texts of two versions compare: the version first, then the release. -/
def compareWritten (a b : Evr) : Ordering :=
  (compare a.version b.version).then (compare a.release b.release)

/-- `a` ranks lower than `b`, or both rank alike and `a` is written with lower texts. -/
def Below (a b : Evr) : Prop := rank a b = .lt ∨ rank a b = .eq ∧ compareWritten a b = .lt

theorem older_iff {a b : Evr} : a.Older b ↔ a.Below b := Ordering.then_eq_lt

theorem not_older_self (a : Evr) : ¬ a.Older a := by
  intro h
  have hself : compare a a = .eq := Std.ReflCmp.compare_self
  unfold Older at h
  rw [hself] at h
  cases h

theorem Older.not_older {a b : Evr} (h : a.Older b) : ¬ b.Older a := by
  intro hback
  exact not_older_self a (Std.TransCmp.lt_trans h hback)

/-- Of two different versions one is older. -/
theorem older_or_older {a b : Evr} (hne : a ≠ b) : a.Older b ∨ b.Older a := by
  unfold Older
  rcases hcompare : compare a b with _ | _ | _
  · exact .inl rfl
  · exact absurd (Std.LawfulEqOrd.eq_of_compare hcompare) hne
  · exact .inr (Std.OrientedCmp.lt_of_gt hcompare)

end Provision.Evr
