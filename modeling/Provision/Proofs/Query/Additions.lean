import Mathlib.Data.List.Nodup
import Provision.Proofs.Construction
import Provision.Proofs.Query

/-!
# Offers that are added again

Whatever an index says of an offer (in its list of offers, in answers to queries, in its metadata and
in its saved form) it says from the one entry that it keeps under the offer (`Built.tells_iff`). If an
offer is added again, the entry keeps the package as it was, and with it the old checksum, and takes
over the new metadata. So the index tells the last addition of an offer just if that repeats the
checksum of the first (`Built.tells_last_iff`), and else a mixture (`not_all_tell_last`).
-/

namespace Provision.Index

variable {added : List Entry} {ix : Index} {e : Entry}

/-- What the index says of an offer is what the entry says. -/
structure Tells (ix : Index) (e : Entry) : Prop where
  /-- The entry is the only one under its offer, and is saved as it is. -/
  listed : ∃ before after, ix.offeredEntries = before ++ e :: after ∧
    ix.toUniverse.available = before.map .ofEntry ++ .ofEntry e :: after.map .ofEntry ∧
    ∀ other ∈ before ++ after, other.package.offer ≠ e.package.offer
  /-- Unless an installed package stands in its place, queries answer with the package. -/
  answered : ∀ f : Filter,
    (f.side = some .offered ∨ ∀ q ∈ ix.installedPackages, q.offer ≠ e.package.offer) →
      ∀ p : Package, p.offer = e.package.offer → (p ∈ ix.query f ↔ p = e.package ∧ ix.Answers f p)
  /-- Unless an installed package speaks for it, its metadata are those of the entry. -/
  known : (∀ q ∈ ix.installedPackages, q.offer ≠ e.package.offer) →
    ix.metadata? e.package = some e.metadata

theorem Tells.mem (h : ix.Tells e) : e ∈ ix.offeredEntries := by
  obtain ⟨before, after, hsplit, -⟩ := h.listed
  rw [hsplit]
  exact List.mem_append_right before List.mem_cons_self

/-! ## The entry that is kept -/

section Kept

variable
  (hkeyed : ∀ (o : Offer) (entry : Entry), ix.offered[o]? = some entry → entry.package.offer = o)
  (h : ix.offered[e.package.offer]? = some e)

include hkeyed h

theorem eq_of_mem_offered {other : Entry} (hother : other ∈ ix.offeredEntries)
    (hoffer : other.package.offer = e.package.offer) : other = e := by
  obtain ⟨o, ho⟩ := mem_values_iff.1 hother
  rw [← hkeyed o other ho, hoffer, h] at ho
  exact (Option.some.inj ho).symm

theorem exists_split : ∃ before after, ix.offeredEntries = before ++ e :: after ∧
    ∀ other ∈ before ++ after, other.package.offer ≠ e.package.offer := by
  obtain ⟨before, after, hsplit⟩ := List.append_of_mem (mem_values_iff.2 ⟨e.package.offer, h⟩)
  have hnodup := nodup_map_values (fun entry : Entry => entry.package.offer) hkeyed
  rw [hsplit, List.map_append, List.map_cons, List.nodup_middle, ← List.map_append,
    List.nodup_cons] at hnodup
  exact ⟨before, after, hsplit, fun other hother hoffer =>
    hnodup.1 (hoffer ▸ List.mem_map_of_mem hother)⟩

/-- What is not installed answers a query only as it is kept. -/
theorem eq_of_answers {f : Filter}
    (hfree : f.side = some .offered ∨ ∀ q ∈ ix.installedPackages, q.offer ≠ e.package.offer)
    {p : Package} (hoffer : p.offer = e.package.offer) (hp : ix.Answers f p) : p = e.package := by
  rcases hp.2 with ⟨hside, hinstalled⟩ | ⟨-, hoffered, -⟩
  · rcases hfree with hoffered | hfree
    · exact absurd hoffered hside
    · exact absurd hoffer (hfree p hinstalled)
  · obtain ⟨entry, hentry, rfl⟩ := List.mem_map.1 hoffered
    rw [eq_of_mem_offered hkeyed h hentry hoffer]

theorem mem_query_iff_of_kept {f : Filter}
    (hfree : f.side = some .offered ∨ ∀ q ∈ ix.installedPackages, q.offer ≠ e.package.offer)
    {p : Package} (hoffer : p.offer = e.package.offer) :
    p ∈ ix.query f ↔ p = e.package ∧ ix.Answers f p := by
  constructor
  · intro hp
    have hanswers := mem_of_mem_query hp
    exact ⟨eq_of_answers hkeyed h hfree hoffer hanswers, hanswers⟩
  · rintro ⟨rfl, hanswers⟩
    obtain ⟨q, hq, hbuild, hrepo⟩ := exists_mem_query hanswers
    have hsame : q.offer = e.package.offer := by
      rw [Package.offer, Package.offer, hbuild, hrepo]
    rwa [eq_of_answers hkeyed h hfree hsame (mem_of_mem_query hq)] at hq

omit hkeyed in
theorem metadata?_of_kept (hfree : ∀ q ∈ ix.installedPackages, q.offer ≠ e.package.offer) :
    ix.metadata? e.package = some e.metadata := by
  have hoffered : ix.offeredMetadata? e.package = some e.metadata := by
    unfold offeredMetadata?
    rw [h]
  unfold metadata?
  split
  · rename_i entry hentry
    rw [if_neg, hoffered, Option.some_or]
    intro hrepo
    obtain ⟨hslot, hbuild⟩ := Option.filter_eq_some_iff.1 hentry
    have hbuild : entry.package.build = e.package.build := of_decide_eq_true hbuild
    refine hfree entry.package (List.mem_map_of_mem (mem_values_iff.2 ⟨_, hslot⟩)) ?_
    rw [Package.offer, Package.offer, hbuild, hrepo]
  · exact hoffered

end Kept

/-- An index tells what it keeps. -/
theorem Built.tells_iff (h : Built added ix) :
    ix.Tells e ↔ ix.offered[e.package.offer]? = some e := by
  have hkeyed (o : Offer) (entry : Entry) (hentry : ix.offered[o]? = some entry) :
      entry.package.offer = o := h.offer_eq hentry
  constructor
  · intro htells
    obtain ⟨o, ho⟩ := mem_values_iff.1 htells.mem
    rw [hkeyed o e ho]
    exact ho
  · intro hkept
    obtain ⟨before, after, hsplit, hothers⟩ := exists_split hkeyed hkept
    refine ⟨⟨before, after, hsplit, ?_, hothers⟩, fun f hfree p hoffer => ?_, fun hfree => ?_⟩
    · unfold toUniverse
      rw [hsplit, List.map_append, List.map_cons]
    · exact mem_query_iff_of_kept hkeyed hkept hfree hoffer
    · exact metadata?_of_kept hkept hfree

/-! ## The first addition and the last -/

/-- Of one build and repository, packages differ in their checksums at most. -/
theorem package_ext {p q : Package} (hoffer : p.offer = q.offer) (hsum : p.checksum = q.checksum) :
    p = q := by
  rcases p with ⟨build, repo, checksum⟩
  rcases q with ⟨build', repo', checksum'⟩
  cases hoffer
  cases hsum
  rfl

/--
An index lists offers that were added, and of each of them it tells the checksum that came first with
the metadata that came last. So it tells the last addition just if both have the same checksum.
-/
theorem Built.tells_last_iff (h : Built added ix) :
    (∀ e ∈ ix.offeredEntries, ∃ last, lastOf? added e.package.offer = some last) ∧
      ∀ o first last, firstOf? added o = some first → lastOf? added o = some last →
        ix.Tells ⟨first.package, last.metadata⟩ ∧
          (ix.Tells last ↔ last.package.checksum = first.package.checksum) := by
  refine ⟨fun e he => ?_, fun o first last hfirst hlast => ?_⟩
  · obtain ⟨o, ho⟩ := mem_values_iff.1 he
    rw [h.offer_eq ho]
    rw [h.getElem?_offered] at ho
    obtain ⟨first, -, ho⟩ := Option.bind_eq_some_iff.1 ho
    obtain ⟨last, hlast, -⟩ := Option.map_eq_some_iff.1 ho
    exact ⟨last, hlast⟩
  · have hfirsto := offer_of_firstOf? hfirst
    have hlasto := offer_of_lastOf? hlast
    have hkept : ix.offered[o]? = some ⟨first.package, last.metadata⟩ := by
      rw [h.getElem?_offered, keptOf?, hfirst, hlast]
      rfl
    refine ⟨h.tells_iff.2 ?_, h.tells_iff.trans ?_⟩
    · show ix.offered[first.package.offer]? = _
      rw [hfirsto]
      exact hkept
    · rw [hlasto, hkept, Option.some.injEq]
      constructor
      · intro heq
        rw [← heq]
      · intro hsum
        rw [package_ext (hfirsto.trans hlasto.symm) hsum.symm]

/-! ### An offer with other metadata, and with another checksum -/

/-- An offer of one build by one repository. -/
def appEntry (checksum : String) (metadata : Metadata) : Entry :=
  ⟨⟨⟨"app", "noarch", ⟨0, "1", some "1"⟩⟩, "base", some checksum⟩, metadata⟩

/-- The second description says more. -/
def toldMore : Metadata := { installBefore := ["tool"] }

def indexOfTwo (first last : Entry) : Index :=
  (({} : Index).addOffered first.package first.metadata).addOffered last.package last.metadata

theorem built_indexOfTwo (first last : Entry) : Built [first, last] (indexOfTwo first last) :=
  .offered (.offered .empty first) last

theorem tells_last_iff_same_checksum :
    Built [appEntry "old" {}, appEntry "old" toldMore]
        (indexOfTwo (appEntry "old" {}) (appEntry "old" toldMore)) ∧
      (indexOfTwo (appEntry "old" {}) (appEntry "old" toldMore)).Tells (appEntry "old" toldMore) := by
  have hbuilt := built_indexOfTwo (appEntry "old" {}) (appEntry "old" toldMore)
  have hfirst : firstOf? [appEntry "old" {}, appEntry "old" toldMore] (appEntry "old" {}).package.offer =
      some (appEntry "old" {}) := rfl
  exact ⟨hbuilt, (hbuilt.tells_last_iff.2 _ _ (appEntry "old" toldMore) hfirst rfl).2.2 rfl⟩

theorem not_all_tell_last :
    ¬ ∀ (added : List Entry) (ix : Index), Built added ix →
      ∀ o last, lastOf? added o = some last → ix.Tells last := by
  intro hall
  have hbuilt := built_indexOfTwo (appEntry "old" {}) (appEntry "new" toldMore)
  have htells := hall _ _ hbuilt (appEntry "old" {}).package.offer _ rfl
  have hkept := hbuilt.tells_iff.1 htells
  rw [hbuilt.getElem?_offered] at hkept
  revert hkept
  decide

end Provision.Index
