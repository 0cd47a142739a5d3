import Provision.Index.Apply
import Provision.Proofs.Universe

/-!
# How indexes come about

An index starts empty. From then on packages are put into it, offers are added and hidden, and items
are carried out on it. `Index.Built` says which offers were added on the way, in their order. Two
things hold of every index that came about like this:

1. It knows why each installed package is installed (`Built.reasoned`).
2. Under an offer it keeps the package of the first addition with the metadata of the last
   (`Built.getElem?_offered`), and nothing else that is done to it touches the offers.

Reading a universe is one way to build an index (`built_ofUniverse`).
-/

namespace Provision.Index

/-- The index came about from the empty one, and these offers were added meanwhile. -/
inductive Built : List Entry → Index → Prop
  | empty : Built [] {}
  | installed {added : List Entry} {ix : Index} (h : Built added ix) (p : Package)
      (metadata : Metadata) : Built added (ix.addInstalled p metadata)
  | offered {added : List Entry} {ix : Index} (h : Built added ix) (entry : Entry) :
      Built (added ++ [entry]) (ix.addOffered entry.package entry.metadata)
  | hidden {added : List Entry} {ix ix' : Index} (h : Built added ix) {patterns : List String}
      (hset : ix.setExcludes patterns = .ok ix') : Built added ix'
  | applied {added : List Entry} {ix : Index} (h : Built added ix) (i : Item) :
      Built added (ix.apply i).value.1

variable {added : List Entry} {ix ix' : Index}

/-! ## Steps -/

/-- The index hides other offers; else nothing changes. -/
theorem setExcludes_eq_ok {patterns : List String} (h : ix.setExcludes patterns = .ok ix') :
    ix' = { ix with excludes := patterns.map Pattern.ofText } := by
  unfold setExcludes at h
  split at h
  · cases h
  · exact (Except.ok.inj h).symm

/-- What carrying out an item can do: nothing, empty the slot, or fill it with a reason. -/
theorem apply_cases (ix : Index) (i : Item) :
    (ix.apply i).value.1 = ix ∨ (ix.apply i).value.1 = ix.vacate i.package.slot ∨
      ∃ metadata : Metadata, (ix.apply i).value.1 =
        ix.occupy ⟨i.package, { metadata with reason := some (ix.reasonAfter i) }⟩ := by
  unfold apply
  split
  · unfold applyRemoval
    split
    · exact .inr (.inl rfl)
    · exact .inl rfl
  · unfold applyInbound
    split
    · exact .inl rfl
    · rename_i metadata _
      exact .inr (.inr ⟨metadata, rfl⟩)

theorem offered_apply (ix : Index) (i : Item) : (ix.apply i).value.1.offered = ix.offered := by
  rcases apply_cases ix i with h | h | ⟨metadata, h⟩ <;> rw [h] <;> rfl

/-! ## Reasons -/

/-- The index knows why each installed package is installed. -/
def Reasoned (ix : Index) : Prop :=
  ∀ (slot : Slot) (entry : Entry), ix.installed[slot]? = some entry → entry.metadata.reason.isSome

theorem Reasoned.occupy (h : ix.Reasoned) {entry : Entry} (hreason : entry.metadata.reason.isSome) :
    (ix.occupy entry).Reasoned := by
  intro slot other hother
  unfold Index.occupy at hother
  dsimp only at hother
  rw [Std.TreeMap.getElem?_insert] at hother
  split at hother
  · cases hother
    exact hreason
  · exact h slot other hother

theorem Reasoned.vacate (h : ix.Reasoned) (slot : Slot) : (ix.vacate slot).Reasoned := by
  intro other entry hentry
  unfold Index.vacate at hentry
  dsimp only at hentry
  rw [Std.TreeMap.getElem?_erase] at hentry
  split at hentry
  · cases hentry
  · exact h other entry hentry

theorem Built.reasoned (h : Built added ix) : ix.Reasoned := by
  induction h with
  | empty => exact fun slot entry hentry => nomatch hentry
  | installed _ p metadata ih => exact ih.occupy rfl
  | offered _ entry ih => exact ih
  | hidden _ hset ih => exact setExcludes_eq_ok hset ▸ ih
  | @applied _ ix _ i ih =>
    rcases apply_cases ix i with h | h | ⟨metadata, h⟩
    · rw [h]
      exact ih
    · rw [h]
      exact ih.vacate i.package.slot
    · rw [h]
      exact ih.occupy rfl

/-! ## Offers -/

/-- The first of the additions under an offer. -/
def firstOf? (added : List Entry) (o : Offer) : Option Entry :=
  added.find? fun entry => entry.package.offer = o

/-- The last of them. -/
def lastOf? (added : List Entry) (o : Offer) : Option Entry :=
  added.reverse.find? fun entry => entry.package.offer = o

/-- The package as it was described first, with the metadata that came last. -/
def keptOf? (added : List Entry) (o : Offer) : Option Entry :=
  (firstOf? added o).bind fun first =>
    (lastOf? added o).map fun last => ⟨first.package, last.metadata⟩

variable {o : Offer}

theorem offer_of_firstOf? {entry : Entry} (h : firstOf? added o = some entry) :
    entry.package.offer = o := by
  unfold firstOf? at h
  have hentry := List.find?_some h
  exact of_decide_eq_true hentry

theorem offer_of_lastOf? {entry : Entry} (h : lastOf? added o = some entry) :
    entry.package.offer = o := by
  unfold lastOf? at h
  have hentry := List.find?_some h
  exact of_decide_eq_true hentry

theorem firstOf?_eq_none_iff (added : List Entry) (o : Offer) :
    firstOf? added o = none ↔ lastOf? added o = none := by
  unfold firstOf? lastOf?
  rw [List.find?_eq_none, List.find?_eq_none]
  simp only [List.mem_reverse]

theorem firstOf?_append (entry : Entry) (hentry : entry.package.offer = o) :
    firstOf? (added ++ [entry]) o = some ((firstOf? added o).getD entry) := by
  unfold firstOf?
  rw [List.find?_append, List.find?_singleton, if_pos (decide_eq_true hentry)]
  generalize added.find? (fun entry => decide (entry.package.offer = o)) = first?
  cases first? <;> rfl

theorem lastOf?_append (entry : Entry) (hentry : entry.package.offer = o) :
    lastOf? (added ++ [entry]) o = some entry := by
  unfold lastOf?
  rw [List.reverse_append, List.reverse_singleton, List.singleton_append]
  exact List.find?_cons_of_pos (decide_eq_true hentry)

theorem keptOf?_append_of_ne (entry : Entry) (hentry : entry.package.offer ≠ o) :
    keptOf? (added ++ [entry]) o = keptOf? added o := by
  have hfalse : ¬ decide (entry.package.offer = o) := fun h => hentry (of_decide_eq_true h)
  have hfirst : firstOf? (added ++ [entry]) o = firstOf? added o := by
    unfold firstOf?
    rw [List.find?_append, List.find?_singleton, if_neg hfalse, Option.or_none]
  have hlast : lastOf? (added ++ [entry]) o = lastOf? added o := by
    unfold lastOf?
    rw [List.reverse_append, List.reverse_singleton, List.singleton_append]
    exact List.find?_cons_of_neg hfalse
  unfold keptOf?
  rw [hfirst, hlast]

/-- Adding an offer once more changes the metadata that are kept, and nothing else. -/
theorem keptOf?_append_self (entry : Entry) :
    keptOf? (added ++ [entry]) entry.package.offer =
      some { (keptOf? added entry.package.offer).getD entry with metadata := entry.metadata } := by
  have hnone := firstOf?_eq_none_iff added entry.package.offer
  unfold keptOf?
  rw [firstOf?_append entry rfl, lastOf?_append entry rfl]
  rcases hfirst : firstOf? added entry.package.offer with _ | first
  · rfl
  · rcases hlast : lastOf? added entry.package.offer with _ | last
    · rw [hnone.2 hlast] at hfirst
      cases hfirst
    · rfl

theorem getElem?_addOffered (ix : Index) (entry : Entry) (o : Offer) :
    (ix.addOffered entry.package entry.metadata).offered[o]? =
      if entry.package.offer = o then
        some { (ix.offered[o]?).getD entry with metadata := entry.metadata }
      else ix.offered[o]? := by
  unfold addOffered
  dsimp only
  rw [Std.TreeMap.getElem?_insert]
  simp only [Std.LawfulEqCmp.compare_eq_iff_eq]
  split
  · rename_i heq
    rw [heq]
  · rfl

theorem Built.getElem?_offered (h : Built added ix) (o : Offer) :
    ix.offered[o]? = keptOf? added o := by
  induction h with
  | empty => rfl
  | installed _ p metadata ih => exact ih
  | offered _ entry ih =>
    rw [getElem?_addOffered]
    split
    · rename_i heq
      rw [ih, ← heq, keptOf?_append_self]
    · rename_i hne
      rw [ih, keptOf?_append_of_ne entry hne]
  | hidden _ hset ih => exact setExcludes_eq_ok hset ▸ ih
  | applied _ i ih => rw [offered_apply, ih]

/-- What is offered is kept under its own offer. -/
theorem Built.offer_eq (h : Built added ix) {entry : Entry} (hentry : ix.offered[o]? = some entry) :
    entry.package.offer = o := by
  rw [h.getElem?_offered, keptOf?, Option.bind_eq_some_iff] at hentry
  obtain ⟨first, hfirst, hentry⟩ := hentry
  obtain ⟨last, -, hentry⟩ := Option.map_eq_some_iff.1 hentry
  have hfirst := offer_of_firstOf? hfirst
  cases hentry
  exact hfirst

/-! ## Universes -/

theorem built_ofEntries (installed offered : List Entry) :
    Built offered (ofEntries installed offered) := by
  have hinstalled : Built [] (installed.foldl
      (fun ix entry => ix.addInstalled entry.package entry.metadata) {}) :=
    List.foldlRecOn (motive := fun ix : Index => Built [] ix) installed _ .empty
      fun ix h entry _ => h.installed entry.package entry.metadata
  have hoffered (rest : List Entry) {added : List Entry} {ix : Index} (h : Built added ix) :
      Built (added ++ rest)
        (rest.foldl (fun ix entry => ix.addOffered entry.package entry.metadata) ix) := by
    induction rest generalizing added ix with
    | nil => rwa [List.append_nil]
    | cons entry rest ih =>
      rw [List.foldl_cons, List.append_cons added entry rest]
      exact ih (h.offered entry)
  exact hoffered offered hinstalled

/-- An index that is read from a universe is built, with the offers that the universe lists. -/
theorem built_ofUniverse {u : Universe} (h : ofUniverse u = .ok ix) :
    ∃ offered, List.Forall₂ (fun w entry => w.read availableRepo = .ok entry) u.available offered ∧
      Built offered ix := by
  obtain ⟨installed, offered, -, hread, rfl⟩ := ofUniverse_eq_ok_iff.1 h
  exact ⟨offered, hread, built_ofEntries installed offered⟩

end Provision.Index
