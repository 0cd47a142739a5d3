import Mathlib.Algebra.Group.Nat.Defs
import Mathlib.Data.List.Sort
import Provision.History

/-!
# Writing into the tables

The tables could refuse a row for several reasons. None of them comes up when a record is kept: the
words are among those that the columns take (`text_mem_stateWords_iff`, `text_mem_resultWords`), and
since no item belongs to a number that is not taken, nothing stands in the way of the rows of its
items (`Store.exists_write`). So a record is refused for the two reasons that are looked at
beforehand (`Store.record_of_not_isFinal`, `Store.record_of_mem`), and else the store holds what it
held and the record besides (`Store.exists_record`).
-/

namespace Provision.History

/-! ## Numbers -/

/-- Numbers below this bound are kept as they are. -/
def idLimit : Nat := 2 ^ 63

theorem signed_of_lt {n : Nat} (h : n < idLimit) : signed n = n := by
  unfold idLimit at h
  unfold signed
  refine Int.bmod_eq_of_le ?_ ?_ <;> simp only [UInt64.size] <;> omega

theorem signed_inj {m n : Nat} (hm : m < idLimit) (hn : n < idLimit) (h : signed m = signed n) :
    m = n := by
  rw [signed_of_lt hm, signed_of_lt hn] at h
  exact Int.ofNat.inj h

/-! ## Words -/

/-- A row can be kept of a transaction just when it is finished. -/
theorem text_mem_stateWords_iff {s : State} : s.text ∈ stateWords ↔ s.isFinal := by
  cases s <;> decide

theorem text_mem_resultWords (r : Result) : r.text ∈ resultWords := by
  cases r <;> decide

/-! ## Lists in order -/

/-- A list in increasing order is determined by what is in it. -/
theorem eq_of_increasing {α κ : Type} [Preorder κ] {key : α → κ} {xs ys : List α}
    (hxs : xs.Pairwise fun a b => key a < key b) (hys : ys.Pairwise fun a b => key a < key b)
    (hmem : ∀ a, a ∈ xs ↔ a ∈ ys) : xs = ys := by
  have : Std.Irrefl fun a b => key a < key b := ⟨fun a => lt_irrefl (key a)⟩
  have : Std.Antisymm fun a b => key a < key b := ⟨fun _ _ hab hba => absurd hba (lt_asymm hab)⟩
  exact hxs.eq_of_mem_iff hys hmem

namespace Store

variable {store store' : Store} {key other : Int} {place : Place} {i : RowItem}

/-! ## The items of a transaction -/

theorem mem_entriesOf_iff :
    (place, i) ∈ store.entriesOf key ↔ store.items[place]? = some i ∧ place.owner = key := by
  unfold entriesOf
  rw [List.mem_filter, Std.TreeMap.mem_toList_iff_getElem?_eq_some, decide_eq_true_iff]

theorem pairwise_entriesOf (store : Store) (key : Int) :
    (store.entriesOf key).Pairwise fun a b => a.1.position < b.1.position := by
  unfold entriesOf
  refine List.pairwise_filter.2 (Std.TreeMap.ordered_keys_toList.imp fun {a b} h ha hb => ?_)
  have howner : compare a.1.owner b.1.owner = .eq :=
    Std.compare_eq_iff_eq.2 ((decide_eq_true_iff.1 ha).trans (decide_eq_true_iff.1 hb).symm)
  rw [Place.compare_eq_then, howner] at h
  exact Std.compare_eq_lt.1 h

/-- The rows of a transaction's items are known when they are known in order. -/
theorem entriesOf_eq {entries : List (Place × RowItem)}
    (hsorted : entries.Pairwise fun a b => a.1.position < b.1.position)
    (hmem : ∀ place i, (place, i) ∈ entries ↔ store.items[place]? = some i ∧ place.owner = key) :
    store.entriesOf key = entries :=
  eq_of_increasing (pairwise_entriesOf store key) hsorted fun (place, i) =>
    mem_entriesOf_iff.trans (hmem place i).symm

theorem entriesOf_eq_nil (hkey : key ∉ store.rows) : store.entriesOf key = [] := by
  refine entriesOf_eq .nil fun place i => iff_of_false List.not_mem_nil ?_
  rintro ⟨hget, rfl⟩
  exact hkey (store.owned place (Std.TreeMap.mem_iff_isSome_getElem?.2 (by rw [hget]; rfl)))

/-- An item behind all others of its transaction comes last. -/
theorem entriesOf_insert_self {position : Nat}
    (hitems : store'.items = store.items.insert ⟨key, position⟩ i)
    (hlast : ∀ entry ∈ store.entriesOf key, entry.1.position < position) :
    store'.entriesOf key = store.entriesOf key ++ [(⟨key, position⟩, i)] := by
  refine entriesOf_eq ?_ fun place j => ?_
  · refine List.pairwise_append.2 ⟨pairwise_entriesOf store key, List.pairwise_singleton _ _, ?_⟩
    rintro entry hentry _ hi
    cases List.mem_singleton.1 hi
    exact hlast entry hentry
  · rw [List.mem_append, List.mem_singleton, mem_entriesOf_iff, hitems, Std.TreeMap.getElem?_insert]
    by_cases hplace : (⟨key, position⟩ : Place) = place
    · subst hplace
      have hfree : store.items[(⟨key, position⟩ : Place)]? ≠ some j := fun hget =>
        Nat.lt_irrefl _ (hlast _ (mem_entriesOf_iff.2 ⟨hget, rfl⟩))
      simp [hfree, eq_comm]
    · simp [hplace, Ne.symm hplace]

theorem entriesOf_insert_of_ne (hitems : store'.items = store.items.insert place i)
    (hother : place.owner ≠ other) : store'.entriesOf other = store.entriesOf other := by
  refine entriesOf_eq (pairwise_entriesOf store other) fun p j => ?_
  rw [mem_entriesOf_iff, hitems, Std.TreeMap.getElem?_insert]
  refine and_congr_left fun howner => ?_
  rw [if_neg]
  intro heq
  cases Std.compare_eq_iff_eq.1 heq
  exact hother howner

/-! ## Statements -/

theorem insertRow_eq_ok {row : Row} (hstate : row.state ∈ stateWords) (hkey : key ∉ store.rows) :
    ∃ store', store.insertRow key row = .ok store' ∧
      store'.rows = store.rows.insert key row ∧ store'.items = store.items := by
  unfold insertRow
  rw [if_neg (not_not_intro hstate), if_neg hkey]
  exact ⟨_, rfl, rfl, rfl⟩

theorem insertItem_eq_ok (hresult : i.result ∈ resultWords) (hplace : place ∉ store.items)
    (howner : place.owner ∈ store.rows) :
    ∃ store', store.insertItem place i = .ok store' ∧
      store'.rows = store.rows ∧ store'.items = store.items.insert place i := by
  unfold insertItem
  rw [if_neg (not_not_intro hresult), if_neg hplace, dif_pos howner]
  exact ⟨_, rfl, rfl, rfl⟩

/-- Items are added behind those that a transaction has. -/
theorem insertItems_eq_ok (items : List RowItem) (hresults : ∀ i ∈ items, i.result ∈ resultWords)
    (position : Nat) (howner : key ∈ store.rows)
    (hlast : ∀ entry ∈ store.entriesOf key, entry.1.position < position) :
    ∃ store', insertItems key position items store = .ok store' ∧ store'.rows = store.rows ∧
      store'.itemsOf key = store.itemsOf key ++ items ∧
      ∀ other ≠ key, store'.itemsOf other = store.itemsOf other := by
  induction items generalizing position store with
  | nil => exact ⟨store, rfl, rfl, (List.append_nil _).symm, fun _ _ => rfl⟩
  | cons i rest ih =>
    have hplace : (⟨key, position⟩ : Place) ∉ store.items := fun hmem =>
      Nat.lt_irrefl _ (hlast (_, store.items[(⟨key, position⟩ : Place)])
        (mem_entriesOf_iff.2 ⟨Std.TreeMap.getElem?_eq_some_getElem hmem, rfl⟩))
    obtain ⟨next, hnext, hrows, hitems⟩ :=
      insertItem_eq_ok (hresults i List.mem_cons_self) hplace howner
    have hself := entriesOf_insert_self hitems hlast
    have hlast' : ∀ entry ∈ next.entriesOf key, entry.1.position < position + 1 := by
      intro entry hentry
      rw [hself, List.mem_append, List.mem_singleton] at hentry
      rcases hentry with hentry | rfl
      · exact Nat.lt_succ_of_lt (hlast entry hentry)
      · exact Nat.lt_succ_self _
    obtain ⟨store', hstore', hrows', hkey, hothers⟩ :=
      ih (fun j hj => hresults j (List.mem_cons_of_mem _ hj)) (position + 1) (hrows ▸ howner) hlast'
    refine ⟨store', ?_, hrows'.trans hrows, ?_, fun other hother => (hothers other hother).trans ?_⟩
    · unfold insertItems
      rw [hnext]
      exact hstore'
    · rw [hkey]
      unfold itemsOf
      rw [hself, List.map_append, List.append_assoc]
      rfl
    · exact congrArg (List.map Prod.snd) (entriesOf_insert_of_ne hitems hother.symm)

/-! ## Records -/

/-- A store holds what another one held, and the rows of one more transaction. -/
structure Adds (store : Store) (key : Int) (row : Row) (items : List RowItem) (store' : Store) :
    Prop where
  rows : store'.rows = store.rows.insert key row
  itemsOf_self : store'.itemsOf key = items
  itemsOf_of_ne : ∀ other ≠ key, store'.itemsOf other = store.itemsOf other

/-- Nothing is in the way of the rows of a transaction whose number is not taken. -/
theorem exists_write {row : Row} {items : List RowItem} (hstate : row.state ∈ stateWords)
    (hresults : ∀ i ∈ items, i.result ∈ resultWords) (hkey : key ∉ store.rows) :
    ∃ store', store.write key row items = .ok store' ∧ store.Adds key row items store' := by
  obtain ⟨header, hheader, hrows, hitems⟩ := insertRow_eq_ok hstate hkey
  have hentries (other : Int) : header.entriesOf other = store.entriesOf other := by
    unfold entriesOf
    rw [hitems]
  have hnone : header.entriesOf key = [] := (hentries key).trans (entriesOf_eq_nil hkey)
  have howner : key ∈ header.rows := hrows ▸ Std.TreeMap.mem_insert_self
  obtain ⟨store', hstore', hrows', hself, hothers⟩ :=
    insertItems_eq_ok items hresults 0 howner (by simp [hnone])
  refine ⟨store', ?_, hrows'.trans hrows, ?_, fun other hother => (hothers other hother).trans ?_⟩
  · unfold write
    rw [hheader]
    exact hstore'
  · rw [hself]
    unfold itemsOf
    rw [hnone]
    rfl
  · exact congrArg (List.map Prod.snd) (hentries other)

variable {r : Record}

theorem record_of_not_isFinal (store : Store) (h : r.state.isFinal = false) :
    (store.record r).value = .error (.notFinished r.id r.state) := by
  unfold record
  rw [h]
  rfl

theorem record_of_mem (hfinal : r.state.isFinal) (h : signed r.id ∈ store.rows) :
    (store.record r).value = .error (.alreadyRecorded r.id) := by
  unfold record
  rw [hfinal, if_neg (by decide), if_pos (Std.TreeMap.contains_iff_mem.2 h)]
  rfl

/-- A record that is not refused beforehand is kept. -/
theorem exists_record (hfinal : r.state.isFinal) (h : signed r.id ∉ store.rows) :
    ∃ store', (store.record r).value = .ok store' ∧
      store.Adds (signed r.id) (.ofRecord r) (r.items.map .ofItem) store' := by
  have hresults : ∀ i ∈ r.items.map RowItem.ofItem, i.result ∈ resultWords := by
    intro i hi
    obtain ⟨j, -, rfl⟩ := List.mem_map.1 hi
    exact text_mem_resultWords j.result
  have hstate : (Row.ofRecord r).state ∈ stateWords := text_mem_stateWords_iff.2 hfinal
  obtain ⟨store', hwrite, hadds⟩ := exists_write hstate hresults h
  refine ⟨store', ?_, hadds⟩
  unfold record
  rw [hfinal, if_neg (by decide), if_neg (mt Std.TreeMap.contains_iff_mem.1 h), hwrite]
  rfl

end Store

end Provision.History
