import Mathlib.Data.Finset.Card
import Mathlib.Data.Finset.Range
import Provision.Proofs.History.Tables

/-!
# The history as a map

Seen from outside, the history is a map from numbers to records that only grows (`Chronicle`). The
two tables stand for such a map when the rows are those of its records and the items of each number
those of its record (`Store.Keeps`). What is read back from them is then what was written: the words
always, the versions if they are read as they are written (`RowItem.toItem_ofItem`), and the items in
their order. So a call gets the answer that the map gives and leaves the tables standing for the map
that it leaves (`Store.Keeps.perform`), and the same holds of any sequence of calls on an empty store
(`performAll_eq`).
-/

namespace Provision

/-! ## Reading back -/

theorem State.parse_text (s : State) : State.parse s.text = .ok s := by cases s <;> rfl

theorem Action.parse_text (a : Action) : Action.parse a.text = .ok a := by cases a <;> rfl

theorem Reason.parse_text (r : Reason) : Reason.parse r.text = .ok r := by cases r <;> rfl

namespace History

theorem Result.parse_text (r : Result) : Result.parse r.text = .ok r := by cases r <;> rfl

theorem unsigned_of_lt {n : Nat} (h : n < idLimit) : unsigned n = n := by
  unfold idLimit at h
  unfold unsigned
  rw [Int.emod_eq_of_lt (by omega) (by simp only [UInt64.size]; omega)]
  rfl

/-- An item whose versions are read as they are written. -/
structure RecordItem.IsLegible (i : RecordItem) : Prop where
  evr : Evr.parse i.build.evr.text = .ok i.build.evr
  previousEvr : ∀ evr ∈ i.previousEvr, Evr.parse evr.text = .ok evr

theorem RowItem.toItem_ofItem {i : RecordItem} (h : i.IsLegible) :
    (RowItem.ofItem i).toItem = .ok i := by
  obtain ⟨build, repo, action, reason, result, previousEvr, cause⟩ := i
  unfold toItem ofItem
  simp only [h.evr, Action.parse_text, Reason.parse_text, Result.parse_text, readColumn]
  cases previousEvr with
  | none => rfl
  | some evr =>
    have hevr : Evr.parse evr.text = .ok evr := h.previousEvr evr rfl
    simp only [Option.map_some, Option.mapM_some, hevr]
    rfl

theorem Row.toHeader_ofRecord {r : Record} (h : r.id < idLimit) :
    (Row.ofRecord r).toHeader r.id = .ok { r with items := [] } := by
  unfold toHeader ofRecord
  rw [State.parse_text, unsigned_of_lt h]
  rfl

/-- Readings that all succeed, one after the other. -/
theorem mapM_eq_ok {α β γ ε : Type} {f : α → β} {read : β → Except ε γ} {g : α → γ} {xs : List α}
    (h : ∀ a ∈ xs, read (f a) = .ok (g a)) : (xs.map f).mapM read = .ok (xs.map g) := by
  induction xs with
  | nil => rfl
  | cons a rest ih =>
    rw [List.map_cons, List.mapM_cons, h a List.mem_cons_self,
      ih fun b hb => h b (List.mem_cons_of_mem _ hb)]
    rfl

/-! ## The map -/

/-- A map from numbers to the records of these numbers. -/
structure Chronicle where
  byId : Std.TreeMap Nat Record := {}
  id_eq : ∀ (n : Nat) (r : Record), byId[n]? = some r → r.id = n := by
    exact fun _ _ h => absurd (Std.TreeMap.getElem?_emptyc.symm.trans h) nofun

namespace Chronicle

/-- The map with a record under its number. -/
def add (c : Chronicle) (r : Record) : Chronicle where
  byId := c.byId.insert r.id r
  id_eq n other h := by
    rw [Std.TreeMap.getElem?_insert] at h
    split at h
    · rename_i heq
      cases h
      exact Std.compare_eq_iff_eq.1 heq
    · exact c.id_eq n other h

/-- A record is added if it is finished and its number is not taken. -/
def record (c : Chronicle) (r : Record) : Except Error Chronicle :=
  if !r.state.isFinal then .error (.notFinished r.id r.state)
  else if r.id ∈ c.byId then .error (.alreadyRecorded r.id)
  else .ok (c.add r)

/-- All records, by number. -/
def records (c : Chronicle) : List Record := c.byId.toList.map Prod.snd

def query (c : Chronicle) (range : TimeRange) : List Record :=
  c.records.filter fun r => range.Contains r.startEpoch

def recent (c : Chronicle) (limit : Nat) : List Record := c.records.reverse.take limit

def lastId (c : Chronicle) : Option Nat := (c.records.map Record.id).max?

variable {c : Chronicle} {r : Record}

theorem getElem?_byId_iff {n : Nat} : c.byId[n]? = some r ↔ r ∈ c.records ∧ r.id = n := by
  unfold records
  rw [List.mem_map]
  constructor
  · intro h
    exact ⟨⟨(n, r), Std.TreeMap.mem_toList_iff_getElem?_eq_some.2 h, rfl⟩, c.id_eq n r h⟩
  · rintro ⟨⟨⟨m, _⟩, hmem, rfl⟩, rfl⟩
    have hget := Std.TreeMap.mem_toList_iff_getElem?_eq_some.1 hmem
    rw [c.id_eq m _ hget]
    exact hget

theorem mem_byId_iff {n : Nat} : n ∈ c.byId ↔ ∃ r ∈ c.records, r.id = n := by
  rw [Std.TreeMap.mem_iff_isSome_getElem?, Option.isSome_iff_exists]
  exact exists_congr fun r => getElem?_byId_iff

theorem pairwise_records (c : Chronicle) : c.records.Pairwise fun r s => r.id < s.id := by
  refine List.pairwise_map.2 (Std.TreeMap.ordered_keys_toList.imp_of_mem ?_)
  intro a b ha hb hlt
  rw [c.id_eq a.1 a.2 (Std.TreeMap.mem_toList_iff_getElem?_eq_some.1 ha),
    c.id_eq b.1 b.2 (Std.TreeMap.mem_toList_iff_getElem?_eq_some.1 hb)]
  exact Std.compare_eq_lt.1 hlt

theorem mem_records_add_iff {other : Record} (h : r.id ∉ c.byId) :
    other ∈ (c.add r).records ↔ other = r ∨ other ∈ c.records := by
  have hmem (d : Chronicle) : other ∈ d.records ↔ d.byId[other.id]? = some other := by
    rw [getElem?_byId_iff, and_iff_left rfl]
  rw [hmem, hmem]
  show (c.byId.insert r.id r)[other.id]? = some other ↔ other = r ∨ c.byId[other.id]? = some other
  rw [Std.TreeMap.getElem?_insert]
  by_cases hid : r.id = other.id
  · have hfree : c.byId[other.id]? = none := by
      rw [← hid]
      exact Std.TreeMap.getElem?_eq_none h
    simp [hid, hfree, eq_comm]
  · have hne : other ≠ r := fun heq => hid (congrArg Record.id heq).symm
    simp [hid, hne]

theorem record_eq_ok_iff {d : Chronicle} :
    c.record r = .ok d ↔ r.state.isFinal ∧ r.id ∉ c.byId ∧ d = c.add r := by
  unfold record
  cases r.state.isFinal with
  | false => exact ⟨nofun, nofun⟩
  | true =>
    rw [if_neg (by decide)]
    split
    · rename_i htaken
      exact ⟨nofun, fun h => absurd htaken h.2.1⟩
    · rename_i hfree
      exact ⟨fun h => ⟨rfl, hfree, (Except.ok.inj h).symm⟩, fun h => congrArg Except.ok h.2.2.symm⟩

end Chronicle

/-! ## The tables as a map -/

/-- A record that is kept as it is. -/
structure Record.IsPlain (r : Record) : Prop where
  id_lt : r.id < idLimit
  legible : ∀ i ∈ r.items, i.IsLegible

/-- The tables stand for a map. -/
structure Store.Keeps (store : Store) (c : Chronicle) : Prop where
  row_iff : ∀ (key : Int) (row : Row), store.rows[key]? = some row ↔
    ∃ r ∈ c.records, key = r.id ∧ row = .ofRecord r
  items : ∀ r ∈ c.records, store.itemsOf r.id = r.items.map .ofItem
  plain : ∀ r ∈ c.records, r.IsPlain

namespace Store

theorem keeps_empty : Store.Keeps {} {} where
  row_iff key row := by simp [Chronicle.records]
  items := by simp [Chronicle.records]
  plain := by simp [Chronicle.records]

namespace Keeps

variable {store : Store} {c : Chronicle} {r : Record}

theorem mem_rows_iff (h : store.Keeps c) {key : Int} :
    key ∈ store.rows ↔ ∃ r ∈ c.records, key = r.id := by
  rw [Std.TreeMap.mem_iff_isSome_getElem?, Option.isSome_iff_exists]
  constructor
  · rintro ⟨row, hrow⟩
    obtain ⟨r, hr, hkey, -⟩ := (h.row_iff key row).1 hrow
    exact ⟨r, hr, hkey⟩
  · rintro ⟨r, hr, hkey⟩
    exact ⟨.ofRecord r, (h.row_iff _ _).2 ⟨r, hr, hkey, rfl⟩⟩

theorem signed_mem_rows_iff (h : store.Keeps c) {n : Nat} (hn : n < idLimit) :
    signed n ∈ store.rows ↔ n ∈ c.byId := by
  rw [signed_of_lt hn, h.mem_rows_iff, Chronicle.mem_byId_iff]
  exact exists_congr fun r => and_congr_right fun _ => by rw [Int.ofNat_inj, eq_comm]

/-- The rows of a map are those of its records, by number. -/
theorem toList_rows (h : store.Keeps c) :
    store.rows.toList = c.records.map fun r => ((r.id : Int), Row.ofRecord r) := by
  have hsorted : (c.records.map fun r => ((r.id : Int), Row.ofRecord r)).Pairwise
      fun a b => a.1 < b.1 :=
    List.pairwise_map.2 (c.pairwise_records.imp Int.ofNat_lt.2)
  refine eq_of_increasing (Std.TreeMap.ordered_keys_toList.imp Std.compare_eq_lt.1) hsorted
    fun (key, row) => ?_
  rw [Std.TreeMap.mem_toList_iff_getElem?_eq_some, h.row_iff, List.mem_map]
  refine exists_congr fun r => and_congr_right fun _ => ?_
  rw [Prod.mk.injEq, eq_comm, @eq_comm _ row]

/-! ### Reading -/

theorem withItems (h : store.Keeps c) (hr : r ∈ c.records) :
    store.withItems { r with items := [] } = .ok r := by
  unfold Store.withItems
  have hitems : (store.itemsOf (signed r.id)).mapM RowItem.toItem = .ok (r.items.map id) := by
    rw [signed_of_lt (h.plain r hr).id_lt, h.items r hr]
    exact mapM_eq_ok fun i hi => RowItem.toItem_ofItem ((h.plain r hr).legible i hi)
  rw [List.map_id] at hitems
  rw [hitems]
  rfl

theorem readAll (h : store.Keeps c) {records : List Record} (hmem : ∀ r ∈ records, r ∈ c.records) :
    store.readAll (records.map fun r => ((r.id : Int), Row.ofRecord r)) = .ok records := by
  unfold Store.readAll
  have hheaders : (records.map fun r => ((r.id : Int), Row.ofRecord r)).mapM
      (fun row => row.2.toHeader row.1) = .ok (records.map fun r => { r with items := [] }) :=
    mapM_eq_ok fun r hr => Row.toHeader_ofRecord (h.plain r (hmem r hr)).id_lt
  have hitems : (records.map fun r => { r with items := [] }).mapM store.withItems =
      .ok (records.map id) :=
    mapM_eq_ok fun r hr => h.withItems (hmem r hr)
  rw [hheaders]
  rw [List.map_id] at hitems
  exact hitems

theorem get (h : store.Keeps c) {n : Nat} (hn : n < idLimit) : store.get n = .ok c.byId[n]? := by
  unfold Store.get
  rw [signed_of_lt hn]
  cases hget : c.byId[n]? with
  | none =>
    have hrow : store.rows[(n : Int)]? = none := by
      refine Std.TreeMap.getElem?_eq_none fun hmem => ?_
      rw [← signed_of_lt hn, h.signed_mem_rows_iff hn, Std.TreeMap.mem_iff_isSome_getElem?,
        hget] at hmem
      cases hmem
    rw [hrow]
    rfl
  | some r =>
    obtain ⟨hr, rfl⟩ := Chronicle.getElem?_byId_iff.1 hget
    rw [(h.row_iff r.id (.ofRecord r)).2 ⟨r, hr, rfl, rfl⟩, Option.mapM_some,
      Row.toHeader_ofRecord hn]
    show (some { r with items := [] }).mapM store.withItems = _
    rw [Option.mapM_some, h.withItems hr]
    rfl

theorem query (h : store.Keeps c) (range : TimeRange) :
    store.query range = .ok (c.query range) := by
  unfold Store.query Chronicle.query
  rw [h.toList_rows, List.filter_map]
  exact h.readAll fun r hr => (List.mem_filter.1 hr).1

/-- There are not more records than numbers that can be kept. -/
theorem length_records_le (h : store.Keeps c) : c.records.length ≤ idLimit := by
  have hnodup : (c.records.map Record.id).Nodup :=
    List.pairwise_map.2 (c.pairwise_records.imp Nat.ne_of_lt)
  have hsub : (c.records.map Record.id).toFinset ⊆ Finset.range idLimit := by
    intro n hn
    obtain ⟨r, hr, rfl⟩ := List.mem_map.1 (List.mem_toFinset.1 hn)
    exact Finset.mem_range.2 (h.plain r hr).id_lt
  have hcard := Finset.card_le_card hsub
  rwa [List.toFinset_card_of_nodup hnodup, List.length_map, Finset.card_range] at hcard

/-- A limit that is too large to be kept is none. -/
theorem recent (h : store.Keeps c) {limit : Nat} (hlimit : limit < UInt64.size) :
    store.recent (signed limit) = .ok (c.recent limit) := by
  have hrows : (if signed limit < 0 then store.rows.toList.reverse
      else store.rows.toList.reverse.take (signed limit).toNat) =
      (c.recent limit).map fun r => ((r.id : Int), Row.ofRecord r) := by
    unfold Chronicle.recent
    rw [h.toList_rows, ← List.map_reverse, List.map_take]
    by_cases hsmall : limit < idLimit
    · rw [signed_of_lt hsmall, if_neg (Int.not_lt.2 (Int.natCast_nonneg limit)), Int.toNat_natCast]
    · have hall : c.records.reverse.length ≤ limit := by
        rw [List.length_reverse]
        exact h.length_records_le.trans (Nat.le_of_not_lt hsmall)
      have hnegative : signed limit < 0 := by
        unfold idLimit at hsmall
        unfold signed
        simp only [UInt64.size] at hlimit ⊢
        rw [Int.bmod_def]
        omega
      rw [if_pos hnegative, List.take_of_length_le (by rwa [List.length_map])]
  unfold Store.recent
  dsimp only
  rw [hrows]
  exact h.readAll fun r hr => List.mem_reverse.1 (List.mem_of_mem_take hr)

theorem lastId (h : store.Keeps c) : store.lastId = c.lastId := by
  unfold Store.lastId
  cases hlast : c.lastId with
  | none =>
    have hrecords : c.records = [] := List.map_eq_nil_iff.1 (List.max?_eq_none_iff.1 hlast)
    have hrows : store.rows.maxKey? = none := by
      rw [Std.TreeMap.maxKey?_eq_none_iff, Std.TreeMap.isEmpty_iff_forall_not_mem]
      intro key hkey
      obtain ⟨r, hr, -⟩ := h.mem_rows_iff.1 hkey
      rw [hrecords] at hr
      cases hr
    rw [hrows]
    rfl
  | some last =>
    obtain ⟨hmem, hle⟩ := List.max?_eq_some_iff.1 hlast
    obtain ⟨r, hr, rfl⟩ := List.mem_map.1 hmem
    have hrows : store.rows.maxKey? = some (r.id : Int) := by
      refine Std.TreeMap.maxKey?_eq_some_iff_mem_and_forall.2
        ⟨h.mem_rows_iff.2 ⟨r, hr, rfl⟩, fun key hkey => ?_⟩
      obtain ⟨other, hother, rfl⟩ := h.mem_rows_iff.1 hkey
      exact Std.isLE_compare.2 (Int.ofNat_le.2 (hle _ (List.mem_map_of_mem hother)))
    rw [hrows, Option.map_some, unsigned_of_lt (h.plain r hr).id_lt]

/-! ### Writing -/

theorem add (h : store.Keeps c) (hr : r.IsPlain) (hfree : r.id ∉ c.byId) {store' : Store}
    (hadds : store.Adds (signed r.id) (.ofRecord r) (r.items.map .ofItem) store') :
    store'.Keeps (c.add r) where
  row_iff key row := by
    rw [hadds.rows, signed_of_lt hr.id_lt, Std.TreeMap.getElem?_insert]
    simp only [Chronicle.mem_records_add_iff hfree, or_and_right, exists_or, exists_eq_left,
      ← h.row_iff]
    by_cases hkey : (r.id : Int) = key
    · subst hkey
      have hnone : store.rows[(r.id : Int)]? = none := by
        rw [← signed_of_lt hr.id_lt]
        exact Std.TreeMap.getElem?_eq_none (mt (h.signed_mem_rows_iff hr.id_lt).1 hfree)
      simp [hnone, eq_comm]
    · simp [hkey, Ne.symm hkey]
  items other hother := by
    rcases (Chronicle.mem_records_add_iff hfree).1 hother with rfl | hother
    · rw [← signed_of_lt hr.id_lt]
      exact hadds.itemsOf_self
    · have hne : (other.id : Int) ≠ signed r.id := by
        rw [signed_of_lt hr.id_lt]
        intro heq
        exact hfree (Chronicle.mem_byId_iff.2 ⟨other, hother, Int.ofNat.inj heq⟩)
      exact (hadds.itemsOf_of_ne other.id hne).trans (h.items other hother)
  plain other hother := by
    rcases (Chronicle.mem_records_add_iff hfree).1 hother with rfl | hother
    · exact hr
    · exact h.plain other hother

/-- Both take a record, or both refuse it for the same reason. -/
theorem record (h : store.Keeps c) (hr : r.IsPlain) :
    (∃ next, (store.record r).value = .ok next ∧ c.record r = .ok (c.add r) ∧
        next.Keeps (c.add r)) ∨
      ∃ reason, (store.record r).value = .error reason ∧ c.record r = .error reason := by
  unfold Chronicle.record
  cases hfinal : r.state.isFinal with
  | false => exact .inr ⟨_, store.record_of_not_isFinal hfinal, rfl⟩
  | true =>
    rw [if_neg (by decide)]
    by_cases htaken : r.id ∈ c.byId
    · rw [if_pos htaken]
      exact .inr ⟨_, Store.record_of_mem hfinal ((h.signed_mem_rows_iff hr.id_lt).2 htaken), rfl⟩
    · obtain ⟨next, hnext, hadds⟩ :=
        Store.exists_record hfinal (mt (h.signed_mem_rows_iff hr.id_lt).1 htaken)
      rw [if_neg htaken]
      exact .inl ⟨next, hnext, rfl, h.add hr htaken hadds⟩

end Keeps

end Store

/-! ## Calls -/

/-- What the history can be asked. -/
inductive Call
  | record (r : Record)
  | get (id : Nat)
  | query (range : TimeRange)
  | recent (limit : Nat)
  | lastId
  deriving DecidableEq, Repr

inductive Answer
  | recorded
  | found (record? : Option Record)
  | listed (records : List Record)
  | last (id? : Option Nat)
  | failed (reason : Error)
  deriving DecidableEq, Repr

/-- The answer that a reading gives. -/
def Answer.ofReading {α : Type} (answer : α → Answer) : Except Error α → Answer
  | .ok a => answer a
  | .error reason => .failed reason

/-- The answer that a writing gives, and what it leaves: what was there before, if it fails. -/
def Answer.ofWriting {σ : Type} (state : σ) : Except Error σ → Answer × σ
  | .ok next => (.recorded, next)
  | .error reason => (.failed reason, state)

/-- The answer to a call, and the store after it. -/
def Store.perform (store : Store) : Call → Answer × Store
  | .record r => Answer.ofWriting store (store.record r).value
  | .get id => (.ofReading .found (store.get id), store)
  | .query range => (.ofReading .listed (store.query range), store)
  | .recent limit => (.ofReading .listed (store.recent (signed limit)), store)
  | .lastId => (.last store.lastId, store)

/-- The answer that a map gives to a call, and the map after it. -/
def Chronicle.perform (c : Chronicle) : Call → Answer × Chronicle
  | .record r => Answer.ofWriting c (c.record r)
  | .get id => (.found c.byId[id]?, c)
  | .query range => (.listed (c.query range), c)
  | .recent limit => (.listed (c.recent limit), c)
  | .lastId => (.last c.lastId, c)

/-- The answers to calls, one after the other, and what is left after the last. -/
def performAll {σ : Type} (perform : σ → Call → Answer × σ) : σ → List Call → List Answer × σ
  | state, [] => ([], state)
  | state, call :: rest =>
    let (answer, next) := perform state call
    let (answers, last) := performAll perform next rest
    (answer :: answers, last)

/-- Numbers are such that can be kept, versions such that are read as they are written, and limits
have 64 bits. -/
def Call.IsPlain : Call → Prop
  | .record r => r.IsPlain
  | .get id => id < idLimit
  | .recent limit => limit < UInt64.size
  | .query _ | .lastId => True

variable {store : Store} {c : Chronicle} {r : Record}

theorem Store.Keeps.perform (h : store.Keeps c) (call : Call) (hcall : call.IsPlain) :
    (store.perform call).1 = (c.perform call).1 ∧
      (store.perform call).2.Keeps (c.perform call).2 := by
  cases call with
  | record r =>
    show (Answer.ofWriting store (store.record r).value).1 = (Answer.ofWriting c (c.record r)).1 ∧
      (Answer.ofWriting store (store.record r).value).2.Keeps (Answer.ofWriting c (c.record r)).2
    rcases h.record hcall with ⟨next, hstore, hmap, hnext⟩ | ⟨reason, hstore, hmap⟩
    · rw [hstore, hmap]
      exact ⟨rfl, hnext⟩
    · rw [hstore, hmap]
      exact ⟨rfl, h⟩
  | get id => exact ⟨congrArg (Answer.ofReading .found) (h.get hcall), h⟩
  | query range => exact ⟨congrArg (Answer.ofReading .listed) (h.query range), h⟩
  | recent limit =>
    unfold Store.perform Chronicle.perform
    dsimp only
    rw [h.recent hcall]
    exact ⟨rfl, h⟩
  | lastId => exact ⟨congrArg Answer.last h.lastId, h⟩

theorem Store.Keeps.performAll (h : store.Keeps c) {calls : List Call}
    (hcalls : ∀ call ∈ calls, call.IsPlain) :
    (performAll Store.perform store calls).1 = (performAll Chronicle.perform c calls).1 ∧
      (performAll Store.perform store calls).2.Keeps (performAll Chronicle.perform c calls).2 := by
  induction calls generalizing store c with
  | nil => exact ⟨rfl, h⟩
  | cons call rest ih =>
    obtain ⟨hanswer, hnext⟩ := h.perform call (hcalls call List.mem_cons_self)
    obtain ⟨hanswers, hlast⟩ := ih hnext fun other hother =>
      hcalls other (List.mem_cons_of_mem _ hother)
    exact ⟨congrArg₂ List.cons hanswer hanswers, hlast⟩

theorem performAll_append {σ : Type} (perform : σ → Call → Answer × σ) (state : σ)
    (before after : List Call) :
    (performAll perform state (before ++ after)).2 =
      (performAll perform (performAll perform state before).2 after).2 := by
  induction before generalizing state with
  | nil => rfl
  | cons call rest ih => exact ih _

/-! ## What is recorded stays -/

theorem Chronicle.mem_records_perform (h : r ∈ c.records) (call : Call) :
    r ∈ (c.perform call).2.records := by
  cases call with
  | record other =>
    show r ∈ (Answer.ofWriting c (c.record other)).2.records
    cases hrecord : c.record other with
    | error => exact h
    | ok next =>
      obtain ⟨-, hfree, rfl⟩ := record_eq_ok_iff.1 hrecord
      exact (mem_records_add_iff hfree).2 (.inr h)
  | get | query | recent | lastId => exact h

theorem Chronicle.mem_records_performAll (h : r ∈ c.records) (calls : List Call) :
    r ∈ (performAll perform c calls).2.records := by
  induction calls generalizing c with
  | nil => exact h
  | cons call rest ih => exact ih (mem_records_perform h call)

theorem Chronicle.mem_records_of_recorded (h : (c.perform (.record r)).1 = .recorded) :
    r ∈ (c.perform (.record r)).2.records := by
  change (Answer.ofWriting c (c.record r)).1 = .recorded at h
  show r ∈ (Answer.ofWriting c (c.record r)).2.records
  cases hrecord : c.record r with
  | error reason =>
    rw [hrecord] at h
    cases h
  | ok next =>
    obtain ⟨-, hfree, rfl⟩ := record_eq_ok_iff.1 hrecord
    exact (mem_records_add_iff hfree).2 (.inl rfl)

/--
On an empty store, any sequence of calls gets the answers that a map from numbers to records gives,
and a record that was accepted is found under its number from then on.
-/
theorem performAll_eq (calls : List Call) (hcalls : ∀ call ∈ calls, call.IsPlain) :
    (performAll Store.perform {} calls).1 = (performAll Chronicle.perform {} calls).1 ∧
      ∀ before r after, calls = before ++ .record r :: after →
        ((performAll Store.perform {} before).2.perform (.record r)).1 = .recorded →
        (performAll Store.perform {} calls).2.get r.id = .ok (some r) := by
  obtain ⟨hanswers, hkeeps⟩ := Store.keeps_empty.performAll hcalls
  refine ⟨hanswers, fun before r after hsplit hrecorded => ?_⟩
  subst hsplit
  have hbefore := (Store.keeps_empty.performAll fun call hcall =>
    hcalls call (List.mem_append_left _ hcall)).2
  have hplain : r.IsPlain := hcalls (.record r) (List.mem_append_right _ List.mem_cons_self)
  rw [(hbefore.perform (.record r) hplain).1] at hrecorded
  have hmem : r ∈ (performAll Chronicle.perform {} (before ++ .record r :: after)).2.records := by
    rw [performAll_append]
    exact Chronicle.mem_records_performAll (Chronicle.mem_records_of_recorded hrecorded) after
  rw [hkeeps.get hplain.id_lt, Chronicle.getElem?_byId_iff.2 ⟨hmem, rfl⟩]

/-- A transaction with an upgrade, a failure and an item that was not attempted. -/
def halfwayRecord (id : Nat) (start : Int) (state : State) : Record where
  id := id
  startEpoch := start
  endEpoch := start + 5
  state := state
  items := [
    { build := ⟨"foo", "x86_64", ⟨0, "2.0", some "1"⟩⟩, repo := "updates", action := .upgrade,
      reason := .user, result := .applied, previousEvr := some ⟨0, "1.0", some "1"⟩ },
    { build := ⟨"bar", "x86_64", ⟨1, "2.0", none⟩⟩, repo := "updates", action := .install,
      reason := .user, result := .failed, cause := some "payload of bar is corrupt" },
    { build := ⟨"baz", "noarch", ⟨0, "2.0", some "1"⟩⟩, repo := "base", action := .install,
      reason := .dependency, result := .unattempted }]

theorem halfwayRecord_plain {id : Nat} (h : id < idLimit) (start : Int) (state : State) :
    (halfwayRecord id start state).IsPlain where
  id_lt := h
  legible i hi := by
    simp only [halfwayRecord, List.mem_cons, List.not_mem_nil, or_false] at hi
    rcases hi with rfl | rfl | rfl
    · exact ⟨by decide +kernel, by rintro _ ⟨⟩; decide +kernel⟩
    · exact ⟨by decide +kernel, nofun⟩
    · exact ⟨by decide +kernel, nofun⟩

def halfwayCalls : List Call := [
  .record (halfwayRecord 7 100 .failed), .record (halfwayRecord 7 200 .done),
  .record (halfwayRecord 3 300 .created), .record (halfwayRecord 3 300 .done),
  .get 7, .query ⟨some 100, some 300⟩, .recent idLimit, .lastId]

theorem halfwayCalls_plain : ∀ call ∈ halfwayCalls, call.IsPlain := by
  simp only [halfwayCalls, List.forall_mem_cons, List.not_mem_nil, IsEmpty.forall_iff, implies_true,
    and_true]
  have hseven : 7 < idLimit := by decide
  have hthree : 3 < idLimit := by decide
  have hlimit : idLimit < UInt64.size := by decide
  exact ⟨halfwayRecord_plain hseven .., halfwayRecord_plain hseven ..,
    halfwayRecord_plain hthree .., halfwayRecord_plain hthree .., hseven, trivial, hlimit, trivial⟩

theorem performAll_halfway :
    (performAll Store.perform {} halfwayCalls).1 = [
        .recorded, .failed (.alreadyRecorded 7), .failed (.notFinished 3 .created), .recorded,
        .found (some (halfwayRecord 7 100 .failed)), .listed [halfwayRecord 7 100 .failed],
        .listed [halfwayRecord 7 100 .failed, halfwayRecord 3 300 .done], .last (some 7)] ∧
      (performAll Store.perform {} halfwayCalls).2.get 7 =
        .ok (some (halfwayRecord 7 100 .failed)) := by
  obtain ⟨hanswers, hkept⟩ := performAll_eq halfwayCalls halfwayCalls_plain
  refine ⟨hanswers.trans (by decide +kernel), hkept [] (halfwayRecord 7 100 .failed) _ rfl ?_⟩
  decide +kernel

end History

end Provision
