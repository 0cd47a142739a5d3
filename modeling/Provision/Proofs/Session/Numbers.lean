import Mathlib
import Provision.Proofs.Session.Interleaving

/-!
# Numbers of transactions

A process counts on from the largest number that is recorded when it opens its session. After that
it looks at the history no more, so it may give out a number that another process has recorded
meanwhile.

1. The numbers that a process gives out are all different and above those recorded before it opened
   (`Counts.step`).
2. The history holds just the numbers recorded before and those of the runs (`Recorded.step`).
3. So a record is refused just when another process has run a transaction of the same number since
   the session was opened (`historyError_eq_none_iff`), and this is the only way in which two runs
   can have one number (`numbers_apart_iff`).
-/

namespace Provision

/-! ## Numbers in the history -/

namespace History

/-- All numbers that are recorded are below the bound. -/
def Store.Plain (store : Store) : Prop := ∀ key ∈ store.rows, 0 ≤ key ∧ key < idLimit

end History

open History (idLimit signed signed_of_lt signed_inj)

theorem Session.lt_countFrom {store : History.Store} (hplain : store.Plain) {key : Int}
    (hkey : key ∈ store.rows) : key < (countFrom store).next := by
  unfold countFrom History.Store.lastId
  cases hmax : store.rows.maxKey? with
  | none =>
    rw [Std.TreeMap.maxKey?_eq_none_iff, Std.TreeMap.isEmpty_iff_forall_not_mem] at hmax
    exact absurd hkey (hmax key)
  | some last =>
    obtain ⟨hlast, hmax⟩ := Std.TreeMap.maxKey?_eq_some_iff_mem_and_forall.1 hmax
    have hle : key ≤ last := Std.isLE_compare.1 (hmax key hkey)
    obtain ⟨hnonneg, hlimit⟩ := hplain last hlast
    unfold idLimit at hlimit
    show key < ((max 1 (min (History.unsigned last + 1) (UInt64.size - 1)) : Nat) : Int)
    unfold History.unsigned
    simp only [UInt64.size]
    omega

/-! ## Numbers of steps -/

/-- The number of the transaction that a step runs. -/
def Act.numberRun? : Act → Option Nat
  | .ran r => some r.record.id
  | _ => none

/-- The numbers of a process that are planned or under way. -/
def Process.numbers (p : Process) : List Nat :=
  p.planned.map Transaction.id ++ p.running.toList.map fun e => e.transaction.id

section Counting

variable {p p' : Process} {shared shared' : Shared} {a : Act}

/--
The numbers that a process has given out since it opened its session, the `own` ones being those
that it has run: they go up from `first`.
-/
structure Counts (first : Nat) (own : List Nat) (p : Process) : Prop where
  counter : ∃ s, p.session = some s ∧ first ≤ s.ids.next ∧
    ∀ n ∈ p.numbers ++ own, first ≤ n ∧ n < s.ids.next
  nodup : (p.numbers ++ own).Nodup
  plain : ∀ n ∈ p.numbers ++ own, n < idLimit

theorem Counts.initial {s : Session} : Counts s.ids.next [] { session := some s } :=
  ⟨⟨s, rfl, le_rfl, nofun⟩, List.nodup_nil, nofun⟩

/-- Only the numbers matter, and where the counter stands. -/
theorem Counts.perm {first : Nat} {own own' : List Nat} (h : Counts first own p)
    (hperm : (p'.numbers ++ own').Perm (p.numbers ++ own))
    (hcounter : p'.session.map Session.ids = p.session.map Session.ids) : Counts first own' p' := by
  obtain ⟨s, hs, hfirst, hnumbers⟩ := h.counter
  rw [hs] at hcounter
  obtain ⟨s', hs', hids⟩ := Option.map_eq_some_iff.1 hcounter
  refine ⟨⟨s', hs', hids ▸ hfirst, fun n hn => hids ▸ hnumbers n (hperm.mem_iff.1 hn)⟩,
    hperm.nodup_iff.2 h.nodup, fun n hn => h.plain n (hperm.mem_iff.1 hn)⟩

theorem Counts.take {first : Nat} {own : List Nat} {s : Session} {t : Transaction}
    (h : Counts first own p) (hsession : p.session = some s) (hid : t.id = s.ids.next)
    (hplain : t.id < idLimit) :
    Counts first own
      { p with session := some { s with ids := s.ids.take.2 }, planned := t :: p.planned } := by
  obtain ⟨s₀, hs₀, hfirst, hnumbers⟩ := h.counter
  cases hsession.symm.trans hs₀
  have hnext : s.ids.take.2.next = t.id + 1 := by
    rw [hid] at hplain ⊢
    unfold idLimit at hplain
    unfold Counter.take
    simp only [UInt64.size]
    omega
  refine ⟨⟨_, rfl, ?_, ?_⟩, List.nodup_cons.2 ⟨fun hmem => ?_, h.nodup⟩, ?_⟩
  · show first ≤ s.ids.take.2.next
    omega
  · intro n hn
    show first ≤ n ∧ n < s.ids.take.2.next
    rcases List.mem_cons.1 hn with rfl | hn
    · omega
    · have hn := hnumbers n hn
      omega
  · have hlt := (hnumbers _ hmem).2
    omega
  · intro n hn
    rcases List.mem_cons.1 hn with rfl | hn
    · exact hplain
    · exact h.plain n hn

/-- Planning gives out the next number; running one moves it to those that were run. -/
theorem Counts.step {first : Nat} {own : List Nat} (h : Counts first own p)
    (hstep : p.Step shared a p' shared') (hplain : ∀ t, a = .planned t → t.id < idLimit) :
    Counts first (own ++ a.numberRun?.toList) p' := by
  cases hstep with
  | opened hfresh hopen =>
    obtain ⟨s, hs, -⟩ := h.counter
    rw [hfresh] at hs
    cases hs
  | @planned s s' g r t hsession hresolve =>
    obtain ⟨hid, rfl⟩ := Session.resolve_eq_ok hresolve
    rw [show (Act.planned t).numberRun? = none from rfl, Option.toList_none, List.append_nil]
    exact h.take hsession hid (hplain t rfl)
  | @started s t pid now e shared' hsession hidle hplanned hstart =>
    obtain ⟨-, htransaction, -⟩ := Session.start_eq_ok hstart
    refine h.perm ?_ rfl
    rw [show (Act.started t).numberRun? = none from rfl, Option.toList_none, List.append_nil]
    refine List.Perm.append_right own ?_
    have hid : e.transaction.id = t.id := by rw [htransaction]
    unfold Process.numbers
    rw [hidle]
    show ((p.planned.erase t).map Transaction.id ++ [e.transaction.id]).Perm
      (p.planned.map Transaction.id ++ [])
    rw [hid, List.append_nil]
    exact (List.perm_append_singleton _ _).trans
      ((List.perm_cons_erase hplanned).map Transaction.id).symm
  | @ran s s' e watch now r shared' hsession hrunning hrun =>
    obtain ⟨rfl, hid, -⟩ := Session.run_value hrun
    refine h.perm ?_ (by rw [hsession]; rfl)
    unfold Process.numbers
    rw [hrunning, show (Act.ran r).numberRun? = some r.record.id from rfl, hid]
    simp only [Option.toList_none, Option.toList_some, List.map_nil, List.map_cons, List.append_nil,
      List.append_assoc]
    exact List.Perm.append_left _ List.perm_append_comm
  | saved hsession =>
    rw [show Act.saved.numberRun? = none from rfl, Option.toList_none, List.append_nil]
    exact h

/-- The history holds what it held at the start and the given numbers. -/
def Recorded (start : History.Store) (numbers : List Nat) (store : History.Store) : Prop :=
  ∀ key, key ∈ store.rows ↔ key ∈ start.rows ∨ ∃ n ∈ numbers, signed n = key

/-- Whether or not its record is accepted, the number of a run is taken from then on. -/
theorem Recorded.step {start : History.Store} {numbers : List Nat}
    (h : Recorded start numbers (Session.store shared)) (hstep : p.Step shared a p' shared') :
    Recorded start (numbers ++ a.numberRun?.toList) (Session.store shared') := by
  have hsame (hstore : Session.store shared' = Session.store shared) (hnone : a.numberRun? = none) :
      Recorded start (numbers ++ a.numberRun?.toList) (Session.store shared') := by
    rw [hstore, hnone, Option.toList_none, List.append_nil]
    exact h
  cases hstep with
  | opened _ hopen =>
    obtain ⟨_, _, -, -, -, rfl⟩ := Session.openOn_eq_ok hopen
    exact hsame rfl rfl
  | planned => exact hsame rfl rfl
  | started _ _ _ hstart =>
    obtain ⟨-, -, rfl⟩ := Session.start_eq_ok hstart
    exact hsame rfl rfl
  | @ran s s' e watch now r shared' hsession hrunning hrun =>
    obtain ⟨-, -, -, rfl⟩ := Session.run_value hrun
    have hhistory := Session.run_history hrun
    intro key
    show key ∈ r.store.rows ↔ key ∈ start.rows ∨ ∃ n ∈ numbers ++ [r.record.id], signed n = key
    simp only [List.mem_append, List.mem_singleton, or_and_right, exists_or, exists_eq_left]
    rw [← or_assoc, ← h key]
    rcases hhistory with ⟨htaken, -, hstore⟩ | ⟨-, -, hadds⟩
    · rw [hstore]
      refine ⟨.inl, fun hkey => hkey.elim id ?_⟩
      rintro rfl
      exact htaken
    · rw [hadds.rows, Std.TreeMap.mem_insert, Std.LawfulEqCmp.compare_eq_iff_eq]
      exact or_comm
  | saved => exact hsame rfl rfl

end Counting

/-! ## Numbers of an interleaving -/

/-- The numbers of the transactions that are run. -/
def numbersRun (acts : List Act) : List Nat := acts.filterMap Act.numberRun?

theorem numbersRun_concat (acts : List Act) (a : Act) :
    numbersRun (acts ++ [a]) = numbersRun acts ++ a.numberRun?.toList := by
  unfold numbersRun
  rw [List.filterMap_append]
  cases h : a.numberRun? <;> simp [h]

theorem mem_numbersRun_iff {acts : List Act} {n : Nat} :
    n ∈ numbersRun acts ↔ ∃ r, Act.ran r ∈ acts ∧ r.record.id = n := by
  unfold numbersRun
  rw [List.mem_filterMap]
  constructor
  · rintro ⟨a, ha, hnumber⟩
    cases a <;> cases hnumber
    exact ⟨_, ha, rfl⟩
  · rintro ⟨r, hr, rfl⟩
    exact ⟨_, hr, rfl⟩

section Interleaved

variable {ι : Type} [DecidableEq ι] {start : History.Store} {h h' : Host ι}
  {acts done : List (ι × Act)} {i j : ι} {a : Act} {p : Process} {shared : Shared}
  {r : Report Index}

/-- Numbers are given out below the bound only. -/
def PlainNumbers (acts : List (ι × Act)) : Prop := ∀ i t, (i, Act.planned t) ∈ acts → t.id < idLimit

/-- How a process counts after some steps, the history having been `start` before them. -/
inductive Standing (start : History.Store) (done : List (ι × Act)) (i : ι) (p : Process) : Prop
  | fresh (hfresh : p = {})
  | opened {before after : List (ι × Act)} {first : Nat}
      (hsplit : done = before ++ (i, .opened) :: after)
      (hcounts : Counts first (numbersRun (ownActs i after)) p)
      (hbefore : ∀ n ∈ numbersRun (before.map Prod.snd), n < first)
      (hstart : ∀ key ∈ start.rows, key < first)

/-- The history and all processes after some steps. -/
structure Ledger (start : History.Store) (done : List (ι × Act)) (h : Host ι) : Prop where
  recorded : Recorded start (numbersRun (done.map Prod.snd)) (Session.store h.shared)
  plain : ∀ n ∈ numbersRun (done.map Prod.snd), n < idLimit
  standing : ∀ i, Standing start done i (h.process i)

theorem Ledger.initial (hfresh : ∀ i, h.process i = {}) :
    Ledger (Session.store h.shared) [] h := by
  refine ⟨fun key => ?_, nofun, fun i => .fresh (hfresh i)⟩
  exact ⟨.inl, fun hkey => hkey.elim id nofun⟩

theorem Ledger.plain_store (hledger : Ledger start done h) (hstart : start.Plain) :
    (Session.store h.shared).Plain := by
  intro key hkey
  rcases (hledger.recorded key).1 hkey with hkey | ⟨n, hn, rfl⟩
  · exact hstart key hkey
  · have hn := hledger.plain n hn
    rw [signed_of_lt hn]
    omega

theorem Standing.concat_of_ne (hstanding : Standing start done j p) (hne : j ≠ i) :
    Standing start (done ++ [(i, a)]) j p := by
  cases hstanding with
  | fresh hfresh => exact .fresh hfresh
  | @opened before after first hsplit hcounts hbefore hstart =>
    rw [← ownActs_concat_of_ne (a := a) hne.symm] at hcounts
    exact .opened (by rw [hsplit, List.append_assoc, List.cons_append]) hcounts hbefore hstart

/-- A run is that of an open process, with a number which it has given out. -/
theorem Ledger.standing_run (hledger : Ledger start done h)
    (hstep : (h.process i).Step h.shared (.ran r) p shared) :
    ∃ before after first, done = before ++ (i, .opened) :: after ∧
      Counts first (numbersRun (ownActs i after)) (h.process i) ∧
      (∀ n ∈ numbersRun (before.map Prod.snd), n < first) ∧ (∀ key ∈ start.rows, key < first) ∧
      r.record.id ∈ (h.process i).numbers := by
  have hnumber : r.record.id ∈ (h.process i).numbers := by
    cases hstep with
    | ran hsession hrunning hrun =>
      obtain ⟨-, hid, -⟩ := Session.run_value hrun
      refine List.mem_append_right _ ?_
      rw [hrunning, hid]
      exact List.mem_cons_self
  rcases hledger.standing i with hfresh | ⟨hsplit, hcounts, hbefore, hkeys⟩
  · rw [hfresh] at hnumber
    cases hnumber
  · exact ⟨_, _, _, hsplit, hcounts, hbefore, hkeys, hnumber⟩

/-- The standing of the process that makes the step. -/
theorem Ledger.standing_step (hledger : Ledger start done h) (hstart : start.Plain)
    (hstep : (h.process i).Step h.shared a p shared)
    (hplain : ∀ t, a = .planned t → t.id < idLimit) : Standing start (done ++ [(i, a)]) i p := by
  rcases hledger.standing i with hfresh | ⟨hsplit, hcounts, hbefore, hkeys⟩
  · rw [hfresh] at hstep
    cases hstep with
    | opened _ hopen =>
      obtain ⟨_, _, -, -, hids, -⟩ := Session.openOn_eq_ok hopen
      have hlt (key : Int) (hkey : key ∈ (Session.store h.shared).rows) :
          key < (Session.countFrom (Session.store h.shared)).next :=
        Session.lt_countFrom (hledger.plain_store hstart) hkey
      refine .opened rfl .initial ?_ ?_
      · intro n hn
        have hkey := (hledger.recorded (signed n)).2 (.inr ⟨n, hn, rfl⟩)
        have hn := hlt _ hkey
        rw [signed_of_lt (hledger.plain n ‹_›)] at hn
        rw [hids]
        omega
      · intro key hkey
        rw [hids]
        exact hlt key ((hledger.recorded key).2 (.inl hkey))
    | planned hsession => cases hsession
    | started hsession => cases hsession
    | ran hsession => cases hsession
    | saved hsession => cases hsession
  · have hcounts := hcounts.step hstep hplain
    rw [← numbersRun_concat, ← ownActs_concat_self] at hcounts
    exact .opened (by rw [hsplit, List.append_assoc, List.cons_append]) hcounts hbefore hkeys

theorem Ledger.step (hledger : Ledger start done h) (hstart : start.Plain)
    (hstep : (h.process i).Step h.shared a p shared)
    (hplain : ∀ t, a = .planned t → t.id < idLimit) :
    Ledger start (done ++ [(i, a)]) (h.after i p shared) := by
  have hstanding := hledger.standing_step hstart hstep hplain
  have hnumbers : numbersRun ((done ++ [(i, a)]).map Prod.snd) =
      numbersRun (done.map Prod.snd) ++ a.numberRun?.toList := by
    rw [List.map_append]
    exact numbersRun_concat _ _
  refine ⟨?_, fun n hn => ?_, fun j => ?_⟩
  · rw [hnumbers]
    exact hledger.recorded.step hstep
  · rw [hnumbers, List.mem_append] at hn
    rcases hn with hn | hn
    · exact hledger.plain n hn
    · cases a with
      | ran r =>
        obtain ⟨_, _, _, -, hcounts, -, -, hnumber⟩ := hledger.standing_run hstep
        rw [List.mem_singleton.1 hn]
        exact hcounts.plain _ (List.mem_append_left _ hnumber)
      | _ => cases hn
  · by_cases hne : j = i
    · subst hne
      rw [Host.process_after_self]
      exact hstanding
    · rw [Host.process_after_of_ne _ hne]
      exact (hledger.standing j).concat_of_ne hne

theorem Interleaving.ledger (hacts : Interleaving h acts h') (hfresh : ∀ i, h.process i = {})
    (hstart : (Session.store h.shared).Plain) (hplain : PlainNumbers acts) :
    Ledger (Session.store h.shared) acts h' := by
  refine hacts.invariant (P := fun done host => PlainNumbers done →
    Ledger (Session.store h.shared) done host) ?_ (fun _ => .initial hfresh) hplain
  intro done host i a p shared hstep hledger hplain
  refine (hledger fun j t ht => hplain j t (List.mem_append_left _ ht)).step hstart hstep ?_
  rintro t rfl
  exact hplain i t (List.mem_append_right _ List.mem_cons_self)

/-! ## Clashes -/

section Clashing

variable (hacts : Interleaving h (acts ++ [(i, .ran r)]) h') (hfresh : ∀ i, h.process i = {})
  (hstart : (Session.store h.shared).Plain) (hplain : PlainNumbers acts)

include hacts hfresh hstart hplain

/-- A record is accepted just when no run so far had its number. -/
theorem historyError_eq_none_iff :
    r.historyError = none ↔ r.record.id ∉ numbersRun (acts.map Prod.snd) := by
  obtain ⟨m, hbefore, hrun⟩ := hacts.split
  have hledger := hbefore.ledger hfresh hstart hplain
  cases hrun with
  | step hstep _ =>
    obtain ⟨_, _, first, -, hcounts, -, hkeys, hnumber⟩ := hledger.standing_run hstep
    have hlimit := hcounts.plain _ (List.mem_append_left _ hnumber)
    have hfirst : first ≤ r.record.id := by
      obtain ⟨_, -, -, hnumbers⟩ := hcounts.counter
      exact (hnumbers _ (List.mem_append_left _ hnumber)).1
    have htaken : signed r.record.id ∈ (Session.store m.shared).rows ↔
        r.record.id ∈ numbersRun (acts.map Prod.snd) := by
      rw [hledger.recorded]
      constructor
      · rintro (hkey | ⟨n, hn, heq⟩)
        · have hlt := hkeys _ hkey
          rw [signed_of_lt hlimit] at hlt
          omega
        · rw [← signed_inj (hledger.plain n hn) hlimit heq]
          exact hn
      · intro hmem
        exact .inr ⟨_, hmem, rfl⟩
    cases hstep with
    | ran hsession hrunning hrun =>
      have hhistory := Session.run_history hrun
      rw [← htaken]
      rcases hhistory with ⟨hkey, herror, -⟩ | ⟨hkey, herror, -⟩
      · exact iff_of_false (by rw [herror]; exact Option.some_ne_none _) (not_not_intro hkey)
      · exact iff_of_true herror hkey

/-- A number that was run before was run by another process, after this one opened. -/
theorem exists_overtaking (hmem : r.record.id ∈ numbersRun (acts.map Prod.snd)) :
    ∃ before between j r', acts = before ++ (i, .opened) :: between ∧ j ≠ i ∧
      (j, .ran r') ∈ between ∧ r'.record.id = r.record.id := by
  obtain ⟨m, hbefore, hrun⟩ := hacts.split
  have hledger := hbefore.ledger hfresh hstart hplain
  cases hrun with
  | step hstep _ =>
    obtain ⟨before, between, first, hsplit, hcounts, hlt, -, hnumber⟩ := hledger.standing_run hstep
    obtain ⟨_, -, -, hnumbers⟩ := hcounts.counter
    have hfirst := (hnumbers _ (List.mem_append_left _ hnumber)).1
    obtain ⟨r', hr', heq⟩ := mem_numbersRun_iff.1 hmem
    obtain ⟨⟨j, -⟩, hj, rfl⟩ := List.mem_map.1 hr'
    rw [hsplit, List.mem_append, List.mem_cons] at hj
    rcases hj with hj | hj | hj
    · have hlt := hlt _ (mem_numbersRun_iff.2 ⟨r', List.mem_map_of_mem hj, rfl⟩)
      omega
    · cases hj
    · refine ⟨before, between, j, r', hsplit, ?_, hj, heq⟩
      rintro rfl
      have hown : r'.record.id ∈ numbersRun (ownActs j between) :=
        mem_numbersRun_iff.2 ⟨r', mem_ownActs_iff.2 hj, rfl⟩
      rw [heq] at hown
      exact (List.nodup_append.1 hcounts.nodup).2.2 _ hnumber _ hown rfl

end Clashing

/-- After a process opened, another has run a transaction of the number that the first then runs. -/
def Overtaken (acts : List (ι × Act)) : Prop :=
  ∃ before between after i j r r',
    acts = before ++ (i, .opened) :: between ++ (i, .ran r) :: after ∧ j ≠ i ∧
      (j, .ran r') ∈ between ∧ r'.record.id = r.record.id

theorem nodup_numbersRun (hacts : Interleaving h acts h') (hfresh : ∀ i, h.process i = {})
    (hstart : (Session.store h.shared).Plain) (hplain : PlainNumbers acts)
    (haccepted : ∀ i r, (i, .ran r) ∈ acts → r.historyError = none) :
    (numbersRun (acts.map Prod.snd)).Nodup := by
  induction acts using List.reverseRecOn generalizing h' with
  | nil => exact List.nodup_nil
  | append_singleton acts act ih =>
    obtain ⟨i, a⟩ := act
    replace hplain : PlainNumbers acts := fun i t ht => hplain i t (List.mem_append_left _ ht)
    obtain ⟨m, hbefore, -⟩ := hacts.split
    have hnodup := ih hbefore hplain fun i r hr => haccepted i r (List.mem_append_left _ hr)
    rw [List.map_append, List.map_singleton, numbersRun_concat]
    cases a with
    | ran r =>
      have hnew := (historyError_eq_none_iff hacts hfresh hstart hplain).1
        (haccepted i r (List.mem_append_right _ List.mem_cons_self))
      exact List.nodup_append.2 ⟨hnodup, List.nodup_singleton _, fun n hn n' hn' heq =>
        hnew (List.mem_singleton.1 hn' ▸ heq ▸ hn)⟩
    | _ =>
      rw [show Option.toList (Act.numberRun? _) = [] from rfl, List.append_nil]
      exact hnodup

/--
Among processes that share a history, all records are accepted and all numbers differ, unless a
process runs a number that another process has run since the first one opened.
-/
theorem numbers_apart_iff (hacts : Interleaving h acts h') (hfresh : ∀ i, h.process i = {})
    (hstart : (Session.store h.shared).Plain) (hplain : PlainNumbers acts) :
    ((∀ i r, (i, .ran r) ∈ acts → r.historyError = none) ∧
      (numbersRun (acts.map Prod.snd)).Nodup) ↔ ¬ Overtaken acts := by
  constructor
  · rintro ⟨-, hnodup⟩ ⟨before, between, after, i, j, r, r', rfl, -, hr', heq⟩
    rw [List.map_append] at hnodup
    unfold numbersRun at hnodup
    rw [List.filterMap_append] at hnodup
    refine (List.nodup_append.1 hnodup).2.2 r'.record.id ?_ r.record.id ?_ heq
    · refine mem_numbersRun_iff.2 ⟨r', List.mem_map.2 ⟨(j, .ran r'), ?_, rfl⟩, rfl⟩
      exact List.mem_append_right _ (List.mem_cons_of_mem _ hr')
    · exact mem_numbersRun_iff.2 ⟨r, List.mem_cons_self, rfl⟩
  · intro hnot
    have haccepted (i : ι) (r : Report Index) (hr : (i, .ran r) ∈ acts) :
        r.historyError = none := by
      obtain ⟨upTo, after, rfl⟩ := List.append_of_mem hr
      rw [List.append_cons] at hacts
      obtain ⟨m, hbefore, -⟩ := hacts.split
      have hplain : PlainNumbers upTo := fun i t ht => hplain i t (List.mem_append_left _ ht)
      rw [historyError_eq_none_iff hbefore hfresh hstart hplain]
      intro hmem
      obtain ⟨before, between, j, r', rfl, hne, hr', heq⟩ :=
        exists_overtaking hbefore hfresh hstart hplain hmem
      exact hnot ⟨before, between, after, i, j, r, r', rfl, hne, hr', heq⟩
    exact ⟨haccepted, nodup_numbersRun hacts hfresh hstart hplain haccepted⟩

end Interleaved

/-! ### Two processes that open before either runs -/

/-- Both open, both plan, and then one after the other runs its transaction. -/
def clashActs : List (Bool × Act) :=
  [(false, .opened), (true, .opened),
    (false, .planned (offerTransaction false 1)), (true, .planned (offerTransaction true 1)),
    (false, .started (offerTransaction false 1)), (false, .ran (offerReport false 1 {})),
    (true, .started (offerTransaction true 1)),
    (true, .ran (offerReport true 1 (offerReport false 1 {}).store))]

theorem interleaving_clash : ∃ h', Interleaving offerHost clashActs h' :=
  ⟨_, .first (.open_offers rfl countFrom_empty) <| .second (.open_offers rfl countFrom_empty) <|
    .first (.plan_offer rfl) <| .second (.plan_offer rfl) <|
    .first .start_offer <| .first .run_offer <| .second .start_offer <| .second .run_offer <|
    .refl _⟩

theorem fresh_offerHost (i : Bool) : offerHost.process i = {} := by cases i <;> rfl

theorem plain_offerHost : (Session.store offerHost.shared).Plain :=
  fun _ hkey => absurd hkey Std.TreeMap.not_mem_emptyc

theorem plainNumbers_clash : PlainNumbers clashActs := by
  intro i t ht
  have hid : t.id = 1 := by
    simp only [clashActs, List.mem_cons, Prod.mk.injEq, Act.planned.injEq, reduceCtorEq, and_false,
      false_or, or_false, List.not_mem_nil] at ht
    rcases ht with ⟨-, rfl⟩ | ⟨-, rfl⟩ <;> rfl
  rw [hid]
  decide

theorem historyError_clash :
    (offerReport true 1 (offerReport false 1 {}).store).historyError =
      some (.alreadyRecorded 1) := by
  decide +kernel

theorem not_numbers_apart :
    ¬ ∀ (h h' : Host Bool) (acts : List (Bool × Act)), Interleaving h acts h' →
      (∀ i, h.process i = {}) → (Session.store h.shared).Plain → PlainNumbers acts →
        (∀ i r, (i, .ran r) ∈ acts → r.historyError = none) ∧
          (numbersRun (acts.map Prod.snd)).Nodup := by
  intro hclaim
  obtain ⟨h', hacts⟩ := interleaving_clash
  obtain ⟨haccepted, -⟩ :=
    hclaim offerHost h' clashActs hacts fresh_offerHost plain_offerHost plainNumbers_clash
  have herror := haccepted true (offerReport true 1 (offerReport false 1 {}).store)
    (List.mem_of_getElem? (i := 7) rfl)
  rw [historyError_clash] at herror
  cases herror

theorem numbers_apart_iff_clash :
    ¬ ((∀ i r, (i, .ran r) ∈ clashActs → r.historyError = none) ∧
        (numbersRun (clashActs.map Prod.snd)).Nodup) ∧ Overtaken clashActs := by
  obtain ⟨h', hacts⟩ := interleaving_clash
  have hiff := numbers_apart_iff hacts fresh_offerHost plain_offerHost plainNumbers_clash
  have hclash : ¬ (numbersRun (clashActs.map Prod.snd)).Nodup := by decide +kernel
  have hnot : ¬ ((∀ i r, (i, .ran r) ∈ clashActs → r.historyError = none) ∧
      (numbersRun (clashActs.map Prod.snd)).Nodup) := fun hboth => hclash hboth.2
  exact ⟨hnot, not_not.1 fun hovertaken => hnot (hiff.2 hovertaken)⟩

end Provision
