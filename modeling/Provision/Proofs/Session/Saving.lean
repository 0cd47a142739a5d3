import Mathlib
import Provision.Command.Run
import Provision.Proofs.Session.Interleaving

/-!
# Saved universes

A command reads the universe when it opens its session and writes it when all is done, with the
effect of its transaction on what it has read (`document_of_saved`). It holds the lock only between
its start and the end of its run. So of two commands the last one to save keeps the effect of the
other just if it opened after the other had saved; if not, that effect is gone although the history
holds both transactions (`document_of_two`).
-/

namespace Provision

/-! ## What items make of a universe -/

/-- The document of a universe after items were applied to it. -/
def documentAfter (items : List Item) (document : Option String) : Option String :=
  match Session.indexOf document with
  | .error _ => document
  | .ok ix => some (ix.carryOut items).state.toDocument

theorem documentAfter_eq {document : Option String} {ix : Index}
    (hindex : Session.indexOf document = .ok ix) (excludes : List Pattern)
    (watch : Update → Traced Unit) (items : List Item) :
    documentAfter items document = some (Index.installer.applyAll watch items.length 0
      (ix.withExcludes excludes) items).value.state.toDocument := by
  unfold documentAfter
  rw [hindex, Index.state_applyAll watch Update.ignore excludes items ix _ 0 items.length 0]
  rfl

/-! ## Commands -/

/-- The steps of a command that carries out a transaction. -/
def commandActs (t : Transaction) (r : Report Index) : List Act :=
  [.opened, .planned t, .started t, .ran r, .saved]

namespace Session

variable {s : Session} {inv : Invocation} {w : Waiting}

theorem present_eq_waiting {r : Resolution} {t : Option Transaction}
    (h : s.present inv r t = .waiting w) : t = some w.transaction ∧ s = w.session := by
  unfold present at h
  split at h
  · dsimp only at h
    split at h
    · cases h
    · cases h
      exact ⟨rfl, rfl⟩
  · dsimp only at h
    split at h <;> cases h

theorem pursue_eq_waiting {g : Goal} (h : (s.pursue inv g).value = .waiting w) :
    ∃ r, (s.resolve g).value = .ok (r, some w.transaction, w.session) := by
  unfold pursue at h
  rw [Traced.value_bind] at h
  split at h
  · cases h
  · rename_i r t s' hresolve
    obtain ⟨rfl, rfl⟩ := present_eq_waiting h
    exact ⟨r, hresolve⟩

/-- Every command that waits for a yes has resolved a goal. -/
theorem perform_eq_waiting {store : History.Store} (h : (s.perform inv store).value = .waiting w) :
    ∃ g r, (s.resolve g).value = .ok (r, some w.transaction, w.session) := by
  unfold perform at h
  split at h
  case h_7 => cases h
  case h_8 => cases h
  case h_9 id _ =>
    unfold undo at h
    split at h
    · cases h
    · rw [Traced.value_bind] at h
      split at h
      · cases h
      · exact ⟨_, pursue_eq_waiting h⟩
  all_goals exact ⟨_, pursue_eq_waiting h⟩

end Session

/-- A host with one process. -/
def Host.alone (shared : Shared) (p : Process) : Host Unit := ⟨shared, fun _ => p⟩

theorem Interleaving.alone {shared shared' : Shared} {p p' : Process} {a : Act} {acts : List Act}
    {h : Host Unit} (hstep : p.Step shared a p' shared')
    (hrest : Interleaving (.alone shared' p') (acts.map (Prod.mk ())) h) :
    Interleaving (.alone shared p) ((a :: acts).map (Prod.mk ())) h := by
  refine .step hstep ?_
  have hafter : (Host.alone shared p).after () p' shared' = .alone shared' p' := by
    unfold Host.after Host.alone
    congr 1
  rw [hafter]
  exact hrest

/-- The steps of a command that carries out a transaction are those of a process. -/
theorem Invocation.interleaving_of_run {inv : Invocation} {settings : Settings}
    {shared opened started : Shared} {w : Waiting} {pid : Nat} {now : Int} {e : Execution}
    (hprepare : (inv.prepare settings shared).value = (.waiting w, opened))
    (hstart : (w.session.start opened w.transaction pid now).value = .ok (e, started)) :
    ∃ r p, Interleaving (.alone shared {}) ((commandActs w.transaction r).map (Prod.mk ()))
      (.alone (carryOut w opened pid now).value.2 p) := by
  unfold prepare at hprepare
  rw [Traced.value_bind] at hprepare
  split at hprepare
  · cases hprepare
  · rename_i s shared' hopen
    obtain ⟨hperform, rfl⟩ := Prod.mk.inj hprepare
    obtain ⟨g, resolution, hresolve⟩ := Session.perform_eq_waiting hperform
    unfold carryOut
    rw [Traced.value_bind, hstart]
    exact ⟨_, _, .alone (.opened rfl hopen) <| .alone (.planned rfl hresolve) <|
      .alone (.started rfl rfl List.mem_cons_self hstart) <| .alone (.ran rfl rfl rfl) <|
      .alone (.saved rfl) <| .refl _⟩

section Commands

variable {ι : Type} [DecidableEq ι] {h h' m : Host ι} {acts before after : List (ι × Act)} {i : ι}
  {t t' : Transaction} {r : Report Index} {a : Act}

/-- What is done before the first step of a process. -/
def actsBefore (i : ι) (acts : List (ι × Act)) : List (ι × Act) :=
  acts.takeWhile fun act => act.1 ≠ i

theorem exists_append_actsBefore (i : ι) (acts : List (ι × Act)) :
    ∃ rest, acts = actsBefore i acts ++ rest :=
  ⟨_, List.takeWhile_append_dropWhile.symm⟩

theorem ownActs_actsBefore : ownActs i (actsBefore i acts) = [] := by
  rw [List.eq_nil_iff_forall_not_mem]
  intro a ha
  have hne := List.mem_takeWhile_imp (mem_ownActs_iff.1 ha)
  exact of_decide_eq_true hne rfl

theorem actsBefore_append (hbefore : ownActs i before = []) :
    actsBefore i (before ++ (i, a) :: after) = before := by
  have hne : ∀ act ∈ before, decide (act.1 ≠ i) = true := by
    rintro ⟨j, b⟩ hmem
    refine decide_eq_true fun heq : j = i => ?_
    have hb : b ∈ ownActs i before := mem_ownActs_iff.2 (heq ▸ hmem)
    rw [hbefore] at hb
    cases hb
  unfold actsBefore
  rw [List.takeWhile_append_of_pos hne, List.takeWhile_cons_of_neg (by simp), List.append_nil]

/-- After its run a process has applied its transaction to the universe that it opened with. -/
theorem session_of_ran (hacts : Interleaving h (before ++ after) h')
    (hran : Interleaving h before m)
    (hown : ownActs i before = [.opened, .planned t, .started t', .ran r]) :
    ∃ opening s, Interleaving h (actsBefore i (before ++ after)) opening ∧
      (m.process i).session = some s ∧
      some s.index.toDocument = documentAfter t.items opening.shared.document := by
  obtain ⟨first, acts₁, opening, _, _, rfl, hfirst, hopening, hstep, hran, hown⟩ :=
    hran.next_own hown
  cases hstep with
  | @opened settings s _ _ hopen =>
  obtain ⟨ix, excludes, hindex, hs, -, -⟩ := Session.openOn_eq_ok hopen
  obtain ⟨_, acts₂, _, _, _, -, -, -, hstep, hran, hown⟩ := hran.next_own hown
  rw [Host.process_after_self] at hstep
  cases hstep with
  | @planned s₁ s₂ g resolution _ hsession hresolve =>
  cases hsession
  obtain ⟨-, rfl⟩ := Session.resolve_eq_ok hresolve
  obtain ⟨_, acts₃, _, _, _, -, -, -, hstep, hran, hown⟩ := hran.next_own hown
  rw [Host.process_after_self] at hstep
  cases hstep with
  | @started _ _ pid now e _ hsession hidle hplanned hstart =>
  obtain ⟨-, htransaction, -⟩ := Session.start_eq_ok hstart
  rw [List.mem_singleton.1 hplanned] at htransaction
  obtain ⟨_, acts₄, _, _, _, -, -, -, hstep, hran, hown⟩ := hran.next_own hown
  rw [Host.process_after_self] at hstep
  cases hstep with
  | @ran s₃ s₄ _ watch now _ _ hsession hrunning hrun =>
  cases hsession
  cases hrunning
  obtain ⟨rfl, -, houtcome, -⟩ := Session.run_value hrun
  have hprocess := hran.process_eq hown
  rw [Host.process_after_self] at hprocess
  have hitems : e.transaction.items = t.items := by rw [htransaction]
  refine ⟨opening, _, ?_, congrArg Process.session hprocess, ?_⟩
  · rw [List.append_assoc, List.cons_append, actsBefore_append hfirst]
    exact hopening
  · show some r.outcome.state.toDocument = _
    rw [houtcome, hitems, documentAfter_eq hindex excludes watch]
    show some (Index.installer.applyAll watch _ 0 s.index t.items).value.state.toDocument = _
    rw [hs]

/-- The last to save leaves its transaction applied to the universe that it opened with. -/
theorem document_of_saved (hacts : Interleaving h (before ++ (i, .saved) :: after) h')
    (hsaved : ∀ j, (j, .saved) ∉ after)
    (hown : ownActs i before = [.opened, .planned t, .started t', .ran r]) :
    ∃ opening, Interleaving h (actsBefore i (before ++ (i, .saved) :: after)) opening ∧
      h'.shared.document = documentAfter t.items opening.shared.document := by
  obtain ⟨m, hran, hsaving⟩ := hacts.split
  obtain ⟨opening, s, hopening, hsession, hdocument⟩ := session_of_ran hacts hran hown
  refine ⟨opening, hopening, ?_⟩
  cases hsaving with
  | step hstep hrest =>
    rw [hrest.document_unsaved hsaved]
    cases hstep with
    | @saved s' hsession' =>
      cases hsession.symm.trans hsession'
      exact hdocument

/-- A command saves last of all. -/
theorem eq_of_append_saved {before after : List Act}
    (h : before ++ .saved :: after = commandActs t r) :
    before = [.opened, .planned t, .started t, .ran r] ∧ after = [] := by
  unfold commandActs at h
  rcases before with _ | ⟨_, _ | ⟨_, _ | ⟨_, _ | ⟨_, _ | ⟨_, before⟩⟩⟩⟩⟩ <;>
    simp_all

theorem ownActs_of_saved (hown : ownActs i (before ++ (i, .saved) :: after) = commandActs t r) :
    ownActs i before = [.opened, .planned t, .started t, .ran r] ∧ ownActs i after = [] := by
  rw [ownActs_append, ownActs_cons_self] at hown
  exact eq_of_append_saved hown

/-- A process saves, and none does after it. -/
def SavesLast (i : ι) (acts : List (ι × Act)) : Prop :=
  ∃ before after, acts = before ++ (i, .saved) :: after ∧ ∀ j, (j, .saved) ∉ after

omit [DecidableEq ι] in
theorem exists_savesLast (hsaved : (i, .saved) ∈ acts) : ∃ j, SavesLast j acts := by
  induction acts generalizing i with
  | nil => cases hsaved
  | cons act rest ih =>
    by_cases hrest : ∃ j, (j, .saved) ∈ rest
    · obtain ⟨j, hj⟩ := hrest
      obtain ⟨k, before, after, rfl, hafter⟩ := ih hj
      exact ⟨k, act :: before, after, rfl, hafter⟩
    · rcases List.mem_cons.1 hsaved with rfl | hmem
      · exact ⟨i, [], rest, rfl, fun j hj => hrest ⟨j, hj⟩⟩
      · exact absurd ⟨i, hmem⟩ hrest

end Commands

section TwoCommands

variable {h h' : Host Bool} {acts : List (Bool × Act)} {t : Bool → Transaction}
  {r : Bool → Report Index} {i : Bool}

theorem not_saved_of_ownActs (hown : ownActs i acts = []) (hother : (!i, .saved) ∉ acts)
    (j : Bool) : (j, .saved) ∉ acts := by
  intro hmem
  rcases Bool.eq_or_eq_not j i with rfl | rfl
  · rw [← mem_ownActs_iff, hown] at hmem
    cases hmem
  · exact hother hmem

/-- What a command opens with if the other one has saved before. -/
theorem document_of_other (hacts : Interleaving h (actsBefore i acts) h')
    (hown : ownActs (!i) acts = commandActs (t !i) (r !i))
    (hother : (!i, .saved) ∈ actsBefore i acts) :
    h'.shared.document = documentAfter (t !i).items h.shared.document := by
  have hnone : ownActs i (actsBefore i acts) = [] := ownActs_actsBefore
  obtain ⟨rest, hrest⟩ := exists_append_actsBefore i acts
  obtain ⟨before, after, hsplit⟩ := List.append_of_mem hother
  rw [hrest, hsplit, List.append_assoc, List.cons_append] at hown
  obtain ⟨hbefore, hafter⟩ := ownActs_of_saved hown
  rw [hsplit] at hacts hnone
  have hafter : ∀ j, (j, .saved) ∉ after := by
    rw [ownActs_append, ownActs_cons_of_ne (Bool.not_ne_self i), List.append_eq_nil_iff] at hnone
    refine not_saved_of_ownActs hnone.2 fun hmem => ?_
    have hmem := mem_ownActs_iff.2 (List.mem_append_left rest hmem)
    rw [hafter] at hmem
    cases hmem
  obtain ⟨opening, hopening, hdocument⟩ := document_of_saved hacts hafter hbefore
  rw [hdocument, hopening.document_unsaved]
  refine not_saved_of_ownActs (i := !i) ownActs_actsBefore fun hmem => ?_
  have hmem := mem_ownActs_iff.2 (List.takeWhile_subset _ hmem)
  rw [Bool.not_not, hnone] at hmem
  cases hmem

/--
The universe after two commands, in whatever way their steps alternate: the last one to save has
applied its transaction to what the other saved if that was done before it opened, and otherwise to
what there was at first.
-/
theorem document_of_two (hacts : Interleaving h acts h')
    (hown : ∀ i, ownActs i acts = commandActs (t i) (r i)) :
    ∃ i, SavesLast i acts ∧
      ((!i, .saved) ∈ actsBefore i acts → h'.shared.document =
        documentAfter (t i).items (documentAfter (t !i).items h.shared.document)) ∧
      ((!i, .saved) ∉ actsBefore i acts →
        h'.shared.document = documentAfter (t i).items h.shared.document) := by
  have hsaved : (true, .saved) ∈ acts := by
    rw [← mem_ownActs_iff, hown]
    unfold commandActs
    simp
  obtain ⟨i, hlast⟩ := exists_savesLast hsaved
  refine ⟨i, hlast, ?_⟩
  obtain ⟨before, after, rfl, hafter⟩ := hlast
  obtain ⟨opening, hopening, hdocument⟩ :=
    document_of_saved hacts hafter (ownActs_of_saved (hown i)).1
  rw [hdocument]
  constructor
  · intro hother
    rw [document_of_other hopening (hown !i) hother]
  · intro hother
    rw [hopening.document_unsaved (not_saved_of_ownActs ownActs_actsBefore hother)]

end TwoCommands

/-- The second document is what both transactions make of the first, one after the other. -/
def KeepsBoth (t : Bool → Transaction) (document document' : Option String) : Prop :=
  ∃ i, document' = documentAfter (t i).items (documentAfter (t !i).items document)

/-! ### A command that opens between the run and the saving of another -/

def lostTransaction : Bool → Transaction
  | false => offerTransaction false 2
  | true => offerTransaction true 1

def lostReport : Bool → Report Index
  | false => offerReport false 2 (offerReport true 1 {}).store
  | true => offerReport true 1 {}

/-- The first process opens after the second has run its transaction and before it saves. -/
def lostActs : List (Bool × Act) :=
  [(true, .opened), (true, .planned (lostTransaction true)),
    (true, .started (lostTransaction true)), (true, .ran (lostReport true)),
    (false, .opened), (true, .saved),
    (false, .planned (lostTransaction false)), (false, .started (lostTransaction false)),
    (false, .ran (lostReport false)), (false, .saved)]

theorem documentAfter_offers (items : List Item) :
    documentAfter items (some offerDocument) =
      some (offerIndex.carryOut items).state.toDocument := by
  unfold documentAfter Session.indexOf
  dsimp only
  rw [ofDocument_offers]

theorem state_offerReport (b : Bool) (id : Nat) (store : History.Store) :
    (offerReport b id store).outcome.state = (offerIndex.carryOut [offerItem b]).state := by
  have hrun : ((offerExecution b id).run Index.installer offerIndex Update.ignore store 0).value =
      offerReport b id store := rfl
  obtain ⟨houtcome, -⟩ := Execution.run_value hrun
  rw [houtcome]
  rfl

theorem countFrom_offerReport : Session.countFrom (offerReport true 1 {}).store = ⟨2⟩ := by
  have hrun : ((offerExecution true 1).run Index.installer offerIndex Update.ignore {} 0).value =
      offerReport true 1 {} := rfl
  obtain ⟨-, hrecord, -, hkept⟩ := Execution.run_value hrun
  have hid : (offerReport true 1 {}).record.id = 1 := by
    rw [hrecord]
    rfl
  have hfinal : (offerReport true 1 {}).record.state.isFinal :=
    hrecord ▸ Execution.isFinal_recordOf _ _ _
  have hlast : (offerReport true 1 {}).store.lastId = some 1 := by
    rcases Execution.keepRecord_value hfinal hkept.symm with ⟨htaken, -⟩ | ⟨-, -, hadds⟩
    · exact absurd htaken Std.TreeMap.not_mem_emptyc
    · unfold History.Store.lastId
      rw [hadds.rows, hid, Std.TreeMap.maxKey?_insert, Std.TreeMap.maxKey?_emptyc]
      rfl
  unfold Session.countFrom
  rw [hlast]
  rfl

theorem interleaving_lost :
    ∃ h', Interleaving offerHost lostActs h' ∧
      h'.shared.document = documentAfter [offerItem false] (some offerDocument) := by
  refine ⟨_, .second (.open_offers rfl countFrom_empty) <| .second (.plan_offer rfl) <|
    .second .start_offer <| .second .run_offer <|
    .first (.open_offers rfl countFrom_offerReport) <| .second (.saved rfl) <|
    .first (.plan_offer rfl) <| .first .start_offer <| .first .run_offer <|
    .first (.saved rfl) <| .refl _, ?_⟩
  rw [documentAfter_offers, ← state_offerReport false 2 (offerReport true 1 {}).store]
  rfl

theorem ownActs_lost (i : Bool) :
    ownActs i lostActs = commandActs (lostTransaction i) (lostReport i) := by
  cases i <;> rfl

theorem success_lost :
    ∀ i, (lostReport i).outcome.failure = none ∧ (lostReport i).historyError = none := by
  decide +kernel

/-- Applying either transaction after the other gives another universe than the first one alone. -/
theorem not_keepsBoth_lost :
    ¬ KeepsBoth lostTransaction (some offerDocument)
      (documentAfter [offerItem false] (some offerDocument)) := by
  have hfirst : documentAfter [offerItem false] (some offerDocument) ≠
      documentAfter [offerItem false] (documentAfter [offerItem true] (some offerDocument)) := by
    rw [documentAfter_offers, documentAfter_offers]
    decide +kernel
  have hsecond : documentAfter [offerItem false] (some offerDocument) ≠
      documentAfter [offerItem true] (documentAfter [offerItem false] (some offerDocument)) := by
    rw [documentAfter_offers]
    decide +kernel
  rintro ⟨_ | _, hboth⟩
  · exact hfirst hboth
  · exact hsecond hboth

theorem not_all_keepBoth :
    ¬ ∀ (h h' : Host Bool) (acts : List (Bool × Act)) (t : Bool → Transaction)
      (r : Bool → Report Index), Interleaving h acts h' → h.shared.lock = {} →
      (∀ i, ownActs i acts = commandActs (t i) (r i)) →
      (∀ i, (r i).outcome.failure = none ∧ (r i).historyError = none) →
        KeepsBoth t h.shared.document h'.shared.document := by
  intro hclaim
  obtain ⟨h', hacts, hdocument⟩ := interleaving_lost
  have hboth := hclaim offerHost h' lostActs lostTransaction lostReport hacts rfl ownActs_lost
    success_lost
  rw [hdocument] at hboth
  exact not_keepsBoth_lost hboth

theorem document_of_two_lost :
    ∃ h', Interleaving offerHost lostActs h' ∧
      ∃ i, SavesLast i lostActs ∧
        ((!i, .saved) ∈ actsBefore i lostActs → h'.shared.document =
          documentAfter (lostTransaction i).items
            (documentAfter (lostTransaction !i).items (some offerDocument))) ∧
        ((!i, .saved) ∉ actsBefore i lostActs → h'.shared.document =
          documentAfter (lostTransaction i).items (some offerDocument)) := by
  obtain ⟨h', hacts, -⟩ := interleaving_lost
  exact ⟨h', hacts, document_of_two hacts ownActs_lost⟩

end Provision
