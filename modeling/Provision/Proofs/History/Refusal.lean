import Provision.Proofs.Execution.Course
import Provision.Proofs.History.Inversion

/-!
# When undoing is refused

The record of a plan that was carried out always has the form that undoing asks for. What can be
missing are builds: of an upgrade or a downgrade the build whose place was taken, of what was put in
place once more or taken off the build itself (`Item.before?`). On any later index whose names a
glob reads as they stand, the record is refused just when one of these is not on offer there, and the
refusal names the one that is looked for first; else there is one job for each item, last to first,
and it names just that build (`undo_verdict`).
-/

namespace Provision

open History

/-! ## Names without wildcards -/

namespace Glob

/-- The character begins no wildcard. -/
def IsOrdinary (c : Char) : Prop := c ≠ '*' ∧ c ≠ '?' ∧ c ≠ '['

theorem readTokens_of_ordinary {s : List Char} (h : ∀ c ∈ s, IsOrdinary c) (size : Nat)
    (done : List Token) (before : Option Char) :
    readTokens size done before s = .ok (done.reverse ++ s.map .literal) := by
  induction s generalizing done before with
  | nil => rw [readTokens, List.map_nil, List.append_nil]
  | cons c rest ih =>
    obtain ⟨hstar, hmark, hbracket⟩ := h c List.mem_cons_self
    rw [readTokens, ih fun d hd => h d (List.mem_cons_of_mem c hd)]
    · simp
    all_goals simp_all

theorem matchTokens_literal (s : List Char) : matchTokens (s.map .literal) s = .matched := by
  induction s with
  | nil => rfl
  | cons c rest ih => simp [matchTokens, Token.standsFor, ih]

end Glob

theorem Package.isPlain_of_ordinary {p : Package} (h : ∀ c ∈ p.name.toList, Glob.IsOrdinary c) :
    p.IsPlain := by
  unfold IsPlain Pattern.ofText Glob.parse
  rw [Glob.readTokens_of_ordinary h]
  show (Glob.matchTokens _ p.name.toList == _) = true
  rw [List.reverse_nil, List.nil_append, Glob.matchTokens_literal]
  rfl

/-! ## The build before -/

/-- The build that has to come back when the item is undone. -/
def Item.before? (i : Item) : Option Build :=
  match i.action with
  | .install => none
  | .upgrade | .downgrade => i.replaces.map Package.build
  | .reinstall | .remove | .obsolete | .replaced => some i.package.build

/-- The build that has to come back is no longer on offer, or it is hidden. -/
def Item.Lost (ix : Index) (i : Item) : Prop := ∃ b, i.before? = some b ∧ ¬ ∃ p, ix.Offers b p

/-- It is the build that was in the slot of the item. -/
theorem Goal.Solves.before?_eq {g : Goal} {ix : Index} {items : List Item}
    {outcome : Solver.Outcome} (h : g.Solves ix items outcome) {i : Item} (hi : i ∈ items) :
    i.before? = ix.buildAt? i.package.slot := by
  have hreplaces (hinbound : ¬ i.action.isRemoval) :
      i.replaces.map Package.build = ix.buildAt? i.package.slot := by
    rcases h.leads hi with ⟨hremoval, -⟩ | ⟨hreplaces, -⟩
    · exact absurd hremoval hinbound
    · rw [hreplaces]
      rfl
  have htells := h.tells hi
  generalize ix.buildAt? i.package.slot = before at htells hreplaces
  unfold Item.before?
  cases htells with
  | install haction => rw [haction]
  | change haction =>
    have heither : i.action = .upgrade ∨ i.action = .downgrade :=
      haction ▸ ite_eq_or_eq _ _ _
    rcases heither with heither | heither <;> rw [heither] at hreplaces ⊢
    · exact hreplaces (by decide)
    · exact hreplaces (by decide)
  | reinstall haction => rw [haction]
  | removal haction =>
    generalize i.action = action at haction
    cases action <;> first | rfl | cases haction

namespace History

variable {ix : Index} {i : RecordItem} {b : Build} {id : Nat}

/-! ## Looking for a build -/

theorem offeredBuild_cases (hplain : ∀ p ∈ ix.offeredPackages, p.IsPlain)
    (hslot : b.slot = i.build.slot) :
    (∃ p, offeredBuild ix i b.evr = .ok p) ∨
      offeredBuild ix i b.evr = .error (.gone b) ∧ ¬ ∃ p, ix.Offers b p := by
  rcases hfound : offeredBuild ix i b.evr with e | p
  · refine .inr ⟨congrArg Except.error ?_, fun ⟨p, hp⟩ => ?_⟩
    · unfold offeredBuild at hfound
      dsimp only at hfound
      split at hfound
      · cases hfound
      · cases hfound
        exact congrArg UndoError.gone (Build.eq_of_slot_of_evr hslot.symm rfl)
    · obtain ⟨q, hq⟩ := exists_offeredBuild hslot hp (hplain p hp.offered)
      rw [hfound] at hq
      cases hq
  · exact .inl ⟨p, rfl⟩

/-- An item is reversed, or the build that was in its slot is looked for in vain. -/
theorem reverseItem_cases (hplain : ∀ p ∈ ix.offeredPackages, p.IsPlain) {j : Item}
    {before : Option Build} (h : j.Tells before) (result : Result) (cause : Option String) :
    (∃ job, reverseItem ix id (.ofItem j result cause) = .ok job) ∨
      ∃ b, before = some b ∧ reverseItem ix id (.ofItem j result cause) = .error (.gone b) ∧
        ¬ ∃ p, ix.Offers b p := by
  have hsearch {b : Build} (hslot : b.slot = j.package.slot) (hb : before = some b)
      {toJob : Package → Goal.Job} (hreverse : reverseItem ix id (.ofItem j result cause) =
        (offeredBuild ix (.ofItem j result cause) b.evr).map toJob) :
      (∃ job, reverseItem ix id (.ofItem j result cause) = .ok job) ∨
        ∃ b, before = some b ∧ reverseItem ix id (.ofItem j result cause) = .error (.gone b) ∧
          ¬ ∃ p, ix.Offers b p := by
    rw [hreverse]
    rcases offeredBuild_cases (i := .ofItem j result cause) hplain hslot with ⟨p, hp⟩ | ⟨hgone, hno⟩
    · rw [hp]
      exact .inl ⟨toJob p, rfl⟩
    · rw [hgone]
      exact .inr ⟨b, hb, rfl, hno⟩
  cases h with
  | install haction =>
    refine .inl ⟨⟨.remove, .exactly [(RecordItem.ofItem j result cause).package], {}⟩, ?_⟩
    unfold reverseItem
    rw [show (RecordItem.ofItem j result cause).action = .install from haction]
  | @change old haction hslot hbuild hprevious =>
    have heither : j.action = .upgrade ∨ j.action = .downgrade :=
      haction ▸ ite_eq_or_eq _ _ _
    exact hsearch hslot rfl (reverseItem_of_change heither hprevious)
  | reinstall haction => exact hsearch rfl rfl (reverseItem_of_reinstall haction)
  | removal haction => exact hsearch rfl rfl (reverseItem_of_removal haction)

/-- Items are refused on account of the first of them that cannot be reversed. -/
theorem exists_of_reverseItems_eq_error {rs : List RecordItem} {e : UndoError}
    (h : (reverseItems ix id rs).value = .error e) :
    ∃ front r back, rs = front ++ r :: back ∧
      (∀ q ∈ front, ∃ job, reverseItem ix id q = .ok job) ∧ reverseItem ix id r = .error e := by
  induction rs with
  | nil => cases h
  | cons q rest ih =>
    unfold reverseItems at h
    rcases hq : reverseItem ix id q with e' | job
    · rw [hq] at h
      cases h
      exact ⟨[], q, rest, rfl, by simp, hq⟩
    · rw [hq, Traced.value_bind, Traced.value_bind, Traced.value_pure] at h
      rcases hrest : (reverseItems ix id rest).value with e' | jobs
      · rw [hrest] at h
        cases h
        obtain ⟨front, r, back, rfl, hfront, hr⟩ := ih hrest
        refine ⟨q :: front, r, back, rfl, fun p hp => ?_, hr⟩
        rcases List.mem_cons.1 hp with rfl | hp
        · exact ⟨job, hq⟩
        · exact hfront p hp
      · rw [hrest] at h
        cases h

end History

/-! ## The record of a success -/

/-- All items of a run that succeeded were carried out. -/
theorem Execution.record_of_isSuccess {σ : Type} {e : Execution} {installer : Installer σ}
    {state : σ} {watch : Update → Traced Unit} {store : Store} {now : Int}
    (h : (e.run installer state watch store now).value.isSuccess) :
    (e.run installer state watch store now).value.record =
      doneRecord e.transaction.id e.startEpoch now e.transaction.items := by
  obtain ⟨report, applied, left, fault?, hrun, haccount⟩ :=
    e.exists_account installer state watch store now
  rw [hrun] at h ⊢
  have hleft := haccount.success.1 h
  rw [haccount.record, haccount.items, hleft]
  simp [doneRecord, Installer.recordLeft]

/-! ## The verdict on a record -/

/-- What becomes of the record of a plan on a later index. -/
structure Verdict (ix : Index) (policy : Goal.Policy) (items : List Item)
    (result : Except UndoError Goal) : Prop where
  /-- The record itself is never found wanting. -/
  only_gone : ∀ e, result = .error e → ∃ b, e = .gone b
  refused_iff : (∃ b, result = .error (.gone b)) ↔ ∃ i ∈ items, i.Lost ix
  /-- The build that is missed is that of the last item whose build is lost. -/
  names_last : ∀ b, result = .error (.gone b) → ∃ before i after, items = before ++ i :: after ∧
    i.before? = some b ∧ i.Lost ix ∧ ∀ j ∈ after, ¬ j.Lost ix
  jobs : (∀ i ∈ items, ¬ i.Lost ix) → ∃ undo, result = .ok undo ∧ undo.policy = policy ∧
    List.Forall₂ (fun i job => Reverses ix i i.before? job) items.reverse undo.jobs

namespace Goal

variable {g : Goal} {ix ix' : Index} {items : List Item} {id : Nat} {start now : Int}
  {policy : Policy}

/-- An item is reversed just if its build is not lost. -/
theorem Solves.reverseItem_cases {outcome : Solver.Outcome} (h : g.Solves ix items outcome)
    (hplain : ∀ p ∈ ix'.offeredPackages, p.IsPlain) (id : Nat) {i : Item} (hi : i ∈ items) :
    (¬ i.Lost ix' ∧ ∃ job, reverseItem ix' id (.ofItem i .applied none) = .ok job) ∨
      i.Lost ix' ∧ ∃ b, i.before? = some b ∧
        reverseItem ix' id (.ofItem i .applied none) = .error (.gone b) := by
  have hbefore := h.before?_eq hi
  rcases History.reverseItem_cases hplain (h.tells hi) .applied none with
    ⟨job, hjob⟩ | ⟨b, hb, hgone, hno⟩
  · refine .inl ⟨?_, job, hjob⟩
    rintro ⟨b, hb, hno⟩
    exact hno ((reverses_of_reverseItem (h.tells hi) hjob).offered (hbefore ▸ hb))
  · exact .inr ⟨⟨b, hbefore.trans hb, hno⟩, b, hbefore.trans hb, hgone⟩

/-- A refusal is about the last item whose build is lost. -/
theorem Solves.exists_of_invert_eq_error {outcome : Solver.Outcome} (h : g.Solves ix items outcome)
    (hplain : ∀ p ∈ ix'.offeredPackages, p.IsPlain) {e : UndoError}
    (he : (invert (doneRecord id start now items) ix' policy).value = .error e) :
    ∃ before i after b, items = before ++ i :: after ∧ e = .gone b ∧ i.before? = some b ∧
      i.Lost ix' ∧ ∀ j ∈ after, ¬ j.Lost ix' := by
  rw [invert_doneRecord] at he
  rcases hreverse : (reverseItems ix' id
      (items.reverse.map fun i => .ofItem i .applied none)).value with e' | jobs
  · rw [hreverse] at he
    cases he
    obtain ⟨front, r, back, hsplit, hfront, hr⟩ := exists_of_reverseItems_eq_error hreverse
    obtain ⟨after, rest, hitems, rfl, hrest⟩ := List.map_eq_append_iff.1 hsplit
    obtain ⟨i, before, rfl, rfl, -⟩ := List.map_eq_cons_iff.1 hrest
    have hmem {j : Item} (hj : j ∈ after ++ i :: before) : j ∈ items := by
      rw [← hitems] at hj
      exact List.mem_reverse.1 hj
    rcases h.reverseItem_cases hplain id (hmem (List.mem_append_right _ List.mem_cons_self))
      with ⟨-, job, hjob⟩ | ⟨hlost, b, hb, hgone⟩
    · rw [hr] at hjob
      cases hjob
    · rw [hr] at hgone
      cases hgone
      refine ⟨before.reverse, i, after.reverse, b, ?_, rfl, hb, hlost, fun j hj hlost => ?_⟩
      · rw [← List.reverse_reverse items, hitems]
        simp
      · have hj := List.mem_reverse.1 hj
        obtain ⟨job, hjob⟩ := hfront _ (List.mem_map_of_mem hj)
        rcases h.reverseItem_cases hplain id (hmem (List.mem_append_left _ hj)) with
          ⟨hkept, -⟩ | ⟨-, b, -, hgone⟩
        · exact hkept hlost
        · rw [hjob] at hgone
          cases hgone
  · rw [hreverse] at he
    cases he

theorem Solves.verdict {outcome : Solver.Outcome} (h : g.Solves ix items outcome)
    (hplain : ∀ p ∈ ix'.offeredPackages, p.IsPlain) :
    Verdict ix' policy items (invert (doneRecord id start now items) ix' policy).value := by
  have hkept (hnone : ∀ i ∈ items, ¬ i.Lost ix') :
      ∃ undo, (invert (doneRecord id start now items) ix' policy).value = .ok undo := by
    rcases hresult : (invert (doneRecord id start now items) ix' policy).value with e | undo
    · obtain ⟨before, i, after, b, rfl, -, -, hlost, -⟩ := h.exists_of_invert_eq_error hplain hresult
      exact absurd hlost (hnone i (List.mem_append_right _ List.mem_cons_self))
    · exact ⟨undo, rfl⟩
  have hjobs {undo : Goal}
      (hundo : (invert (doneRecord id start now items) ix' policy).value = .ok undo) :
      undo.policy = policy ∧
        List.Forall₂ (fun i job => Reverses ix' i i.before? job) items.reverse undo.jobs := by
    obtain ⟨hpolicy, hreverses⟩ := h.reverses_of_invert hundo
    have hmem := (List.forall₂_and_left (p := (· ∈ items)) _ _).2
      ⟨fun i hi => List.mem_reverse.1 hi, hreverses⟩
    refine ⟨hpolicy, hmem.imp fun i job hjob => ?_⟩
    rw [h.before?_eq hjob.1]
    exact hjob.2
  refine ⟨fun e he => ?_, ⟨?_, ?_⟩, fun b hb => ?_, fun hnone => ?_⟩
  · obtain ⟨-, -, -, b, -, hgone, -⟩ := h.exists_of_invert_eq_error hplain he
    exact ⟨b, hgone⟩
  · rintro ⟨b, hb⟩
    obtain ⟨before, i, after, -, rfl, -, -, hlost, -⟩ := h.exists_of_invert_eq_error hplain hb
    exact ⟨i, List.mem_append_right _ List.mem_cons_self, hlost⟩
  · rintro ⟨i, hi, b, hb, hno⟩
    rcases hresult : (invert (doneRecord id start now items) ix' policy).value with e | undo
    · obtain ⟨-, -, -, b, -, rfl, -⟩ := h.exists_of_invert_eq_error hplain hresult
      exact ⟨b, rfl⟩
    · obtain ⟨job, -, hjob⟩ := exists_of_forall₂ (hjobs hresult).2 i (List.mem_reverse.2 hi)
      exact absurd (hjob.offered hb) hno
  · obtain ⟨before, i, after, b', hitems, hgone, hb', hlost, hafter⟩ :=
      h.exists_of_invert_eq_error hplain hb
    cases hgone
    exact ⟨before, i, after, hitems, hb', hlost, hafter⟩
  · obtain ⟨undo, hundo⟩ := hkept hnone
    exact ⟨undo, hundo, hjobs hundo⟩

/--
The plan of a goal was carried out, whoever carried it out. On a later index whose names have no
wildcards in them the record is refused just when the build that an item asks for is lost, and else
undone by one job for each item.
-/
theorem undo_verdict {advisories : List Problem}
    (h : (g.resolve ix).value = .ok (.solved items advisories)) {σ : Type}
    {installer : Installer σ} {state : σ} {watch : Update → Traced Unit} {store : Store}
    {e : Execution} (hitems : e.transaction.items = items) {r : Report σ}
    (hrun : (e.run installer state watch store now).value = r) (hsuccess : r.isSuccess)
    (hnames : ∀ p ∈ ix'.offeredPackages, ∀ c ∈ p.name.toList, Glob.IsOrdinary c)
    (policy : Policy) : Verdict ix' policy items (invert r.record ix' policy).value := by
  obtain ⟨outcome, hsolves⟩ := resolve_cases h
  subst hrun
  rw [Execution.record_of_isSuccess hsuccess, hitems]
  exact hsolves.verdict fun p hp => Package.isPlain_of_ordinary (hnames p hp)

/-! ## An upgrade whose first version is gone -/

def appAt (version repo : String) : Package := ⟨⟨"app", "noarch", ⟨0, version, none⟩⟩, repo, none⟩

/-- The application is installed in its first version, and both versions are on offer. -/
def appIndex : Index :=
  ((({} : Index).addInstalled (appAt "1" systemRepo) {}).addOffered (appAt "1" "base") {}).addOffered
    (appAt "2" "base") {}

def upgradeGoal : Goal := ⟨[⟨.upgrade, .pattern "app", {}⟩], {}⟩

def upgradeItems : List Item :=
  [{ package := appAt "2" "base", action := .upgrade, reason := .user,
     replaces := some (appAt "1" systemRepo), position := 0 }]

theorem resolve_upgrade : (upgradeGoal.resolve appIndex).value = .ok (.solved upgradeItems []) := by
  cbv

/-- Of the application only the second version is on offer still. -/
def laterIndex : Index := ({} : Index).addOffered (appAt "2" "base") {}

def upgradeRun : Execution := ⟨⟨1, .inProgress, upgradeItems⟩, 0⟩

theorem offeredPackages_later : laterIndex.offeredPackages = [appAt "2" "base"] := by cbv

theorem undo_verdict_upgrade :
    ∃ r : Report Index, (upgradeRun.run Index.installer appIndex Update.ignore {} 0).value = r ∧
      Verdict laterIndex {} upgradeItems (invert r.record laterIndex {}).value ∧
      (invert r.record laterIndex {}).value = .error (.gone (appAt "1" systemRepo).build) := by
  obtain ⟨outcome, hsolves⟩ := resolve_cases resolve_upgrade
  obtain ⟨r, hrun, -, hdone, hrecord, -⟩ :=
    hsolves.run (rfl : upgradeRun.transaction.items = upgradeItems) Update.ignore {} 0
  have hname : (appAt "2" "base").name.toList = ['a', 'p', 'p'] := by cbv
  have hnames : ∀ p ∈ laterIndex.offeredPackages, ∀ c ∈ p.name.toList, Glob.IsOrdinary c := by
    rw [offeredPackages_later]
    intro p hp
    rw [List.mem_singleton.1 hp, hname]
    simp [Glob.IsOrdinary]
  have hverdict := undo_verdict resolve_upgrade rfl hrun (decide_eq_true hdone) hnames {}
  refine ⟨r, hrun, hverdict, ?_⟩
  rw [hrecord]
  cbv

end Goal

end Provision
