import Provision.Proofs.Solver.Mirror
import Provision.Proofs.Solver.Termination

/-!
# Searches whose first tries succeed

Some stages may be such that whatever their worlds ask for leads to stages of the same kind, and that
none of them is stuck (`Stage.Guides`). From a model of such a stage the search succeeds with
everything it tries first, and ends with a model of a stage of this kind whose world is sound
(`settle_rests`). Nothing is left to be gone back on, since every step decides one more slot.
-/

namespace Provision.Solver

open Model (Reaches)

/-- What the worlds of these stages ask for can be done and leads to such stages again. -/
structure Stage.Guides (ix : Index) (policy : Policy) (among : Stage → Prop) : Prop where
  drop : ∀ st p, among st → st.Drops ix policy p → p ∉ st.brought ∧ among (st.drop [p])
  fetch : ∀ st p, among st → st.Fetches ix policy p → st.Admits ix p ∧ among (st.fetch ix p)
  tractable : ∀ st, among st → st.Tractable ix policy

namespace Scope

variable {s : Scope} {ix : Index} {policy : Policy} {among : Stage → Prop} {st : Stage}
  {m m' : Model}

/-- The model is that of a stage among these whose world is sound. -/
def Rests (s : Scope) (ix : Index) (among : Stage → Prop) (m : Model) : Prop :=
  ∃ st, s.Mirrors ix st m ∧ among st ∧ ix.Sound st.brought (st.world ix)

theorem Rests.settled (hs : s.Views ix) (h : s.Rests ix among m) : s.Settled m := by
  obtain ⟨st, hm, -, hsound⟩ := h
  exact (hm.settled_iff hs).2 hsound

/-! ## Passes -/

theorem applyObsoletes_cases (m : Model) :
    (s.applyObsoletes m).result = .ok none ∨
      ∃ p ∈ s.changed m, ∃ o q, s.victimOf? m p = some (o, q) ∧ (m.isDecided q.slot = false →
        (s.applyObsoletes m).result = .ok (some (m.clear q.slot ⟨.dependency, s.job, .obsoletedBy p⟩))) := by
  rcases hfind : (s.changed m).findSome? fun p => (s.victimOf? m p).map (p, ·) with _ | ⟨p, o, q⟩
  · left
    unfold applyObsoletes
    rw [hfind]
    rfl
  · right
    obtain ⟨x, hx, hmap⟩ := List.exists_of_findSome?_eq_some hfind
    obtain ⟨victim, hvictim, heq⟩ := Option.map_eq_some_iff.1 hmap
    cases heq
    refine ⟨p, hx, o, q, hvictim, fun hopen => ?_⟩
    unfold applyObsoletes
    rw [hfind]
    dsimp only
    rw [if_neg (Bool.eq_false_iff.1 hopen), Search.result_debug_bind]
    rfl

theorem resolveConflicts_cases (m : Model) :
    (s.resolveConflicts m).result = .ok none ∨
      (∃ c ∈ s.clashes m, ∃ slot, s.erasableSide? m c = some slot ∧
        (s.resolveConflicts m).result = .ok (some (s.erase m slot .dependency))) ∨
      ∃ c ∈ s.clashes m, s.erasableSide? m c = none := by
  rcases hfind : (s.clashes m).findSome? fun c => (s.erasableSide? m c).map (c, ·) with _ | ⟨c, slot⟩
  · rcases hclashes : s.clashes m with _ | ⟨c, rest⟩
    · exact .inl (resolveConflicts_eq_none_iff.2 hclashes)
    · have hc : c ∈ s.clashes m := hclashes ▸ List.mem_cons_self
      have hnone := Option.map_eq_none_iff.1 (List.findSome?_eq_none_iff.1 hfind c hc)
      exact .inr (.inr ⟨c, List.mem_cons_self, hnone⟩)
  · obtain ⟨clash, hclash, hmap⟩ := List.exists_of_findSome?_eq_some hfind
    obtain ⟨side, hside, heq⟩ := Option.map_eq_some_iff.1 hmap
    cases heq
    refine .inr (.inl ⟨c, hclash, slot, hside, ?_⟩)
    unfold resolveConflicts
    dsimp only
    rw [hfind]
    dsimp only
    rw [Search.result_debug_bind]
    rfl

section Erasure

variable (hs : s.Serves ix policy) (hm : s.Mirrors ix st m) {c : Clash} (hc : c ∈ s.clashes m)

include hs hm hc

/-- The side of a conflict that is erased is asked to go. -/
theorem drops_of_erasableSide {slot : Slot} (h : s.erasableSide? m c = some slot) :
    ∃ gone, st.Drops ix policy gone ∧ slot = gone.slot := by
  have hclashes := hm.clashes hs.views hc
  obtain ⟨herasable, hslot⟩ := erasableSide?_cases h
  rcases hslot with rfl | rfl
  · rw [hm.isErasable_iff hclashes.right, hs.policy_eq] at herasable
    exact ⟨c.other, .excluded hclashes (.inr rfl) herasable.1 herasable.2, rfl⟩
  · rw [hm.isErasable_iff hclashes.left, hs.policy_eq] at herasable
    exact ⟨c.package, .excluded hclashes (.inl rfl) herasable.1 herasable.2, rfl⟩

theorem erasableSide_ne_none (hmay : st.erases ∨ policy.allowErasing)
    (hside : c.package ∉ st.brought ∨ c.other ∉ st.brought) : s.erasableSide? m c ≠ none := by
  have hclashes := hm.clashes hs.views hc
  rw [← hs.policy_eq] at hmay
  unfold erasableSide?
  split
  · exact nofun
  · rename_i hother
    rw [hm.isErasable_iff hclashes.right, and_iff_left hmay, not_not] at hother
    have hpackage : s.isErasable m c.package.slot :=
      (hm.isErasable_iff hclashes.left).2 ⟨hside.resolve_right (not_not.2 hother), hmay⟩
    rw [if_pos hpackage]
    exact nofun

end Erasure

/-! ## Steps of a guided search -/

theorem mem_slots_of_installed (hs : s.Views ix) {p : Package} (hp : p ∈ ix.installedPackages) :
    p.slot ∈ s.slots := by
  refine List.mem_append_left _ (Std.TreeMap.mem_keys.2 ?_)
  rw [Std.TreeMap.mem_iff_isSome_getElem?, hs.installed, Index.mem_installedPackages_iff.1 hp]
  rfl

section Guided

variable (hg : Stage.Guides ix policy among) (hs : s.Serves ix policy) (hm : s.Mirrors ix st m)
  (hst : among st)

include hg hs hm hst

/-- What is asked to go can go, and this leaves fewer slots open. -/
theorem clear_guided {p : Package} (h : st.Drops ix policy p) {d : Decision}
    (hfate : d.fate ≠ .reinstalled) :
    m.isDecided p.slot = false ∧ s.Mirrors ix (st.drop [p]) (m.clear p.slot d) ∧
      among (st.drop [p]) ∧ s.openSlots (m.clear p.slot d) < s.openSlots m := by
  obtain ⟨hleft, hnext⟩ := hg.drop st p hst h
  obtain ⟨hp, hopen⟩ := hm.isOpen_of_left h.world hleft
  have hundecided := (hm.undecided _).2 hopen
  have hmove : m.Move (fun _ => True) (m.clear p.slot d) := .clear hundecided hfate
  refine ⟨hundecided, hm.clear hp hopen d, hnext, openSlots_lt_of_decides (.single hmove) ?_⟩
  exact ⟨p.slot, mem_slots_of_installed hs.views hp, hundecided, Model.isDecided_decide_self _ _ d⟩

/-- What is asked to come can come, and this leaves fewer slots open. -/
theorem place_guided {p : Package} (h : st.Fetches ix policy p) (reason : Reason) :
    ∃ placed, s.place m p reason = .ok placed ∧ s.Mirrors ix (st.fetch ix p) placed ∧
      among (st.fetch ix p) ∧ s.openSlots placed < s.openSlots m := by
  obtain ⟨hadmits, hnext⟩ := hg.fetch st p hst h
  obtain ⟨placed, hplace, hplaced⟩ := hm.place hs.views hadmits reason
  have hreaches : Reaches (fun _ => True) m placed := place_reaches hm.keyed trivial hplace
  refine ⟨placed, hplace, hplaced, hnext, openSlots_lt_of_decides hreaches ?_⟩
  exact decides_of_choice (hs.choices_eq ▸ h.choice)
    ((hm.undecided _).2 hadmits.opens) (place_holds hplace).2

end Guided

/-- The search that goes on after a trial ends well at guided stages with fewer slots open. -/
def RestsBelow (s : Scope) (ix : Index) (among : Stage → Prop) (bound : Nat)
    (settle : Model → Search Model) : Prop :=
  ∀ ⦃st : Stage⦄ ⦃m : Model⦄, s.Mirrors ix st m → among st → s.openSlots m < bound →
    ∃ m', (settle m).result = .ok m' ∧ s.Rests ix among m' ∧ s.openSlots m' ≤ s.openSlots m

section Trials

variable {settle : Model → Search Model} {bound : Nat} (hsettle : s.RestsBelow ix among bound settle)
  (hg : Stage.Guides ix policy among) (hs : s.Serves ix policy) (hm : s.Mirrors ix st m)
  (hst : among st) (hbound : s.openSlots m ≤ bound)

include hsettle hg hs hm hst hbound

/-- Of packages that are tried in turn the first one is taken if it was asked to come. -/
theorem firstAttempt_guided {p : Package} (h : st.Fetches ix policy p) (rest : List Package)
    (reason : Reason) :
    ∃ m', (Search.firstSuccess (s.attempt settle m reason) none (p :: rest)).result = .ok (p, m') ∧
      s.Rests ix among m' ∧ s.openSlots m' < s.openSlots m := by
  obtain ⟨placed, hplace, hplaced, hnext, hless⟩ := place_guided hg hs hm hst h reason
  obtain ⟨m', hresult, hrests, hle⟩ := hsettle hplaced hnext (by omega)
  refine ⟨m', ?_, hrests, by omega⟩
  have hattempt : (s.attempt settle m reason p).result = .ok m' := by
    unfold attempt
    rw [hplace]
    exact hresult
  unfold Search.firstSuccess
  rw [Search.result_orElse, Search.result_bind, hattempt]
  rfl

/-- Where nothing meets a need, its package is upgraded, or it goes. -/
theorem repairWithoutProvider_guided {need : Need}
    (hfirst : st.NeedsFirst ix need.package need.requirement)
    (hkeeps : need.package ∈ st.brought ∨ st.erases = false)
    (hnone : ∀ q, ¬ st.Supplies ix need.requirement q) (refusal : List Problem) :
    ∃ next, (s.repairWithoutProvider settle m need (s.isUntouched m need.package.slot)
        refusal).result = .ok next ∧
      (s.Rests ix among next ∧ s.openSlots next < s.openSlots m ∨
        ∃ p, st.Drops ix policy p ∧ next = s.erase m p.slot .dependency) := by
  obtain ⟨hleft, hhelp⟩ := ((hg.tractable st hst).needs _ _ hfirst).resolve_left
    fun ⟨q, hq⟩ => hnone q hq
  have hkeeps := hkeeps.resolve_left hleft
  rw [(hm.isUntouched_iff hfirst.lacks.world).2 hleft]
  unfold repairWithoutProvider
  rw [if_pos rfl, Search.result_orElse, Search.result_bind]
  rcases hs.upgradesOf_cases need.package with ⟨hupgrades, hold⟩ | ⟨q, rest, hupgrades, hq⟩ <;>
    rw [hupgrades]
  · have hmay := (hhelp.resolve_left (Bool.eq_false_iff.1 hkeeps)).resolve_right
      fun ⟨q, hq⟩ => hold q hq
    refine ⟨_, ?_, .inr ⟨need.package, .helpless hfirst hleft hkeeps hmay hnone hold, rfl⟩⟩
    show (if s.policy.allowErasing then s.eraseNeedy m need else _).result = _
    rw [hs.policy_eq, if_pos hmay]
    exact result_eraseNeedy need
  · obtain ⟨m', hresult, hrests⟩ := firstAttempt_guided hsettle hg hs hm hst hbound
      (.upgrade hfirst hleft hkeeps hnone hq) rest .dependency
    rw [hresult]
    exact ⟨m', rfl, .inl hrests⟩

/-- A need is met by what is asked for on its account. -/
theorem repair_guided {need : Need} (hneed : s.firstBroken? m = some need) :
    ∃ next, (s.repair settle m need).result = .ok next ∧
      (s.Rests ix among next ∧ s.openSlots next < s.openSlots m ∨
        ∃ p, st.Drops ix policy p ∧ next = s.erase m p.slot .dependency) := by
  have hfirst := hm.needsFirst hs.views hneed
  have hgoes : s.goesAlong m need ↔ need.package ∉ st.brought ∧ st.erases := by
    unfold goesAlong
    rw [Bool.and_eq_true, hm.isUntouched_iff hfirst.lacks.world, hm.erases]
  rw [repair_eq]
  by_cases hwith : s.goesAlong m need
  · rw [if_pos hwith]
    obtain ⟨hleft, herases⟩ := hgoes.1 hwith
    exact ⟨_, result_eraseNeedy need, .inr ⟨need.package, .along hfirst hleft herases, rfl⟩⟩
  · have hkeeps : need.package ∈ st.brought ∨ st.erases = false := by
      rw [hgoes, not_and_or, not_not, Bool.not_eq_true] at hwith
      exact hwith
    rw [if_neg hwith, Search.result_orElse, Search.result_bind]
    rcases hm.providers_cases hs need.requirement with ⟨hproviders, hnone⟩ |
      ⟨q, rest, hproviders, hq⟩ <;> rw [hproviders]
    · exact repairWithoutProvider_guided hsettle hg hs hm hst hbound hfirst hkeeps hnone _
    · obtain ⟨m', hresult, hrests⟩ := firstAttempt_guided hsettle hg hs hm hst hbound
        (.required hfirst hkeeps hq) rest .dependency
      rw [hresult]
      refine ⟨m', ?_, .inl hrests⟩
      dsimp only
      rw [Search.result_debug_bind]
      rfl

/-- The first recommendation for which there is something to try is followed. -/
theorem followOne_guided (hsound : ix.Sound st.brought (st.world ix)) (hkeeps : st.erases = false)
    {needs : List Need} (hneeds : ∀ need ∈ needs, need ∈ s.missingRecommends m) :
    (s.followOne settle m needs).result = .ok none ∨
      ∃ m', (s.followOne settle m needs).result = .ok (some m') ∧ s.Rests ix among m' ∧
        s.openSlots m' < s.openSlots m := by
  induction needs with
  | nil => exact .inl rfl
  | cons need rest ih =>
    unfold followOne
    rw [Search.result_orElse, Search.result_bind]
    rcases hm.providers_cases hs need.requirement with ⟨hproviders, -⟩ |
      ⟨q, others, hproviders, hq⟩ <;> rw [hproviders]
    · show (do
        Search.debug _
        s.followOne settle m rest : Search _).result = _ ∨ ∃ m', (do
        Search.debug _
        s.followOne settle m rest : Search _).result = _ ∧ _
      rw [Search.result_debug_bind]
      exact ih fun other hother => hneeds other (List.mem_cons_of_mem need hother)
    · obtain ⟨hp, ⟨metadata, hmetadata, hr⟩, hunmet⟩ :=
        hm.unmet_of_mem_missingRecommends hs.views (hneeds need List.mem_cons_self)
      obtain ⟨m', hresult, hrests⟩ := firstAttempt_guided hsettle hg hs hm hst hbound
        (.recommended hsound hkeeps hp hmetadata hr hunmet hq) others .weakDependency
      rw [hresult]
      refine .inr ⟨m', ?_, hrests⟩
      dsimp only
      rw [Search.result_debug_bind]
      rfl

end Trials

/-! ## Settling -/

/-- By induction on the steps: each mends a flaw as the world asks, and goes on at the next stage. -/
theorem settle_rests (hg : Stage.Guides ix policy among) (hs : s.Serves ix policy) (steps : Nat) :
    s.RestsBelow ix among steps (s.settle steps) := by
  induction steps with
  | zero => exact fun _ _ _ _ hsteps => absurd hsteps (Nat.not_lt_zero _)
  | succ steps ih =>
    intro st m hm hst hsteps
    have hclear {p : Package} (h : st.Drops ix policy p) {d : Decision}
        (hfate : d.fate ≠ .reinstalled) : ∃ m', (s.settle steps (m.clear p.slot d)).result = .ok m' ∧
          s.Rests ix among m' ∧ s.openSlots m' ≤ s.openSlots m := by
      obtain ⟨-, hcleared, hnext, hless⟩ := clear_guided hg hs hm hst h hfate
      obtain ⟨m', hrest, hrests, hle⟩ := ih hcleared hnext (by omega)
      exact ⟨m', hrest, hrests, by omega⟩
    rcases applyObsoletes_cases m with hobsoletes | ⟨p, hp, o, q, hvictim, hresult⟩
    · rcases resolveConflicts_cases m with hconflicts | ⟨c, hc, slot, hside, hresult⟩ | ⟨c, hc, hnone⟩
      · rcases hneed : s.firstBroken? m with _ | need
        · have hsettled : s.Settled m := ⟨applyObsoletes_eq_none_iff.1 hobsoletes,
            resolveConflicts_eq_none_iff.1 hconflicts, hneed⟩
          have hsound := (hm.settled_iff hs.views).1 hsettled
          exact ⟨m, settle_of_settled hsettled steps, ⟨st, hm, hst, hsound⟩, le_rfl⟩
        · obtain ⟨next, hrepair, hnext⟩ :=
            repair_guided ih hg hs hm hst (Nat.le_of_lt_succ hsteps) hneed
          have hrequires : (s.repairRequires (s.settle steps) m).result = .ok (some next) := by
            unfold repairRequires
            rw [hneed]
            exact Search.result_bind_eq_ok.2 ⟨next, hrepair, rfl⟩
          have hrest : ∃ m', (s.settle steps next).result = .ok m' ∧ s.Rests ix among m' ∧
              s.openSlots m' ≤ s.openSlots m := by
            rcases hnext with ⟨hrests, hless⟩ | ⟨p, hdrops, rfl⟩
            · obtain ⟨steps, rfl⟩ : ∃ n, steps = n + 1 := ⟨steps - 1, by omega⟩
              exact ⟨next, settle_of_settled (hrests.settled hs.views) steps, hrests, hless.le⟩
            · exact hclear hdrops Fate.noConfusion
          obtain ⟨m', hrest, hdone⟩ := hrest
          exact ⟨m', settle_succ_eq_ok_iff.2 (.require hobsoletes hconflicts hrequires hrest), hdone⟩
      · obtain ⟨gone, hdrops, rfl⟩ := drops_of_erasableSide hs hm hc hside
        obtain ⟨m', hrest, hdone⟩ := hclear hdrops (d := ⟨.dependency, s.job, .plain⟩)
          Fate.noConfusion
        exact ⟨m', settle_succ_eq_ok_iff.2 (.conflict hobsoletes hresult hrest), hdone⟩
      · obtain ⟨hmay, hside⟩ := (hg.tractable st hst).conflicts _ _ (hm.clashes hs.views hc)
        exact absurd hnone (erasableSide_ne_none hs hm hc hmay hside)
    · have hdrops : st.Drops ix policy q := .superseded (hm.supersedes hs.views hp hvictim)
      obtain ⟨hopen, -⟩ := clear_guided hg hs hm hst hdrops (d := ⟨.dependency, s.job, .plain⟩)
        Fate.noConfusion
      obtain ⟨m', hrest, hdone⟩ := hclear hdrops (d := ⟨.dependency, s.job, .obsoletedBy p⟩)
        Fate.noConfusion
      exact ⟨m', settle_succ_eq_ok_iff.2 (.obsolete (hresult hopen) hrest), hdone⟩

theorem settle_attitude {steps : Nat} (hm : m.Keyed) (h : (s.settle steps m).result = .ok m') :
    m'.erasesDependents = m.erasesDependents := by
  have hreaches : Reaches (fun _ => True) m m' := (settle_reaches (fun _ _ => trivial) steps hm h).1
  exact hreaches.attitude

/-! ## Following recommendations -/

/-- By induction on the steps: each decides one more slot. -/
theorem followRecommends_rests (hg : Stage.Guides ix policy among) (hs : s.Serves ix policy)
    (hm : s.Rests ix among m) (hkeeps : m.erasesDependents = false) {steps : Nat}
    (hsteps : s.openSlots m < steps) :
    ∃ m', (s.followRecommends (s.settle s.steps) steps m).result = .ok m' ∧ s.Rests ix among m' ∧
      m'.erasesDependents = false := by
  induction steps generalizing m with
  | zero => exact absurd hsteps (Nat.not_lt_zero _)
  | succ steps ih =>
    obtain ⟨st, hmirrors, hst, hsound⟩ := id hm
    unfold followRecommends
    rcases followOne_guided (settle_rests hg hs s.steps) hg hs hmirrors hst
        (openSlots_lt_steps m).le hsound (hmirrors.erases.symm.trans hkeeps) fun _ h => h with
      hnone | ⟨next, hnext, hrests, hless⟩
    · exact ⟨m, Search.result_bind_eq_ok.2 ⟨none, hnone, rfl⟩, hm, hkeeps⟩
    · have hreaches : Reaches (fun _ => True) m next := (followOne_reaches
        (settle_reaches (fun _ _ => trivial) s.steps) (fun _ _ => trivial) hmirrors.keyed hnext).1
      obtain ⟨m', hrest, hdone⟩ := ih hrests (hreaches.attitude.trans hkeeps) (by omega)
      exact ⟨m', Search.result_bind_eq_ok.2 ⟨some next, hnext, hrest⟩, hdone⟩

/-! ## Jobs -/

/-- Between two jobs: the model is that of a stage among these, and nothing is being removed. -/
def Pauses (s : Scope) (ix : Index) (among : Stage → Prop) (m : Model) : Prop :=
  ∃ st, s.Mirrors ix { st with erases := false } m ∧ among st ∧
    ix.Sound st.brought (st.world ix)

theorem Rests.pauses (h : s.Rests ix among m) :
    s.Pauses ix among { m with erasesDependents := false } := by
  obtain ⟨st, hm, hst, hsound⟩ := h
  exact ⟨st, hm.attitude false, hst, hsound⟩

theorem Pauses.withJob (h : s.Pauses ix among m) (job : Nat) :
    Pauses { s with job := job } ix among m := by
  obtain ⟨st, hm, hrest⟩ := h
  exact ⟨st, hm.withJob job, hrest⟩

section Jobs

variable (hg : Stage.Guides ix policy among) (hs : s.Serves ix policy)

include hg hs

/-- The first candidate is taken once it has been placed. -/
theorem install_pauses {c : Package} (rest : List Package) {placed : Model}
    (hplace : s.place m c .user = .ok placed) (hplaced : s.Mirrors ix st placed) (hst : among st)
    (hkeeps : st.erases = false) :
    ∃ m', (s.perform m (.install (c :: rest))).result = .ok m' ∧ s.Pauses ix among m' := by
  obtain ⟨settled, hsettle, hrests, -⟩ :=
    settle_rests hg hs s.steps hplaced hst (openSlots_lt_steps placed)
  have hattitude := (settle_attitude hplaced.keyed hsettle).trans (hplaced.erases.trans hkeeps)
  obtain ⟨m', hfollow, hdone, hkept⟩ :=
    followRecommends_rests hg hs hrests hattitude (openSlots_lt_steps settled)
  have htake : (s.take m c).result = .ok m' := by
    refine Search.result_bind_eq_ok.2 ⟨settled, ?_, hfollow⟩
    unfold attempt
    rw [hplace]
    exact hsettle
  refine ⟨m', install_of_selects ⟨[], rest, rfl, nofun, htake⟩, ?_⟩
  have hpauses := hdone.pauses
  rw [← hkept] at hpauses
  exact hpauses

/-- A package that is put in place once more stays where it is. -/
theorem reinstall_pauses {p : Package} (hm : s.Mirrors ix st m) (hopen : st.IsOpen p.slot)
    (hst : among (st.put p)) (hkeeps : st.erases = false) :
    ∃ m', (s.perform m (.reinstall p)).result = .ok m' ∧ s.Pauses ix among m' := by
  have hundecided := (hm.undecided _).2 hopen
  have hmarked : (m.fill p ⟨.user, s.job, .reinstalled⟩).isReinstalled p.slot := by
    unfold Model.fill
    rw [isReinstalled_decide (by exact hundecided)]
    rfl
  have hfilled := hm.fill hopen (isChanged_of_isReinstalled (s := s) hmarked)
  obtain ⟨m', hsettle, hrests, -⟩ :=
    settle_rests hg hs s.steps hfilled hst (openSlots_lt_steps _)
  have hkept := (settle_attitude hfilled.keyed hsettle).trans (hfilled.erases.trans hkeeps)
  refine ⟨m', ?_, ?_⟩
  · show (s.reinstall m p).result = _
    unfold Scope.reinstall
    rw [if_neg (Bool.eq_false_iff.1 hundecided)]
    exact hsettle
  · have hpauses := hrests.pauses
    rw [← hkept] at hpauses
    exact hpauses

/-- A removal goes on from where its target is gone. -/
theorem remove_pauses {p : Package} {erased : Model}
    (herased : s.eraseTargets { m with erasesDependents := true } [p] = erased)
    (hm : s.Mirrors ix st erased) (hst : among st) :
    ∃ m', (s.perform m (.remove [p])).result = .ok m' ∧ s.Pauses ix among m' := by
  obtain ⟨settled, hsettle, hrests, -⟩ :=
    settle_rests hg hs s.steps hm hst (openSlots_lt_steps erased)
  refine ⟨_, Search.result_bind_eq_ok.2 ⟨settled, ?_, rfl⟩, hrests.pauses⟩
  rw [herased]
  exact hsettle

end Jobs

end Scope

end Provision.Solver
