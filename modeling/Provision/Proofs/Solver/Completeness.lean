import Provision.Proofs.Solver.Mending
import Provision.Proofs.Solver.Termination

/-!
# The search misses nothing

A model can be settled if some run from it ends with a settled model (`CanSettle`), whichever remedy
is taken at each step. Settling ends with a model whenever there is such a run: of the remedies that
it tries one after the other, each to its end, the first that can be settled is kept, and what it
leads to has no flaw left (`settle_of_run`). So an installation takes the first of its candidates
for which there is a run, and refuses only if there is none for any of them (`search_complete`).
-/

namespace Provision.Solver

open Model (Reaches)

namespace Search

variable {α β : Type}

/-- If no trial succeeds, each of them was refused. -/
theorem result_firstSuccess_eq_problems {trial : Package → Search α} {packages : List Package}
    {first : Option (List Problem)} {found : List Problem}
    (h : (firstSuccess trial first packages).result = .error (.problems found)) :
    ∀ p ∈ packages, ∃ found, (trial p).result = .error (.problems found) := by
  induction packages generalizing first with
  | nil => exact nofun
  | cons q rest ih =>
    unfold firstSuccess at h
    rw [result_orElse, result_bind] at h
    rcases hq : (trial q).result with (refused | _) | a
    · rw [hq] at h
      intro p hp
      rcases List.mem_cons.1 hp with rfl | hp
      · exact ⟨refused, hq⟩
      · exact ih h p hp
    · rw [hq] at h
      cases h
    · rw [hq] at h
      cases h

/-- The search does not refuse. -/
def Grants (x : Search α) : Prop := ∀ found, x.result ≠ .error (.problems found)

theorem grants_pure (a : α) : (pure a : Search α).Grants := nofun

theorem Grants.bind {x : Search α} {f : α → Search β} (hx : x.Grants) (hf : ∀ a, (f a).Grants) :
    (x >>= f).Grants := by
  intro found h
  rw [result_bind] at h
  split at h
  · exact hf _ found h
  · rename_i hresult
    cases h
    exact hx found hresult

theorem grants_debug_bind {text : String} {f : Unit → Search β} (hf : (f ()).Grants) :
    (debug text >>= f).Grants := by
  intro found h
  rw [result_debug_bind] at h
  exact hf found h

theorem grants_orElse {x : Search α} {next : List Problem → Search α}
    (hnext : ∀ found, (next found).Grants) : (orElse x next).Grants := by
  intro found h
  rw [result_orElse] at h
  split at h
  · exact hnext _ found h
  · rename_i hrefused
    exact hrefused found h

theorem Grants.exists_ok {x : Search α} (hx : x.Grants) (hfinishes : x.Finishes) :
    ∃ a, x.result = .ok a := by
  rcases hresult : x.result with (found | _) | a
  · exact absurd hresult (hx found)
  · exact absurd hresult hfinishes
  · exact ⟨a, rfl⟩

end Search

namespace Scope

variable {s : Scope} {requests : List Request} {m m' : Model}

/-- Some run leads to a settled model. -/
def CanSettle (s : Scope) (m : Model) : Prop := ∃ last, s.Run m last ∧ s.Settled last

/-- The package can be placed, and the model can be settled then. -/
def CanTake (s : Scope) (m : Model) (p : Package) : Prop :=
  ∃ placed, s.place m p .user = .ok placed ∧ s.CanSettle placed

/-! ## Mending decides a slot -/

theorem Mends.decides (hix : s.index.ProvidesAgree) (hm : s.Disciplined requests m)
    (h : s.Mends m m') : s.Decides m m' := by
  cases h with
  | obsolete h => exact applyObsoletes_decides hm h
  | conflict _ h => exact resolveConflicts_decides hm h
  | require _ _ hneed h => exact h.decides hix hm hneed

/-! ## Settling finds a run -/

section Repairing

variable {settle : Model → Search Model} {bound : Nat}
  (hsettle : s.Settles (s.Supply requests) settle)
  (hfinishes : s.FinishesBelow requests bound settle) (hm : s.Disciplined requests m)
  (hbound : s.openSlots m ≤ bound)

include hsettle hfinishes hm hbound

/-- Of packages whose slots are open the first that can be settled is found, if there is one. -/
theorem firstAttempt_cases {packages : List Package}
    (hpackages : ∀ p ∈ packages, p ∈ s.choices ∧ m.isDecided p.slot = false) :
    (∃ p settled, (Search.firstSuccess (s.attempt settle m .dependency) none packages).result =
        .ok (p, settled) ∧ s.Settled settled) ∨
      ∃ found, (Search.firstSuccess (s.attempt settle m .dependency) none packages).result =
          .error (.problems found) ∧
        ∀ p ∈ packages, ∀ placed, s.place m p .dependency = .ok placed →
          ∀ last, (settle placed).result ≠ .ok last := by
  rcases hfirst : (Search.firstSuccess (s.attempt settle m .dependency) none packages).result with
    (found | _) | ⟨p, settled⟩
  · refine .inr ⟨found, rfl, fun p hp placed hplace last hlast => ?_⟩
    obtain ⟨refused, hrefused⟩ := Search.result_firstSuccess_eq_problems hfirst p hp
    unfold attempt at hrefused
    rw [hplace, hlast] at hrefused
    cases hrefused
  · refine absurd hfirst (Search.finishes_firstSuccess (fun p hp => ?_) none)
    exact attempt_finishes_of_open hfinishes hm (hpackages p hp).1 (hpackages p hp).2 hbound
  · refine .inl ⟨p, settled, rfl, ?_⟩
    obtain ⟨hp, placed, hplace, hplaced⟩ := firstAttempt_eq_ok hfirst
    have hreaches : Reaches (s.Supply requests) m placed :=
      place_reaches hm.keyed (.inl (hpackages p hp).1) hplace
    exact (hsettle (hm.keyed.reaches hreaches) hplaced).2

/-- Without a provider, an upgrade that can be settled or a permitted erasure is found. -/
theorem repairWithoutProvider_cases {need : Need} (huntouched : s.isUntouched m need.package.slot)
    (refusal : List Problem) :
    (∃ repaired, (s.repairWithoutProvider settle m need true refusal).result = .ok repaired ∧
        s.Settled repaired) ∨
      (∀ p ∈ s.upgradesOf need.package, ∀ placed, s.place m p .dependency = .ok placed →
        ∀ last, (settle placed).result ≠ .ok last) ∧
      (s.policy.allowErasing → (s.repairWithoutProvider settle m need true refusal).result =
        .ok (s.erase m need.package.slot .dependency)) := by
  have hpackages (p : Package) (hp : p ∈ s.upgradesOf need.package) :
      p ∈ s.choices ∧ m.isDecided p.slot = false := by
    obtain ⟨hchoice, hslot⟩ := mem_upgradesOf hp
    exact ⟨hchoice, hslot ▸ open_of_isUntouched huntouched⟩
  unfold repairWithoutProvider
  rw [if_pos rfl, Search.result_orElse, Search.result_bind]
  rcases firstAttempt_cases hsettle hfinishes hm hbound hpackages with
    ⟨p, settled, hfirst, hsettled⟩ | ⟨found, hfirst, hnone⟩
  · rw [hfirst]
    exact .inl ⟨settled, rfl, hsettled⟩
  · rw [hfirst]
    refine .inr ⟨hnone, fun hallowed => ?_⟩
    dsimp only
    rw [if_pos hallowed]
    exact result_eraseNeedy need

/-- If one of the remedies can be settled, it is found, or one that is tried before it. -/
theorem repair_of_remedy (hix : s.index.ProvidesAgree) {need : Need}
    (hneed : s.firstBroken? m = some need) {next : Model} (h : s.Remedy m need next)
    (hnext : ∃ last, (settle next).result = .ok last) :
    ∃ repaired, (s.repair settle m need).result = .ok repaired ∧
      (repaired = next ∨ s.Settled repaired) := by
  obtain ⟨last, hlast⟩ := hnext
  have hunmet := (firstBroken?_cases hneed).2
  have hproviders (p : Package) (hp : p ∈ s.providers m need.requirement) :
      p ∈ s.choices ∧ m.isDecided p.slot = false :=
    ⟨mem_providers hp, isDecided_provider hix hm.keyed hunmet hp⟩
  rw [repair_eq]
  by_cases hgoes : s.goesAlong m need
  · rw [if_pos hgoes]
    cases h with
    | goAlong => exact ⟨_, result_eraseNeedy need, .inl rfl⟩
    | provide hstays => exact absurd hgoes (Bool.eq_false_iff.1 hstays)
    | upgrade hstays => exact absurd hgoes (Bool.eq_false_iff.1 hstays)
    | erase hstays => exact absurd hgoes (Bool.eq_false_iff.1 hstays)
  · rw [if_neg hgoes, Search.result_orElse, Search.result_bind]
    rcases firstAttempt_cases hsettle hfinishes hm hbound hproviders with
      ⟨p, settled, hfirst, hsettled⟩ | ⟨found, hfirst, hnone⟩
    · rw [hfirst]
      exact ⟨settled, by dsimp only; rw [Search.result_debug_bind]; rfl, .inr hsettled⟩
    · rw [hfirst]
      dsimp only
      -- No provider can be settled, so the remedy is an upgrade or an erasure.
      cases h with
      | goAlong hgoes' => exact absurd hgoes' hgoes
      | provide _ hp hplace => exact absurd hlast (hnone _ hp _ hplace last)
      | upgrade _ huntouched hp hslot hnewer hplace =>
        rw [huntouched]
        rcases repairWithoutProvider_cases hsettle hfinishes hm hbound huntouched _ with
          ⟨repaired, hrepaired, hsettled⟩ | ⟨hno, -⟩
        · exact ⟨repaired, hrepaired, .inr hsettled⟩
        · exact absurd hlast
            (hno _ (mem_upgradesOf_iff.2 ⟨hp, hslot, hnewer⟩) _ hplace last)
      | erase _ huntouched hallowed =>
        rw [huntouched]
        rcases repairWithoutProvider_cases hsettle hfinishes hm hbound huntouched _ with
          ⟨repaired, hrepaired, hsettled⟩ | ⟨-, herase⟩
        · exact ⟨repaired, hrepaired, .inr hsettled⟩
        · exact ⟨_, herase hallowed, .inl rfl⟩

end Repairing

/-- By induction on the run: each step of it is one that settling takes, or does better than. -/
theorem settle_of_run (hix : s.index.ProvidesAgree) {last : Model} (hrun : s.Run m last)
    (hlast : s.Settled last) (hm : s.Disciplined requests m) {steps : Nat}
    (hsteps : s.openSlots m < steps) : ∃ m', (s.settle steps m).result = .ok m' := by
  induction hrun using Relation.ReflTransGen.head_induction_on generalizing steps with
  | refl =>
    obtain ⟨steps, rfl⟩ := Nat.exists_eq_add_one_of_ne_zero (Nat.ne_zero_of_lt hsteps)
    exact ⟨last, settle_of_settled hlast steps⟩
  | @head m next hmends _ ih =>
    obtain ⟨steps, rfl⟩ := Nat.exists_eq_add_one_of_ne_zero (Nat.ne_zero_of_lt hsteps)
    have hreaches : Reaches (s.Supply requests) m next :=
      hmends.reaches (fun _ hp => .inl hp) hm.keyed
    have hless := openSlots_lt_of_decides hreaches (hmends.decides hix hm)
    have hbound : s.openSlots next < steps := by omega
    obtain ⟨m', hnext⟩ := ih (hm.reaches hreaches) hbound
    cases hmends with
    | obsolete h => exact ⟨m', settle_succ_eq_ok_iff.2 (.obsolete h hnext)⟩
    | conflict hobsoletes h =>
      exact ⟨m', settle_succ_eq_ok_iff.2 (.conflict hobsoletes h hnext)⟩
    | @require need _ hobsoletes hconflicts hneed h =>
      obtain ⟨repaired, hrepaired, hdone⟩ := repair_of_remedy
        (settle_reaches (fun _ hp => .inl hp) steps) (settle_finishes hix steps) hm (by omega) hix
        hneed h ⟨m', hnext⟩
      have hrequires : (s.repairRequires (s.settle steps) m).result = .ok (some repaired) := by
        unfold repairRequires
        rw [hneed]
        exact Search.result_bind_eq_ok.2 ⟨repaired, hrepaired, rfl⟩
      have hgoesOn : ∃ m', (s.settle steps repaired).result = .ok m' := by
        rcases hdone with rfl | hsettled
        · exact ⟨m', hnext⟩
        · obtain ⟨steps, rfl⟩ := Nat.exists_eq_add_one_of_ne_zero (Nat.ne_zero_of_lt hbound)
          exact ⟨repaired, settle_of_settled hsettled steps⟩
      obtain ⟨m'', h⟩ := hgoesOn
      exact ⟨m'', settle_succ_eq_ok_iff.2 (.require hobsoletes hconflicts hrequires h)⟩

/-- Settling ends with a model exactly when some run does. -/
theorem exists_settle_iff (hix : s.index.ProvidesAgree) (hm : s.Disciplined requests m) :
    (∃ m', (s.settle s.steps m).result = .ok m') ↔ s.CanSettle m := by
  constructor
  · rintro ⟨m', h⟩
    exact ⟨m', settle_run h, (settle_reaches (fun p hp => hp) s.steps hm.keyed h).2⟩
  · rintro ⟨last, hrun, hlast⟩
    exact settle_of_run hix hrun hlast hm (openSlots_lt_steps m)

/-! ## Recommendations are never refused -/

theorem followOne_grants (settle : Model → Search Model) (m : Model) (needs : List Need) :
    (s.followOne settle m needs).Grants := by
  induction needs with
  | nil => exact Search.grants_pure _
  | cons need rest ih =>
    unfold followOne
    exact Search.grants_orElse fun found => Search.grants_debug_bind ih

theorem followRecommends_grants (settle : Model → Search Model) (steps : Nat) (m : Model) :
    (s.followRecommends settle steps m).Grants := by
  induction steps generalizing m with
  | zero => exact nofun
  | succ steps ih =>
    unfold followRecommends
    refine (followOne_grants settle m _).bind fun o => ?_
    rcases o with _ | next
    · exact Search.grants_pure _
    · exact ih next

/-! ## Candidates -/

/-- A candidate is taken if it can be, and refused otherwise. -/
theorem take_cases (hix : s.index.ProvidesAgree) (hm : s.Disciplined requests m) {c : Package}
    (hc : s.Supply requests c) :
    (s.CanTake m c ∧ ∃ m', (s.take m c).result = .ok m') ∨
      (¬ s.CanTake m c ∧ ∃ found, (s.take m c).result = .error (.problems found)) := by
  have hattempt : (s.attempt (s.settle s.steps) m .user c).Finishes :=
    attempt_finishes (settle_finishes hix s.steps) hm hc fun placed _ => openSlots_lt_steps placed
  unfold take
  rw [Search.result_bind]
  rcases hresult : (s.attempt (s.settle s.steps) m .user c).result with (found | _) | settled
  · refine .inr ⟨?_, found, rfl⟩
    rintro ⟨placed, hplace, hcan⟩
    obtain ⟨m', hsettle⟩ :=
      (exists_settle_iff hix (hm.reaches (place_reaches hm.keyed hc hplace))).2 hcan
    unfold attempt at hresult
    rw [hplace, hsettle] at hresult
    cases hresult
  · exact absurd hresult hattempt
  · obtain ⟨placed, hplace, hsettle⟩ := attempt_eq_ok hresult
    have hplaced := hm.reaches (place_reaches hm.keyed hc hplace)
    refine .inl ⟨⟨placed, hplace, (exists_settle_iff hix hplaced).1 ⟨settled, hsettle⟩⟩, ?_⟩
    refine (followRecommends_grants _ _ settled).exists_ok ?_
    obtain ⟨hreaches, -⟩ :=
      settle_reaches (fun p hp => Or.inl hp) s.steps hplaced.keyed hsettle
    exact followRecommends_finishes hix (hplaced.reaches hreaches) le_rfl
      (openSlots_lt_steps settled)

theorem canTake_iff (hix : s.index.ProvidesAgree) (hm : s.Disciplined requests m) {c : Package}
    (hc : s.Supply requests c) : s.CanTake m c ↔ ∃ m', (s.take m c).result = .ok m' := by
  rcases take_cases hix hm hc with ⟨hcan, htake⟩ | ⟨hcannot, found, hrefused⟩
  · exact iff_of_true hcan htake
  · refine iff_of_false hcannot ?_
    rintro ⟨m', htake⟩
    rw [hrefused] at htake
    cases htake

theorem not_canTake_iff (hix : s.index.ProvidesAgree) (hm : s.Disciplined requests m) {c : Package}
    (hc : s.Supply requests c) :
    ¬ s.CanTake m c ↔ ∃ found, (s.take m c).result = .error (.problems found) := by
  rcases take_cases hix hm hc with ⟨hcan, taken, htake⟩ | ⟨hcannot, hrefused⟩
  · refine iff_of_false (fun hcannot => hcannot hcan) ?_
    rintro ⟨found, hrefused⟩
    rw [htake] at hrefused
    cases hrefused
  · exact iff_of_true hcannot hrefused

/-- The candidates before the one that is taken cannot be taken. -/
theorem install_eq_ok_iff (hix : s.index.ProvidesAgree) (hm : s.Disciplined requests m)
    {candidates : List Package} (hcandidates : ∀ c ∈ candidates, s.Supply requests c)
    (rejected : List Problem) :
    (s.install m rejected candidates).result = .ok m' ↔
      ∃ before c after, candidates = before ++ c :: after ∧ (∀ b ∈ before, ¬ s.CanTake m b) ∧
        s.CanTake m c ∧ (s.take m c).result = .ok m' := by
  constructor
  · intro h
    obtain ⟨c, before, after, rfl, hrefused, htake⟩ := exists_selects h
    have hc := hcandidates c (List.mem_append_right before List.mem_cons_self)
    refine ⟨before, c, after, rfl, fun b hb => ?_, (canTake_iff hix hm hc).2 ⟨m', htake⟩, htake⟩
    exact (not_canTake_iff hix hm (hcandidates b (List.mem_append_left _ hb))).2 (hrefused b hb)
  · rintro ⟨before, c, after, rfl, hbefore, -, htake⟩
    refine install_of_selects ⟨before, after, rfl, fun b hb => ?_, htake⟩
    exact (not_canTake_iff hix hm (hcandidates b (List.mem_append_left _ hb))).1 (hbefore b hb)

theorem install_refused_iff (hix : s.index.ProvidesAgree) (hm : s.Disciplined requests m)
    {candidates : List Package} (hcandidates : ∀ c ∈ candidates, s.Supply requests c)
    (rejected : List Problem) :
    (∃ found, (s.install m rejected candidates).result = .error (.problems found)) ↔
      ∀ c ∈ candidates, ¬ s.CanTake m c := by
  induction candidates generalizing rejected with
  | nil => exact ⟨fun _ => nofun, fun _ => ⟨rejected, rfl⟩⟩
  | cons c rest ih =>
    have hrest := ih fun d hd => hcandidates d (List.mem_cons_of_mem c hd)
    rw [install_cons, List.forall_mem_cons, Search.result_orElse]
    rcases take_cases hix hm (hcandidates c List.mem_cons_self) with
      ⟨hcan, taken, htake⟩ | ⟨hcannot, found, htake⟩
    · rw [htake]
      constructor
      · rintro ⟨found, h⟩
        cases h
      · rintro ⟨hcannot, -⟩
        exact absurd hcan hcannot
    · rw [htake]
      dsimp only
      rw [Search.result_debug_bind, hrest, and_iff_right hcannot]

/--
Settling ends with a model exactly when some run does, and then with the last model of a run. So an
installation takes the first of its candidates that can be placed and settled, and it refuses
exactly when there is none. The model may be any that solving comes to, since its steps keep models
disciplined (`Disciplined.step`); a run ends where no pass has anything to do (`settled_iff`).
-/
theorem search_complete (hix : s.index.ProvidesAgree) (hm : s.Disciplined requests m) :
    ((∃ m', (s.settle s.steps m).result = .ok m') ↔ s.CanSettle m) ∧
      (∀ m', (s.settle s.steps m).result = .ok m' → s.Run m m' ∧ s.Settled m') ∧
      ∀ request ∈ requests, ∀ candidates, request.task = .install candidates →
        (∀ m', (s.perform m request.task).result = .ok m' ↔
          ∃ before c after, candidates = before ++ c :: after ∧ (∀ b ∈ before, ¬ s.CanTake m b) ∧
            s.CanTake m c ∧ (s.take m c).result = .ok m') ∧
        ((∃ found, (s.perform m request.task).result = .error (.problems found)) ↔
          ∀ c ∈ candidates, ¬ s.CanTake m c) := by
  refine ⟨exists_settle_iff hix hm, fun m' h => ?_, fun request hrequest candidates htask => ?_⟩
  · exact ⟨settle_run h, (settle_reaches (fun p hp => hp) s.steps hm.keyed h).2⟩
  · have hcandidates (c : Package) (hc : c ∈ candidates) : s.Supply requests c :=
      .inr ⟨request, hrequest, candidates, htask, hc⟩
    rw [htask]
    exact ⟨fun m' => install_eq_ok_iff hix hm hcandidates [],
      install_refused_iff hix hm hcandidates []⟩

end Scope

/-! ### A provider that leads nowhere -/

def fork (name : String) : Package := ⟨⟨name, "x", ⟨0, "1", none⟩⟩, "r", none⟩

/-- What `a` requires is offered by `b`, which is tried first and lacks something, and by `c`. -/
def forkIndex : Index :=
  ((({} : Index).addOffered
    (fork "a") { requires := [⟨"t", .any⟩] }).addOffered
    (fork "b") { requires := [⟨"u", .any⟩], provides := [⟨"t", none⟩] }).addOffered
    (fork "c") { provides := [⟨"t", none⟩] }

def forkRequests : List Request :=
  [⟨0, .install [fork "a"], false⟩, ⟨1, .install [fork "b"], false⟩]

theorem providesAgree_fork : forkIndex.ProvidesAgree := by
  refine Index.providesAgree_of_copies ?_ (by decide +kernel)
  unfold Index.OffersKeyed
  decide +kernel

theorem disciplined_fork :
    (Scope.ofIndex forkIndex {}).Disciplined forkRequests (Scope.ofIndex forkIndex {}).start :=
  (Scope.start_orderly Scope.slot_installed_ofIndex forkRequests).disciplined

/-- No run leads from `b` to a settled model, but one does from `a`. -/
theorem search_complete_fork :
    forkIndex.ProvidesAgree ∧
      (Scope.ofIndex forkIndex {}).CanTake (Scope.ofIndex forkIndex {}).start (fork "a") ∧
      ¬ (Scope.ofIndex forkIndex {}).CanTake (Scope.ofIndex forkIndex {}).start (fork "b") := by
  obtain ⟨-, -, hinstall⟩ := Scope.search_complete
    (s := Scope.ofIndex forkIndex {}) providesAgree_fork disciplined_fork
  have htaken : ((Scope.ofIndex forkIndex {}).perform (Scope.ofIndex forkIndex {}).start
      (.install [fork "a"])).result.isOk := by cbv
  have hrefused : ((Scope.ofIndex forkIndex {}).perform (Scope.ofIndex forkIndex {}).start
      (.install [fork "b"])).result = .error (.problems [⟨.brokenDependency, [fork "b"],
        "nothing provides u needed by b-1.x"⟩]) := by cbv
  have ha := (hinstall ⟨0, .install [fork "a"], false⟩ List.mem_cons_self _ rfl).2
  have hb := (hinstall ⟨1, .install [fork "b"], false⟩
    (List.mem_cons_of_mem _ List.mem_cons_self) _ rfl).2
  refine ⟨providesAgree_fork, ?_, hb.1 ⟨_, hrefused⟩ _ (List.mem_singleton_self _)⟩
  by_contra hcannot
  obtain ⟨found, hfound⟩ := ha.2 (List.forall_mem_singleton.2 hcannot)
  dsimp only at hfound
  rw [hfound] at htaken
  cases htaken

end Provision.Solver
