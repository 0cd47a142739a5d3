import Provision.Proofs.Goal.Sweeping
import Provision.Proofs.Preference
import Provision.Proofs.Solver.Stage

/-!
# Models of a stage

A model mirrors a stage if it holds the world of the stage, and has changed and decided just what was
taken off or brought in (`Scope.Mirrors`). Steps of the search keep this up (`Mirrors.clear`,
`Mirrors.place`), and what a pass finds in such a model is a flaw of the world, or a remedy for one
(`Mirrors.supersedes`, `Mirrors.clashes`, `Mirrors.needsFirst`, `Mirrors.providers_cases`).
-/

namespace Provision

/-- A sorted list is empty, or starts with an element that comes first. -/
theorem mergeSort_cases {α : Type} (cmp : α → α → Ordering) [Std.TransCmp cmp] (l : List α) :
    ((l.mergeSort fun a b => (cmp a b).isLE) = [] ∧ ∀ a, a ∉ l) ∨
      ∃ a rest, (l.mergeSort fun a b => (cmp a b).isLE) = a :: rest ∧ a ∈ l ∧
        ∀ b ∈ l, (cmp a b).isLE := by
  have hmem (a : α) : (a ∈ l.mergeSort fun a b => (cmp a b).isLE) ↔ a ∈ l := List.mem_mergeSort
  have hsorted := pairwise_isLE_mergeSort cmp l
  rcases hl : l.mergeSort fun a b => (cmp a b).isLE with _ | ⟨a, rest⟩ <;> rw [hl] at hmem hsorted
  · exact .inl ⟨rfl, fun a ha => absurd ((hmem a).2 ha) List.not_mem_nil⟩
  · refine .inr ⟨a, rest, rfl, (hmem a).1 List.mem_cons_self, fun b hb => ?_⟩
    rcases List.mem_cons.1 ((hmem b).2 hb) with rfl | hb
    · exact Std.ReflCmp.isLE_rfl
    · exact (List.pairwise_cons.1 hsorted).1 b hb

theorem mem_exchange_with_iff {ix : Index} {taken brought : List Package} {p : Package}
    (hfree : ∀ q ∈ brought, q.slot ≠ p.slot) {q : Package} :
    q ∈ ix.exchange taken (brought ++ [p]) ↔
      (q.slot ≠ p.slot ∧ q ∈ ix.exchange taken brought) ∨ q = p := by
  rw [Index.mem_exchange_iff, Index.mem_exchange_iff, List.mem_append, List.mem_singleton]
  constructor
  · rintro (⟨hq, hkept, hslots⟩ | hq | rfl)
    · refine .inl ⟨?_, .inl ⟨hq, hkept, fun x hx => hslots x (List.mem_append_left _ hx)⟩⟩
      exact (hslots p (List.mem_append_right _ (List.mem_singleton_self p))).symm
    · exact .inl ⟨hfree q hq, .inr hq⟩
    · exact .inr rfl
  · rintro (⟨hne, ⟨hq, hkept, hslots⟩ | hq⟩ | rfl)
    · refine .inl ⟨hq, hkept, fun x hx => ?_⟩
      rcases List.mem_append.1 hx with hx | hx
      · exact hslots x hx
      · rw [List.mem_singleton.1 hx]
        exact hne.symm
    · exact .inr (.inl hq)
    · exact .inr (.inr rfl)

namespace Solver

namespace Scope

open Model (SameAt)

/-- The scope is that of a job of a search on the index. -/
def Serves (s : Scope) (ix : Index) (policy : Policy) : Prop :=
  ∃ job, s = { ofIndex ix policy with job := job }

theorem serves_ofIndex (ix : Index) (policy : Policy) (job : Nat) :
    Serves { ofIndex ix policy with job := job } ix policy := ⟨job, rfl⟩

variable {s : Scope} {ix : Index} {policy : Policy} {st : Stage} {m : Model}

section Serves

variable (hs : s.Serves ix policy)

include hs

theorem Serves.views : s.Views ix := by
  obtain ⟨job, rfl⟩ := hs
  exact (views_ofIndex ix policy).withJob job

theorem Serves.choices_eq : s.choices = ix.query {} := by
  obtain ⟨job, rfl⟩ := hs
  rfl

theorem Serves.policy_eq : s.policy = policy := by
  obtain ⟨job, rfl⟩ := hs
  rfl

theorem Serves.providerOrder_eq : s.providerOrder = (ofIndex ix policy).providerOrder := by
  obtain ⟨job, rfl⟩ := hs
  rfl

theorem Serves.upgradesOf_cases (p : Package) :
    (s.upgradesOf p = [] ∧ ∀ q, ¬ Stage.Upgrades ix p q) ∨
      ∃ q rest, s.upgradesOf p = q :: rest ∧ Stage.UpgradesFirst ix p q := by
  have hmem (q : Package) : Stage.Upgrades ix p q ↔ q ∈ s.choices.filter fun q =>
      q.slot = p.slot && p.evr.Older q.evr := by
    rw [List.mem_filter, Bool.and_eq_true, decide_eq_true_eq, decide_eq_true_eq, hs.choices_eq]
    exact ⟨fun h => ⟨h.choice, h.slot, h.newer⟩, fun h => ⟨h.1, h.2.1, h.2.2⟩⟩
  unfold upgradesOf sortByPreference
  rcases mergeSort_cases (preference (some p.repo)) (s.choices.filter fun q =>
      q.slot = p.slot && p.evr.Older q.evr) with ⟨hsorted, hnone⟩ | ⟨q, rest, hsorted, hq, hfirst⟩
  · exact .inl ⟨hsorted, fun q hq => hnone q ((hmem q).1 hq)⟩
  · exact .inr ⟨q, rest, hsorted, (hmem q).2 hq, fun q' hq' => hfirst q' ((hmem q').1 hq')⟩

end Serves

/-- The model holds the world of the stage, and has changed and decided just what was exchanged. -/
structure Mirrors (s : Scope) (ix : Index) (st : Stage) (m : Model) : Prop where
  keyed : m.Keyed
  taken : ∀ p ∈ st.taken, p ∈ ix.installedPackages
  present : ∀ p, m.present[p.slot]? = some p ↔ p ∈ st.world ix
  changed : ∀ p ∈ st.world ix, s.isChanged m p.slot ↔ p ∈ st.brought
  undecided : ∀ slot, m.isDecided slot = false ↔ st.IsOpen slot
  erases : m.erasesDependents = st.erases

namespace Mirrors

/-- At the start of a search nothing is taken off or brought in. -/
theorem start (hs : s.Views ix) : s.Mirrors ix {} s.start := by
  have hpresent (p : Package) : s.start.present[p.slot]? = some p ↔ p ∈ ix.exchange [] [] := by
    rw [Index.mem_exchange_nil_iff, Index.mem_installedPackages_iff, ← hs.installed]
    rfl
  refine ⟨fun slot p hp => ?_, nofun, hpresent, fun p hp => ?_, fun slot => ?_, rfl⟩
  · have hp : s.installed[slot]? = some p := hp
    rw [hs.installed] at hp
    exact Index.slot_installedAt? hp
  · have hp := (hpresent p).2 hp
    rw [isChanged_of_left hp hp (isReinstalled_start p.slot)]
    simp
  · exact iff_of_true (isDecided_start slot) nofun

variable (hm : s.Mirrors ix st m)

include hm

theorem withJob (job : Nat) : Mirrors { s with job := job } ix st m :=
  ⟨hm.keyed, hm.taken, hm.present, hm.changed, hm.undecided, hm.erases⟩

theorem attitude (erases : Bool) :
    s.Mirrors ix { st with erases := erases } { m with erasesDependents := erases } :=
  ⟨hm.keyed, hm.taken, hm.present, hm.changed, hm.undecided, rfl⟩

/-- Only which packages were taken off and brought in matters. -/
theorem congr {st' : Stage} (htaken : ∀ p, p ∈ st'.taken ↔ p ∈ st.taken)
    (hbrought : st'.brought = st.brought) (herases : st'.erases = st.erases) :
    s.Mirrors ix st' m := by
  have hworld (p : Package) : p ∈ st'.world ix ↔ p ∈ st.world ix := by
    unfold Stage.world
    rw [Index.mem_exchange_iff, Index.mem_exchange_iff, htaken, hbrought]
  refine ⟨hm.keyed, fun p hp => hm.taken p ((htaken p).1 hp),
    fun p => (hm.present p).trans (hworld p).symm, fun p hp => ?_, fun slot => ?_,
    hm.erases.trans herases.symm⟩
  · rw [hbrought]
    exact hm.changed p ((hworld p).1 hp)
  · rw [hm.undecided, Stage.isOpen_iff, Stage.isOpen_iff, hbrought]
    simp only [htaken]

theorem mem_packages_iff {p : Package} : p ∈ m.packages ↔ p ∈ st.world ix := by
  rw [hm.keyed.mem_packages_iff, hm.present]

theorem mem_changed_iff {p : Package} : p ∈ s.changed m ↔ p ∈ st.brought := by
  rw [Scope.mem_changed_iff, hm.mem_packages_iff]
  constructor
  · rintro ⟨hp, hchanged⟩
    exact (hm.changed p hp).1 hchanged
  · intro hp
    have hworld : p ∈ st.world ix := Index.mem_exchange_iff.2 (.inr hp)
    exact ⟨hworld, (hm.changed p hworld).2 hp⟩

/-- What was left alone is installed, and nothing was done about its slot. -/
theorem isOpen_of_left {p : Package} (hp : p ∈ st.world ix) (hleft : p ∉ st.brought) :
    p ∈ ix.installedPackages ∧ st.IsOpen p.slot := by
  rcases Index.mem_exchange_iff.1 hp with ⟨hp, hkept, hslots⟩ | hp
  · refine ⟨hp, Stage.isOpen_iff.2 ⟨fun q hq hslot => ?_, hslots⟩⟩
    rw [Index.installed_unique (hm.taken q hq) hp hslot] at hq
    exact hkept hq
  · exact absurd hp hleft

theorem isDecided_eq_false_iff_of_mem {p : Package} (hp : p ∈ st.world ix) :
    m.isDecided p.slot = false ↔ p ∉ st.brought := by
  rw [hm.undecided]
  exact ⟨fun hopen hin => (Stage.isOpen_iff.1 hopen).2 p hin rfl, fun hleft =>
    (hm.isOpen_of_left hp hleft).2⟩

theorem isUntouched_iff {p : Package} (hp : p ∈ st.world ix) :
    s.isUntouched m p.slot ↔ p ∉ st.brought := by
  unfold isUntouched
  rw [Bool.and_eq_true, Bool.not_eq_true', Bool.not_eq_true', ← Bool.not_eq_true, hm.changed p hp,
    hm.isDecided_eq_false_iff_of_mem hp, and_self]

theorem isErasable_iff {p : Package} (hp : p ∈ st.world ix) :
    s.isErasable m p.slot ↔ p ∉ st.brought ∧ (st.erases ∨ s.policy.allowErasing) := by
  unfold isErasable
  rw [Bool.and_eq_true, Bool.not_eq_true', Bool.or_eq_true, hm.isDecided_eq_false_iff_of_mem hp,
    hm.erases, or_comm]

/-- A model is settled just if it holds a sound world. -/
theorem settled_iff (hs : s.Views ix) :
    s.Settled m ↔ ix.Sound st.brought (st.world ix) := by
  rw [settled_iff_sound hs hm.keyed]
  exact ⟨fun h => h.congr (fun _ => hm.mem_changed_iff.symm) fun _ => hm.mem_packages_iff.symm,
    fun h => h.congr (fun _ => hm.mem_changed_iff) fun _ => hm.mem_packages_iff⟩

/-! ## One package more -/

theorem clear {p : Package} (hp : p ∈ ix.installedPackages) (hopen : st.IsOpen p.slot)
    (d : Decision) : s.Mirrors ix (st.drop [p]) (m.clear p.slot d) := by
  have hfree : ∀ q ∈ st.brought, q.slot ≠ p.slot := (Stage.isOpen_iff.1 hopen).2
  have hslot {q : Package} (hq : q ∈ st.world ix) : p.slot = q.slot ↔ q = p := by
    constructor
    · intro heq
      rcases Index.mem_exchange_iff.1 hq with ⟨hq, -⟩ | hq
      · exact Index.installed_unique hq hp heq.symm
      · exact absurd heq.symm (hfree q hq)
    · rintro rfl
      rfl
  have hworld {q : Package} : q ∈ (st.drop [p]).world ix ↔ q ∈ st.world ix ∧ q ≠ p :=
    Index.mem_exchange_without_iff hfree
  refine ⟨hm.keyed.clear _ _, fun q hq => ?_, fun q => ?_, fun q hq => ?_, fun slot => ?_, ?_⟩
  · rcases List.mem_append.1 hq with hq | hq
    · exact hm.taken q hq
    · rw [List.mem_singleton.1 hq]
      exact hp
  · rw [Model.present_clear, hworld, ← hm.present]
    by_cases heq : p.slot = q.slot
    · rw [if_pos heq]
      simp only [reduceCtorEq, false_iff, not_and, not_not]
      intro hq
      exact (hslot ((hm.present q).1 hq)).1 heq
    · rw [if_neg heq]
      refine ⟨fun hq => ⟨hq, ?_⟩, And.left⟩
      rintro rfl
      exact heq rfl
  · obtain ⟨hq, hne⟩ := hworld.1 hq
    have hother : q.slot ≠ p.slot := fun heq => hne ((hslot hq).1 heq.symm)
    rw [isChanged_sameAt (Model.sameAt_clear m d hother)]
    exact hm.changed q hq
  · unfold Model.clear
    rw [Model.isDecided_decide_eq_false_iff, Model.isDecided_with_present, hm.undecided,
      Stage.isOpen_drop_iff, List.forall_mem_singleton]
  · unfold Model.clear
    rw [Model.erasesDependents_decide]
    exact hm.erases

theorem fill {p : Package} (hopen : st.IsOpen p.slot) {d : Decision}
    (hchanged : s.isChanged (m.fill p d) p.slot) :
    s.Mirrors ix (st.put p) (m.fill p d) := by
  have hfree : ∀ q ∈ st.brought, q.slot ≠ p.slot := (Stage.isOpen_iff.1 hopen).2
  have hworld {q : Package} : q ∈ (st.put p).world ix ↔
      (q.slot ≠ p.slot ∧ q ∈ st.world ix) ∨ q = p := mem_exchange_with_iff hfree
  refine ⟨hm.keyed.fill _ _, hm.taken, fun q => ?_, fun q hq => ?_, fun slot => ?_, ?_⟩
  · rw [Model.present_fill, hworld, ← hm.present]
    by_cases heq : p.slot = q.slot
    · rw [if_pos heq, Option.some.injEq]
      exact ⟨fun h => .inr h.symm, fun h => (h.resolve_left fun h => h.1 heq.symm).symm⟩
    · rw [if_neg heq]
      refine ⟨fun hq => .inl ⟨Ne.symm heq, hq⟩, ?_⟩
      rintro (⟨-, hq⟩ | rfl)
      · exact hq
      · exact absurd rfl heq
  · rcases hworld.1 hq with ⟨hne, hq⟩ | rfl
    · rw [isChanged_sameAt (Model.sameAt_fill m d hne), hm.changed q hq, Stage.put, List.mem_append,
        List.mem_singleton]
      refine ⟨.inl, fun h => h.resolve_right ?_⟩
      rintro rfl
      exact hne rfl
    · exact ⟨fun _ => List.mem_append_right _ (List.mem_singleton_self q), fun _ => hchanged⟩
  · unfold Model.fill
    rw [Model.isDecided_decide_eq_false_iff, Model.isDecided_with_present, hm.undecided,
      Stage.isOpen_put_iff]
  · unfold Model.fill
    rw [Model.erasesDependents_decide]
    exact hm.erases

omit hm in
/-- A package is put into an open slot once what it displaces is gone. -/
theorem place_of_open {p : Package} {reason : Reason} (hopen : m.isDecided p.slot = false)
    (hnew : ∀ q, m.present[p.slot]? = some q → q.build ≠ p.build)
    (hroom : ∀ q ∈ displaced m p, m.isDecided q.slot = false) :
    s.place m p reason =
      .ok (((displaced m p).foldl (s.displace p) m).fill p ⟨reason, s.job, .plain⟩) := by
  have henter : s.enter m p reason =
      .ok (((displaced m p).foldl (s.displace p) m).fill p ⟨reason, s.job, .plain⟩) := by
    have hnone : (displaced m p).find? (fun q => m.isDecided q.slot) = none :=
      List.find?_eq_none.2 fun q hq => Bool.eq_false_iff.1 (hroom q hq)
    unfold displaced at hnone
    unfold enter
    dsimp only
    rw [hnone]
    rfl
  unfold place
  split
  · rename_i current hcurrent
    rw [if_neg (hnew current hcurrent), if_neg (Bool.eq_false_iff.1 hopen)]
    exact henter
  · rw [if_neg (Bool.eq_false_iff.1 hopen)]
    exact henter

/-- By induction on the packages that go. -/
theorem displaceAll {wanted : Package} {gone : List Package}
    (hgone : ∀ q ∈ gone, q ∈ ix.installedPackages ∧ st.IsOpen q.slot)
    (hnodup : (gone.map Package.slot).Nodup) :
    s.Mirrors ix (st.drop gone) (gone.foldl (s.displace wanted) m) := by
  induction gone generalizing st m with
  | nil =>
    unfold Stage.drop
    rw [List.append_nil]
    exact hm
  | cons q rest ih =>
    rw [List.map_cons, List.nodup_cons] at hnodup
    obtain ⟨hq, hopen⟩ := hgone q List.mem_cons_self
    have hrest := ih (hm.clear hq hopen ⟨.dependency, s.job, .replacedBy wanted⟩)
      (fun r hr => ?_) hnodup.2
    · unfold Stage.drop at hrest ⊢
      rw [List.append_assoc] at hrest
      exact hrest
    · obtain ⟨hinstalled, hopen⟩ := hgone r (List.mem_cons_of_mem q hr)
      refine ⟨hinstalled, Stage.isOpen_drop_iff.2 ⟨hopen, fun t ht heq => ?_⟩⟩
      rw [List.mem_singleton.1 ht] at heq
      exact hnodup.1 (heq ▸ List.mem_map_of_mem hr)

/-- A package that can come is placed. -/
theorem place (hs : s.Views ix) {p : Package} (h : st.Admits ix p) (reason : Reason) :
    ∃ placed, s.place m p reason = .ok placed ∧ s.Mirrors ix (st.fetch ix p) placed := by
  have hgone (q : Package) (hq : q ∈ displaced m p) :
      q ∈ ix.installedPackages ∧ st.IsOpen q.slot := by
    obtain ⟨hq, hdisplaces⟩ := List.mem_filter.1 hq
    exact hm.isOpen_of_left (hm.mem_packages_iff.1 hq) fun hin =>
      h.room q hin (of_decide_eq_true hdisplaces)
  have hnew (q : Package) (hq : q ∈ ix.installedPackages) : q.build ≠ p.build :=
    fun hbuild => h.fresh (Index.isInstalled_iff.2 ⟨q, hq, hbuild⟩)
  refine ⟨_, place_of_open ((hm.undecided _).2 h.opens) (fun q hq => ?_) fun q hq =>
    (hm.undecided _).2 (hgone q hq).2, ?_⟩
  · -- What an open slot holds is installed.
    have hslot := hm.keyed _ q hq
    rw [← hslot] at hq
    rcases Index.mem_exchange_iff.1 ((hm.present q).1 hq) with ⟨hq, -⟩ | hq
    · exact hnew q hq
    · exact absurd hslot ((Stage.isOpen_iff.1 h.opens).2 q hq)
  · have hcleared : s.Mirrors ix (st.drop (displaced m p))
        ((displaced m p).foldl (s.displace p) m) :=
      hm.displaceAll hgone (nodup_displaced hm.keyed p)
    have hopen : (st.drop (displaced m p)).IsOpen p.slot :=
      Stage.isOpen_drop_iff.2 ⟨h.opens, fun q hq => ne_of_mem_displaced hq⟩
    refine (hcleared.fill hopen (isChanged_of_ne (p := p) ?_ fun q hq => ?_)).congr (fun q => ?_)
      rfl rfl
    · rw [Model.present_fill, if_pos rfl]
    · rw [hs.installed] at hq
      refine hnew q (Index.mem_installedPackages_iff.2 ?_)
      rw [Index.slot_installedAt? hq]
      exact hq
    · simp only [Stage.fetch, Stage.put, Stage.drop, List.mem_append, List.mem_filter, displaced, hm.mem_packages_iff]

/-- What has been brought in is not placed once more. -/
theorem place_again {p c : Package} (hp : p ∈ st.brought) (hbuild : p.build = c.build)
    (reason : Reason) : s.place m c reason = .ok m := by
  have hslot : p.slot = c.slot := congrArg Build.slot hbuild
  have hpresent := (hm.present p).2 (Index.mem_exchange_iff.2 (.inr hp))
  have hdecided : m.isDecided p.slot := by
    rw [← Bool.not_eq_false, hm.undecided]
    exact fun hopen => (Stage.isOpen_iff.1 hopen).2 p hp rfl
  rw [hslot] at hpresent hdecided
  unfold Scope.place
  rw [hpresent]
  dsimp only
  rw [if_pos hbuild, if_pos hdecided]

/-- What is installed can be erased where nothing was done about its slot. -/
theorem eraseTarget_of_open {p : Package} (hp : p ∈ ix.installedPackages) (hopen : st.IsOpen p.slot) :
    s.Mirrors ix (st.drop [p]) (s.eraseTarget m p) := by
  obtain ⟨htaken, hbrought⟩ := Stage.isOpen_iff.1 hopen
  have hpresent : m.present[p.slot]? = some p := by
    refine (hm.present p).2 (Index.mem_exchange_iff.2 (.inl ⟨hp, fun hgone => ?_, hbrought⟩))
    exact htaken p hgone rfl
  rw [eraseTarget_of_holds ⟨p, hpresent, rfl⟩]
  exact hm.clear hp hopen _

/-- What has been taken off is not erased once more. -/
theorem eraseTarget_of_taken {p : Package} (hp : p ∈ st.taken)
    (hfree : ∀ q ∈ st.brought, q.slot ≠ p.slot) : s.eraseTarget m p = m := by
  refine eraseTarget_of_not_holds ?_
  rintro ⟨q, hq, hbuild⟩
  have hslot : q.slot = p.slot := congrArg Build.slot hbuild
  rw [show p.build.slot = q.slot from hslot.symm, hm.present, Stage.world, Index.mem_exchange_iff] at hq
  rcases hq with ⟨hq, hkept, -⟩ | hq
  · rw [Index.installed_unique hq (hm.taken p hp) hslot] at hkept
    exact hkept hp
  · exact hfree q hq hslot

/-! ## Flaws -/

section Flaws

variable (hs : s.Views ix)

include hs

theorem supersedes {p q : Package} {o : Requirement} (hp : p ∈ s.changed m)
    (h : s.victimOf? m p = some (o, q)) : st.Supersedes ix p q := by
  unfold victimOf? at h
  obtain ⟨obsolete, ho, hfind⟩ := List.exists_of_findSome?_eq_some h
  obtain ⟨found, hfound, heq⟩ := Option.map_eq_some_iff.1 hfind
  cases heq
  obtain ⟨metadata, hmetadata, ho⟩ := (mem_metadataOf_iff Metadata.obsoletes rfl).1 ho
  have hmeets := List.find?_some hfound
  rw [Bool.and_eq_true, decide_eq_true_eq] at hmeets
  exact ⟨hm.mem_changed_iff.1 hp, hm.mem_packages_iff.1 (List.mem_of_find?_eq_some hfound), hmeets.1,
    metadata, hs.index ▸ hmetadata, _, ho, hmeets.2⟩

theorem clashes {c : Clash} (h : c ∈ s.clashes m) : st.Clashes ix c.package c.other := by
  unfold Scope.clashes at h
  obtain ⟨p, hp, h⟩ := List.mem_flatMap.1 h
  obtain ⟨conflict, hconflict, h⟩ := List.mem_flatMap.1 h
  obtain ⟨other, hother, rfl⟩ := List.mem_map.1 h
  obtain ⟨hother, hmeets⟩ := List.mem_filter.1 hother
  rw [Bool.and_eq_true, Bool.and_eq_true, Bool.or_eq_true, decide_eq_true_eq] at hmeets
  obtain ⟨⟨hslot, hmeets⟩, hside⟩ := hmeets
  obtain ⟨metadata, hmetadata, hconflict⟩ := (mem_metadataOf_iff Metadata.conflicts rfl).1 hconflict
  have hp := hm.mem_packages_iff.1 hp
  have hother := hm.mem_packages_iff.1 hother
  rw [hm.changed p hp, hm.changed other hother] at hside
  exact ⟨hp, hother, fun heq => hslot (congrArg Package.slot heq), hside, metadata,
    hs.index ▸ hmetadata, conflict, hconflict, hs.index ▸ hmeets⟩

theorem isBroken_iff {p : Package} {r : Requirement} (hp : p ∈ st.world ix)
    (hr : r ∈ (s.metadataOf p).requires) : s.isBroken m p r ↔ st.Lacks ix p r := by
  have hrequires := (mem_metadataOf_iff Metadata.requires rfl).1 hr
  rw [hs.index] at hrequires
  unfold isBroken
  rw [Bool.and_eq_true, Bool.not_eq_true', ← Bool.not_eq_true, Bool.or_eq_true, satisfied_iff,
    satisfied_iff, hs.index, hm.changed p hp]
  simp only [hm.mem_packages_iff, mem_values_installed_iff hs]
  constructor
  · rintro ⟨hunmet, hlost⟩
    refine ⟨hp, hrequires, fun q hq => ?_, hlost⟩
    exact Bool.eq_false_iff.2 fun hmeets => hunmet ⟨q, hq, hmeets⟩
  · rintro ⟨-, -, hunmet, hlost⟩
    refine ⟨?_, hlost⟩
    rintro ⟨q, hq, hmeets⟩
    rw [hunmet q hq] at hmeets
    cases hmeets

/-- The need that settling finds is the one that is looked after first. -/
theorem needsFirst {need : Need} (h : s.firstBroken? m = some need) :
    st.NeedsFirst ix need.package need.requirement := by
  unfold firstBroken? at h
  obtain ⟨earlier, p, later, hsplit, hfind, hearlier⟩ := List.findSome?_eq_some_iff.1 h
  obtain ⟨r, hr, rfl⟩ := Option.map_eq_some_iff.1 hfind
  have hworld {q : Package} (hq : q ∈ earlier ++ p :: later) : q ∈ st.world ix :=
    hm.mem_packages_iff.1 (hsplit ▸ hq)
  have hp := hworld (List.mem_append_right earlier List.mem_cons_self)
  have hrequired := List.mem_of_find?_eq_some hr
  obtain ⟨hbroken, before, after, hstated, hbefore⟩ := List.find?_eq_some_iff_append.1 hr
  refine ⟨(hm.isBroken_iff hs hp hrequired).1 hbroken, fun q r' hlacks hlt => ?_,
    fun metadata hmetadata => ⟨before, after, ?_, fun r' hr' hlacks => ?_⟩⟩
  · -- The packages of a model are listed by slot.
    have hsorted : m.packages.Pairwise fun p q => compare p.slot q.slot = .lt :=
      pairwise_values Package.slot hm.keyed
    rw [hsplit, List.pairwise_append, List.pairwise_cons] at hsorted
    have hq := hm.mem_packages_iff.2 hlacks.world
    rw [hsplit, List.mem_append, List.mem_cons] at hq
    rcases hq with hq | rfl | hq
    · obtain ⟨metadata, hmetadata, hr'⟩ := hlacks.requires
      rw [← hs.index] at hmetadata
      have hr' := (mem_metadataOf_iff Metadata.requires rfl).2 ⟨metadata, hmetadata, hr'⟩
      have hnone := List.find?_eq_none.1 (Option.map_eq_none_iff.1 (hearlier q hq)) r' hr'
      exact hnone ((hm.isBroken_iff hs hlacks.world hr').2 hlacks)
    · exact Std.OrientedCmp.not_lt_of_lt hlt hlt
    · exact Std.OrientedCmp.not_lt_of_lt hlt (hsorted.2.1.1 q hq)
  · rw [← hstated, metadataOf, hs.index, hmetadata]
    rfl
  · have hr' : r' ∈ before ++ r :: after := List.mem_append_left _ hr'
    have hbroken := (hm.isBroken_iff hs hp (hstated ▸ hr')).2 hlacks
    have hnot := hbefore r' ‹_›
    rw [hbroken] at hnot
    cases hnot

theorem unmet_of_mem_missingRecommends {need : Need} (h : need ∈ s.missingRecommends m) :
    need.package ∈ st.brought ∧ (∃ metadata, ix.metadata? need.package = some metadata ∧
      need.requirement ∈ metadata.recommends) ∧
      ∀ q ∈ st.world ix, ix.meets q need.requirement = false := by
  unfold missingRecommends at h
  obtain ⟨p, hp, h⟩ := List.mem_flatMap.1 h
  obtain ⟨r, hr, rfl⟩ := List.mem_map.1 h
  obtain ⟨hr, hunmet⟩ := List.mem_filter.1 hr
  have hr := (mem_metadataOf_iff Metadata.recommends rfl).1 hr
  rw [hs.index] at hr
  rw [Bool.not_eq_true', ← Bool.not_eq_true, satisfied_iff, hs.index] at hunmet
  refine ⟨hm.mem_changed_iff.1 hp, hr, fun q hq => ?_⟩
  exact Bool.eq_false_iff.2 fun hmeets => hunmet ⟨q, hm.mem_packages_iff.2 hq, hmeets⟩

end Flaws

/-! ## Remedies -/

variable (hs : s.Serves ix policy)

include hs

theorem supplies_iff {r : Requirement} {q : Package} :
    st.Supplies ix r q ↔ q ∈ s.choices.filter fun p =>
      (!m.isDecided p.slot || (m.present[p.slot]?).any fun q => q.build = p.build) &&
        s.index.meets p r := by
  rw [List.mem_filter, Bool.and_eq_true, Bool.or_eq_true, Bool.not_eq_true',
    hm.undecided, Option.any_eq_true, hs.choices_eq, hs.views.index]
  simp only [decide_eq_true_eq]
  constructor
  · rintro ⟨hchoice, hmeets, hfree⟩
    refine ⟨hchoice, hfree.imp_right ?_, hmeets⟩
    rintro ⟨p, hp, hbuild⟩
    have hslot : p.slot = q.slot := congrArg Build.slot hbuild
    refine ⟨p, ?_, hbuild⟩
    rw [← hslot]
    exact (hm.present p).2 (Index.mem_exchange_iff.2 (.inr hp))
  · rintro ⟨hchoice, hfree, hmeets⟩
    refine ⟨hchoice, hmeets, ?_⟩
    by_cases hopen : st.IsOpen q.slot
    · exact .inl hopen
    · obtain ⟨p, hp, hbuild⟩ := hfree.resolve_left hopen
      have hslot : p.slot = q.slot := congrArg Build.slot hbuild
      rw [← hslot] at hopen hp
      refine .inr ⟨p, ?_, hbuild⟩
      by_contra hleft
      exact hopen (hm.isOpen_of_left ((hm.present p).1 hp) hleft).2

/-- Those that could meet a requirement are tried for it, and first the one that comes first. -/
theorem providers_cases (r : Requirement) :
    (s.providers m r = [] ∧ ∀ q, ¬ st.Supplies ix r q) ∨
      ∃ q rest, s.providers m r = q :: rest ∧ st.SuppliesFirst ix policy r q := by
  unfold providers
  dsimp only
  rcases mergeSort_cases s.providerOrder (s.choices.filter fun p =>
      (!m.isDecided p.slot || (m.present[p.slot]?).any fun q => q.build = p.build) &&
        s.index.meets p r) with ⟨hsorted, hnone⟩ | ⟨q, rest, hsorted, hq, hfirst⟩ <;>
    rw [hsorted]
  · refine .inl ⟨?_, fun q hq => hnone q ((hm.supplies_iff hs).1 hq)⟩
    split <;> rfl
  · have hq : st.SuppliesFirst ix policy r q := by
      refine ⟨(hm.supplies_iff hs).2 hq, fun q' hq' => ?_⟩
      rw [← hs.providerOrder_eq]
      exact hfirst q' ((hm.supplies_iff hs).1 hq')
    right
    split
    · exact ⟨q, _, rfl, hq⟩
    · exact ⟨q, _, rfl, hq⟩

end Mirrors

/-! ## Changes -/

section Changes

variable (hm : (ofIndex ix policy).Mirrors ix st m)

include hm

theorem Mirrors.mem_broughtIn_iff {p : Package} :
    p ∈ Change.broughtIn ((ofIndex ix policy).changes m) ↔ p ∈ st.brought := by
  rw [mem_broughtIn_iff_mem_changed hm.keyed]
  exact hm.mem_changed_iff

theorem Mirrors.mem_takenOff_iff {p : Package} :
    p ∈ Change.takenOff ((ofIndex ix policy).changes m) ↔
      p ∈ st.taken ∧ ∀ q ∈ st.brought, q.slot ≠ p.slot := by
  rw [mem_takenOff_changes_iff slot_installed_ofIndex, installed_ofIndex,
    ← Index.mem_installedPackages_iff]
  constructor
  · rintro ⟨hp, hgone⟩
    have hfree (q : Package) (hq : q ∈ st.brought) : q.slot ≠ p.slot := by
      intro hslot
      have hpresent := (hm.present q).2 (Index.mem_exchange_iff.2 (.inr hq))
      rw [hslot, hgone] at hpresent
      cases hpresent
    refine ⟨?_, hfree⟩
    by_contra hkept
    rw [(hm.present p).2 (Index.mem_exchange_iff.2 (.inl ⟨hp, hkept, hfree⟩))] at hgone
    cases hgone
  · rintro ⟨htaken, hfree⟩
    have hp := hm.taken p htaken
    refine ⟨hp, ?_⟩
    rcases hpresent : m.present[p.slot]? with _ | q
    · rfl
    · have hslot := hm.keyed _ q hpresent
      rw [← hslot, hm.present, Stage.world, Index.mem_exchange_iff] at hpresent
      rcases hpresent with ⟨hq, hkept, -⟩ | hq
      · rw [Index.installed_unique hq hp hslot] at hkept
        exact absurd htaken hkept
      · exact absurd hslot (hfree q hq)

end Changes

end Scope

end Solver

end Provision
