import Provision.Proofs.Solver.Sound

/-!
# What a world asks for

A stage of a search says what has been taken off and brought in so far. It is read as a world of
packages, without regard to how the search keeps it. A world that is not sound asks for more: a
package that is superseded, excluded or left without what it requires is to go (`Drops`), and a
package that meets a need is to come (`Fetches`). Needs are looked after in a fixed order, and of the
packages that would do the preferred one comes, so `Fetches` says what is tried first. Nothing is said
about what is tried after it, except that a stage at which there is nothing to try is not `Tractable`.
-/

namespace Provision.Solver

open Scope (Displaces)

structure Stage where
  taken : List Package := []
  brought : List Package := []
  /-- What loses a requirement goes along. -/
  erases : Bool := false

namespace Stage

/-- What is installed at the stage. -/
def world (st : Stage) (ix : Index) : List Package := ix.exchange st.taken st.brought

/-- Nothing was done about the slot. -/
def IsOpen (st : Stage) (slot : Slot) : Prop := ∀ p ∈ st.taken ++ st.brought, p.slot ≠ slot

instance (st : Stage) (slot : Slot) : Decidable (st.IsOpen slot) :=
  inferInstanceAs (Decidable (∀ p ∈ st.taken ++ st.brought, p.slot ≠ slot))

/-- Packages go. -/
def drop (st : Stage) (gone : List Package) : Stage := { st with taken := st.taken ++ gone }

/-- A package is put into its slot. -/
def put (st : Stage) (p : Package) : Stage := { st with brought := st.brought ++ [p] }

/-- A package comes, and what it displaces goes. -/
def fetch (st : Stage) (ix : Index) (p : Package) : Stage :=
  (st.drop ((st.world ix).filter fun q => Displaces p.slot q.slot)).put p

theorem isOpen_iff {st : Stage} {slot : Slot} :
    st.IsOpen slot ↔ (∀ p ∈ st.taken, p.slot ≠ slot) ∧ ∀ p ∈ st.brought, p.slot ≠ slot := by
  unfold IsOpen
  rw [List.forall_mem_append]

theorem isOpen_drop_iff {st : Stage} {gone : List Package} {slot : Slot} :
    (st.drop gone).IsOpen slot ↔ st.IsOpen slot ∧ ∀ p ∈ gone, p.slot ≠ slot := by
  rw [isOpen_iff, isOpen_iff]
  unfold drop
  rw [List.forall_mem_append, and_right_comm]

theorem isOpen_put_iff {st : Stage} {p : Package} {slot : Slot} :
    (st.put p).IsOpen slot ↔ st.IsOpen slot ∧ p.slot ≠ slot := by
  rw [isOpen_iff, isOpen_iff]
  unfold put
  rw [List.forall_mem_append, List.forall_mem_singleton, and_assoc]

theorem isOpen_of_fetch {st : Stage} {ix : Index} {p : Package} {slot : Slot}
    (h : (st.fetch ix p).IsOpen slot) : st.IsOpen slot ∧ p.slot ≠ slot := by
  obtain ⟨hdrop, hne⟩ := isOpen_put_iff.1 h
  exact ⟨(isOpen_drop_iff.1 hdrop).1, hne⟩

variable (ix : Index) (policy : Policy) (st : Stage)

/-! ## Flaws -/

/-- A package that was brought in obsoletes another one. -/
structure Supersedes (p q : Package) : Prop where
  brought : p ∈ st.brought
  world : q ∈ st.world ix
  other : q.name ≠ p.name
  obsoletes : ∃ metadata, ix.metadata? p = some metadata ∧ ∃ o ∈ metadata.obsoletes, q.meets o

/-- A package conflicts with another one, and one of the two was brought in. -/
structure Clashes (p q : Package) : Prop where
  left : p ∈ st.world ix
  right : q ∈ st.world ix
  other : q ≠ p
  side : p ∈ st.brought ∨ q ∈ st.brought
  conflicts : ∃ metadata, ix.metadata? p = some metadata ∧ ∃ c ∈ metadata.conflicts, ix.meets q c

/-- A package is without something that it requires, and it was brought in or has lost it. -/
structure Lacks (p : Package) (r : Requirement) : Prop where
  world : p ∈ st.world ix
  requires : ∃ metadata, ix.metadata? p = some metadata ∧ r ∈ metadata.requires
  unmet : ∀ q ∈ st.world ix, ix.meets q r = false
  lost : p ∈ st.brought ∨ ∃ q ∈ ix.installedPackages, ix.meets q r

/-- The need that is looked after first: of the first slot, and the first that its package states. -/
structure NeedsFirst (p : Package) (r : Requirement) : Prop where
  lacks : st.Lacks ix p r
  slot : ∀ q r', st.Lacks ix q r' → compare q.slot p.slot ≠ .lt
  stated : ∀ metadata, ix.metadata? p = some metadata →
    ∃ before after, metadata.requires = before ++ r :: after ∧ ∀ r' ∈ before, ¬ st.Lacks ix p r'

/-! ## Remedies -/

/-- The package could come to meet the requirement. -/
structure Supplies (r : Requirement) (q : Package) : Prop where
  choice : q ∈ ix.query {}
  meets : ix.meets q r
  free : st.IsOpen q.slot ∨ ∃ p ∈ st.brought, p.build = q.build

/-- It is the one that is tried first. -/
structure SuppliesFirst (r : Requirement) (q : Package) : Prop extends st.Supplies ix r q where
  first : ∀ q', st.Supplies ix r q' → ((Scope.ofIndex ix policy).providerOrder q q').isLE

/-- The package is a newer build for the slot of another one. -/
structure Upgrades (p q : Package) : Prop where
  choice : q ∈ ix.query {}
  slot : q.slot = p.slot
  newer : p.evr.Older q.evr

structure UpgradesFirst (p q : Package) : Prop extends Upgrades ix p q where
  first : ∀ q', Upgrades ix p q' → (preference (some p.repo) q q').isLE

/-- The world asks for the package to go. -/
inductive Drops : Package → Prop
  | superseded {p q : Package} (h : st.Supersedes ix p q) : Drops q
  | excluded {p q gone : Package} (h : st.Clashes ix p q) (hgone : gone = p ∨ gone = q)
      (hleft : gone ∉ st.brought) (hmay : st.erases ∨ policy.allowErasing) : Drops gone
  | along {p : Package} {r : Requirement} (h : st.NeedsFirst ix p r) (hleft : p ∉ st.brought)
      (herases : st.erases) : Drops p
  | helpless {p : Package} {r : Requirement} (h : st.NeedsFirst ix p r) (hleft : p ∉ st.brought)
      (hkeeps : st.erases = false) (hmay : policy.allowErasing)
      (hnone : ∀ q, ¬ st.Supplies ix r q) (hold : ∀ q, ¬ Upgrades ix p q) : Drops p

/-- The world asks for the package to come. -/
inductive Fetches : Package → Prop
  | required {p q : Package} {r : Requirement} (h : st.NeedsFirst ix p r)
      (hkeeps : p ∈ st.brought ∨ st.erases = false) (hq : st.SuppliesFirst ix policy r q) :
      Fetches q
  | upgrade {p q : Package} {r : Requirement} (h : st.NeedsFirst ix p r) (hleft : p ∉ st.brought)
      (hkeeps : st.erases = false) (hnone : ∀ q, ¬ st.Supplies ix r q)
      (hq : UpgradesFirst ix p q) : Fetches q
  | recommended {p q : Package} {r : Requirement} {metadata : Metadata}
      (hsound : ix.Sound st.brought (st.world ix)) (hkeeps : st.erases = false)
      (hp : p ∈ st.brought) (hmetadata : ix.metadata? p = some metadata)
      (hr : r ∈ metadata.recommends) (hunmet : ∀ x ∈ st.world ix, ix.meets x r = false)
      (hq : st.SuppliesFirst ix policy r q) : Fetches q

/-- One step that the world asks for. -/
inductive Asks : Stage → Prop
  | drop {p : Package} (h : st.Drops ix policy p) : Asks (st.drop [p])
  | fetch {p : Package} (h : st.Fetches ix policy p) : Asks (st.fetch ix p)

/-- The package can come: nothing was done about its slot, and it displaces nothing that has come. -/
structure Admits (p : Package) : Prop where
  opens : st.IsOpen p.slot
  fresh : ¬ ix.isInstalled p.build
  room : ∀ q ∈ st.brought, ¬ Displaces p.slot q.slot

/-- There is a remedy for every conflict, and for the need that is looked after first. -/
structure Tractable : Prop where
  conflicts : ∀ p q, st.Clashes ix p q →
    (st.erases ∨ policy.allowErasing) ∧ (p ∉ st.brought ∨ q ∉ st.brought)
  needs : ∀ p r, st.NeedsFirst ix p r → (∃ q, st.Supplies ix r q) ∨
    p ∉ st.brought ∧ (st.erases ∨ policy.allowErasing ∨ ∃ q, Upgrades ix p q)

/-! ## Sound worlds -/

variable {ix policy st}

/-- A world without flaws is sound. -/
theorem sound_iff : ix.Sound st.brought (st.world ix) ↔ (∀ p q, ¬ st.Supersedes ix p q) ∧
    (∀ p q, ¬ st.Clashes ix p q) ∧ ∀ p r, ¬ st.Lacks ix p r := by
  have hbrought {p : Package} (hp : p ∈ st.brought) : p ∈ st.world ix :=
    Index.mem_exchange_iff.2 (.inr hp)
  constructor
  · intro h
    refine ⟨fun p q hpq => ?_, fun p q hpq => ?_, fun p r hpr => ?_⟩
    · obtain ⟨hp, hq, hother, metadata, hmetadata, o, ho, hmeets⟩ := hpq
      rw [h.obsoletes p hp metadata hmetadata o ho q hq hother] at hmeets
      cases hmeets
    · obtain ⟨hp, hq, hother, hside, metadata, hmetadata, c, hc, hmeets⟩ := hpq
      rw [h.conflicts p hp q hq hother hside metadata hmetadata c hc] at hmeets
      cases hmeets
    · obtain ⟨hp, ⟨metadata, hmetadata, hr⟩, hunmet, hlost⟩ := hpr
      obtain ⟨q, hq, hmeets⟩ : ∃ q ∈ st.world ix, ix.meets q r := by
        by_cases hin : p ∈ st.brought
        · exact h.requires p hin metadata hmetadata r hr
        · exact h.keeps p hp hin metadata hmetadata r hr (hlost.resolve_left hin)
      rw [hunmet q hq] at hmeets
      cases hmeets
  · rintro ⟨hobsoletes, hconflicts, hrequires⟩
    have hmet (p : Package) (hp : p ∈ st.world ix) (metadata : Metadata)
        (hmetadata : ix.metadata? p = some metadata) (r : Requirement)
        (hr : r ∈ metadata.requires)
        (hlost : p ∈ st.brought ∨ ∃ q ∈ ix.installedPackages, ix.meets q r) :
        ∃ q ∈ st.world ix, ix.meets q r := by
      by_contra hnone
      refine hrequires p r ⟨hp, ⟨metadata, hmetadata, hr⟩, fun q hq => ?_, hlost⟩
      exact Bool.eq_false_iff.2 fun hmeets => hnone ⟨q, hq, hmeets⟩
    refine ⟨fun p hp metadata hmetadata r hr => ?_, fun p hp _ metadata hmetadata r hr hbefore => ?_,
      fun p hp q hq hother hside metadata hmetadata c hc => ?_,
      fun p hp metadata hmetadata o ho q hq hother => ?_⟩
    · exact hmet p (hbrought hp) metadata hmetadata r hr (.inl hp)
    · exact hmet p hp metadata hmetadata r hr (.inr hbefore)
    · exact Bool.eq_false_iff.2 fun hmeets =>
        hconflicts p q ⟨hp, hq, hother, hside, metadata, hmetadata, c, hc, hmeets⟩
    · exact Bool.eq_false_iff.2 fun hmeets =>
        hobsoletes p q ⟨hp, hq, hother, metadata, hmetadata, o, ho, hmeets⟩

/-- Before anything is done the world is sound. -/
theorem sound_start (ix : Index) : ix.Sound ({} : Stage).brought (({} : Stage).world ix) := by
  refine sound_iff.2 ⟨fun p q h => absurd h.brought List.not_mem_nil, fun p q h => ?_, fun p r h => ?_⟩
  · rcases h.side with hside | hside <;> cases hside
  · obtain ⟨q, hq, hmeets⟩ := h.lost.resolve_left List.not_mem_nil
    rw [h.unmet q (Index.mem_exchange_nil_iff.2 hq)] at hmeets
    cases hmeets

section Sound

variable (hsound : ix.Sound st.brought (st.world ix))

include hsound

/-- In a sound world there is nothing that needs a remedy. -/
theorem tractable_of_sound : st.Tractable ix policy := by
  obtain ⟨-, hclashes, hlacks⟩ := sound_iff.1 hsound
  exact ⟨fun p q h => absurd h (hclashes p q), fun p r h => absurd h.lacks (hlacks p r)⟩

/-- A sound world asks only for what is recommended. -/
theorem not_asks_of_sound {st' : Stage} (hplain : ∀ p ∈ st.brought, ∀ metadata,
    ix.metadata? p = some metadata → metadata.recommends = []) : ¬ st.Asks ix policy st' := by
  obtain ⟨hsupersedes, hclashes, hlacks⟩ := sound_iff.1 hsound
  intro h
  cases h with
  | drop h =>
    cases h with
    | superseded h => exact hsupersedes _ _ h
    | excluded h => exact hclashes _ _ h
    | along h => exact hlacks _ _ h.lacks
    | helpless h => exact hlacks _ _ h.lacks
  | fetch h =>
    cases h with
    | required h => exact hlacks _ _ h.lacks
    | upgrade h => exact hlacks _ _ h.lacks
    | recommended _ _ hp hmetadata hr =>
      rw [hplain _ hp _ hmetadata] at hr
      cases hr

end Sound

/-! ## One step -/

theorem Drops.world {p : Package} (h : st.Drops ix policy p) : p ∈ st.world ix := by
  cases h with
  | superseded h => exact h.world
  | excluded h hgone =>
    rcases hgone with rfl | rfl
    · exact h.left
    · exact h.right
  | along h => exact h.lacks.world
  | helpless h => exact h.lacks.world

theorem Fetches.choice {p : Package} (h : st.Fetches ix policy p) : p ∈ ix.query {} := by
  cases h with
  | required _ _ hq => exact hq.choice
  | upgrade _ _ _ _ hq => exact hq.choice
  | recommended _ _ _ _ _ _ hq => exact hq.choice

theorem Asks.isOpen {st' : Stage} (h : st.Asks ix policy st') {slot : Slot}
    (hopen : st'.IsOpen slot) : st.IsOpen slot := by
  cases h with
  | drop => exact (isOpen_drop_iff.1 hopen).1
  | fetch => exact (isOpen_of_fetch hopen).1

end Stage

end Provision.Solver
