import Provision.Proofs.Solver.Jobs

/-!
# Mending one flaw at a time

Settling mends the flaws of a model one after the other. Which flaw is next is fixed: obsoletes are
applied first, then conflicts are resolved, and then the first broken requirement is met. How it is
met is not: there may be several remedies (`Remedy`). Settling tries them in order, each to its end,
and goes on with the first that can be settled. What it ends with is the end of a run in which every
step mends the flaw that is next (`Mends`, `settle_run`).

A job is a sequence of turns: what it does itself, and the steps of its runs (`perform_turns`).
Mending is a sequence of moves, so a turn is a sequence of steps in the sense of `Model.Step`
(`Turn.steps`).
-/

namespace Provision.Solver

open Model (Reaches)

namespace Scope

variable {s : Scope} {may : Package → Prop} {m m' : Model}

/-! ## One flaw after the other -/

/-- The next flaw of the model is mended. -/
inductive Mends (s : Scope) (m : Model) : Model → Prop
  | obsolete {m' : Model} (h : (s.applyObsoletes m).result = .ok (some m')) : Mends s m m'
  | conflict {m' : Model} (hobsoletes : (s.applyObsoletes m).result = .ok none)
      (h : (s.resolveConflicts m).result = .ok (some m')) : Mends s m m'
  | require {need : Need} {m' : Model} (hobsoletes : (s.applyObsoletes m).result = .ok none)
      (hconflicts : (s.resolveConflicts m).result = .ok none)
      (hneed : s.firstBroken? m = some need) (h : s.Remedy m need m') : Mends s m m'

/-- The second model comes from the first by mending flaws. -/
abbrev Run (s : Scope) : Model → Model → Prop := Relation.ReflTransGen s.Mends

/-! ## Settling is a run -/

/-- If what a trial settles is the end of a run, what a repair comes to is one as well. -/
theorem repairRequires_run {settle : Model → Search Model}
    (hsettle : ∀ ⦃m m' : Model⦄, (settle m).result = .ok m' → s.Run m m')
    (hobsoletes : (s.applyObsoletes m).result = .ok none)
    (hconflicts : (s.resolveConflicts m).result = .ok none)
    (h : (s.repairRequires settle m).result = .ok (some m')) : s.Run m m' := by
  obtain ⟨need, hneed, next, hremedy, hnext⟩ := repairRequires_eq_some h
  have hmends : s.Mends m next := .require hobsoletes hconflicts hneed hremedy
  rcases hnext with rfl | hnext
  · exact .single hmends
  · exact .head hmends (hsettle hnext)

/-- By induction on the steps: what a trial settles is the end of a run of its own. -/
theorem settle_run {steps : Nat} (h : (s.settle steps m).result = .ok m') : s.Run m m' := by
  induction steps generalizing m m' with
  | zero => cases h
  | succ steps ih =>
    cases settle_succ_eq_ok_iff.1 h with
    | obsolete h hrest => exact .head (.obsolete h) (ih hrest)
    | conflict hobsoletes h hrest => exact .head (.conflict hobsoletes h) (ih hrest)
    | require hobsoletes hconflicts h hrest =>
      exact (repairRequires_run (fun _ _ => ih) hobsoletes hconflicts h).trans (ih hrest)
    | done _ heq =>
      subst heq
      exact .refl

/-! ## Mending is moving -/

theorem Mends.reaches (hmay : ∀ p ∈ s.choices, may p) (hm : m.Keyed) (h : s.Mends m m') :
    Reaches may m m' := by
  cases h with
  | obsolete h => exact .single (applyObsoletes_move h)
  | conflict _ h => exact .single (resolveConflicts_move h)
  | require _ _ _ h => exact h.reaches hmay hm

/-! ## Turns of a job -/

/-- A step of a job: a flaw is mended, or the job does what it is there for. -/
inductive Turn (s : Scope) (task : Task) (m : Model) : Model → Prop
  | mend {m' : Model} (h : s.Mends m m') : Turn s task m m'
  | candidate {candidates : List Package} {p : Package} {m' : Model}
      (htask : task = .install candidates) (hp : p ∈ candidates)
      (hplace : s.place m p .user = .ok m') : Turn s task m m'
  | recommended {candidates : List Package} {p : Package} {m' : Model}
      (htask : task = .install candidates) (hp : p ∈ s.choices)
      (hplace : s.place m p .weakDependency = .ok m') : Turn s task m m'
  | again {p : Package} (htask : task = .reinstall p) (hopen : m.isDecided p.slot = false) :
      Turn s task m (m.fill p ⟨.user, s.job, .reinstalled⟩)
  | drop {targets : List Package} {t : Package} (htask : task = .remove targets) (ht : t ∈ targets)
      (hholds : m.Holds t.build) : Turn s task m (m.clear t.slot ⟨.user, s.job, .plain⟩)
  | attitude {targets : List Package} (htask : task = .remove targets) (erases : Bool) :
      Turn s task m { m with erasesDependents := erases }

abbrev Turns (s : Scope) (task : Task) : Model → Model → Prop := Relation.ReflTransGen (s.Turn task)

theorem Run.turns {task : Task} (h : s.Run m m') : s.Turns task m m' :=
  Relation.ReflTransGen.mono (fun _ _ => .mend) _ _ h

theorem followOne_turns {steps : Nat} {candidates : List Package} {needs : List Need}
    (h : (s.followOne (s.settle steps) m needs).result = .ok (some m')) :
    s.Turns (.install candidates) m m' := by
  obtain ⟨need, -, p, hp, placed, hplace, hsettle⟩ := followOne_eq_some h
  exact .head (.recommended rfl (mem_providers hp) hplace) (Run.turns (settle_run hsettle))

theorem followRecommends_turns {bound steps : Nat} {candidates : List Package}
    (h : (s.followRecommends (s.settle bound) steps m).result = .ok m') :
    s.Turns (.install candidates) m m' := by
  induction steps generalizing m with
  | zero => cases h
  | succ steps ih =>
    obtain rfl | ⟨next, hfollow, h⟩ := followRecommends_succ_eq_ok h
    · exact .refl
    · exact (followOne_turns hfollow).trans (ih h)

theorem install_turns {candidates : List Package} {rejected : List Problem}
    (h : (s.install m rejected candidates).result = .ok m') :
    s.Turns (.install candidates) m m' := by
  obtain ⟨p, hselects⟩ := exists_selects h
  obtain ⟨placed, settled, hplace, hsettle, hfollow⟩ := take_eq_ok hselects.take
  have hfirst : s.Turn (.install candidates) m placed := .candidate rfl hselects.mem hplace
  exact .head hfirst ((Run.turns (settle_run hsettle)).trans (followRecommends_turns hfollow))

/-- A job that is carried out takes turns. -/
theorem perform_turns {task : Task} (h : (s.perform m task).result = .ok m') :
    s.Turns task m m' := by
  cases task with
  | install candidates => exact install_turns h
  | reinstall p =>
    obtain ⟨hopen, h⟩ := reinstall_cases h
    exact .head (.again rfl hopen) (Run.turns (settle_run h))
  | remove targets =>
    obtain ⟨settled, hsettle, rfl⟩ := remove_cases h
    have herase : s.Turns (.remove targets) m
        (s.eraseTargets { m with erasesDependents := true } targets) :=
      .head (.attitude rfl true) (eraseTargets_relates fun _ _ ht hholds => .drop rfl ht hholds)
    exact (herase.trans (Run.turns (settle_run hsettle))).tail (.attitude rfl false)

theorem Turn.steps {task : Task} (hmay : ∀ p ∈ s.choices, may p)
    (hcandidates : ∀ candidates, task = .install candidates → ∀ p ∈ candidates, may p)
    (hm : m.Keyed) (h : s.Turn task m m') : Model.Steps may task m m' := by
  cases h with
  | mend h => exact (h.reaches hmay hm).steps
  | candidate htask hp hplace => exact (place_reaches hm (hcandidates _ htask _ hp) hplace).steps
  | recommended _ hp hplace => exact (place_reaches hm (hmay _ hp) hplace).steps
  | again htask hopen => exact .single (.again htask hopen)
  | drop htask ht hholds => exact .single (.drop htask ht hholds)
  | attitude _ erases => exact .single (.attitude erases)

theorem Turn.disciplined {requests : List Request} {request : Request}
    (hrequest : request ∈ requests) (hm : s.Disciplined requests m)
    (h : s.Turn request.task m m') : s.Disciplined requests m' := by
  refine hm.steps hrequest (h.steps (fun p hp => .inl hp) ?_ hm.keyed)
  exact fun candidates htask p hp => .inr ⟨request, hrequest, candidates, htask, hp⟩

/-- What every turn of a disciplined model keeps holds at the end of a job. -/
theorem Turns.keeps {requests : List Request} {request : Request} {holds : Model → Prop}
    (hrequest : request ∈ requests)
    (hkeeps : ∀ ⦃m m' : Model⦄, s.Disciplined requests m → holds m → s.Turn request.task m m' →
      holds m')
    (h : s.Turns request.task m m') (hdisciplined : s.Disciplined requests m) (hm : holds m) :
    s.Disciplined requests m' ∧ holds m' := by
  induction h with
  | refl => exact ⟨hdisciplined, hm⟩
  | tail _ hturn ih => exact ⟨hturn.disciplined hrequest ih.1, hkeeps ih.1 ih.2 hturn⟩

end Scope

end Provision.Solver
