import Provision.Proofs.Solver.Runs

/-!
# Refusals name problems

A search that refuses tells at least one problem (`settle_explains`, `perform_explains`); only an
installation without candidates does not. So in a run without problems every job that is not weak
has been carried out (`exists_carried`).
-/

namespace Provision.Solver

namespace Search

variable {α β : Type}

/-- The search does not refuse without a problem. -/
def Explains (x : Search α) : Prop := ∀ found, x.result = .error (.problems found) → found ≠ []

theorem explains_pure (a : α) : (pure a : Search α).Explains := nofun

theorem explains_refuse {problems : List Problem} (h : problems ≠ []) :
    (refuse problems : Search α).Explains := by
  intro found hfound
  cases hfound
  exact h

theorem Explains.bind {x : Search α} {f : α → Search β} (hx : x.Explains)
    (hf : ∀ a, (f a).Explains) : (x >>= f).Explains := by
  intro found hfound
  rw [result_bind] at hfound
  split at hfound
  · exact hf _ found hfound
  · rename_i hresult
    cases hfound
    exact hx found hresult

theorem explains_debug_bind {text : String} {f : Unit → Search β} (hf : (f ()).Explains) :
    (debug text >>= f).Explains := by
  intro found hfound
  rw [result_debug_bind] at hfound
  exact hf found hfound

/-- An alternative refuses with what the second search says. -/
theorem explains_orElse {x : Search α} {next : List Problem → Search α}
    (h : ∀ found, x.result = .error (.problems found) → (next found).Explains) :
    (orElse x next).Explains := by
  intro found hfound
  rw [result_orElse] at hfound
  split at hfound
  · rename_i hresult
    exact h _ hresult found hfound
  · rename_i hrefused
    exact absurd hfound (hrefused found)

end Search

namespace Scope

variable {s : Scope} {m : Model}

open Search (Explains)

/-! ## Settling -/

theorem place_error_ne_nil {p : Package} {reason : Reason} {problems : List Problem}
    (h : s.place m p reason = .error problems) : problems ≠ [] := by
  have henter (h : s.enter m p reason = .error problems) : problems ≠ [] := by
    unfold enter at h
    dsimp only at h
    split at h
    · cases h
      exact List.cons_ne_nil _ _
    · cases h
  unfold place at h
  split at h
  · split at h
    · cases h
    · split at h
      · cases h
        exact List.cons_ne_nil _ _
      · exact henter h
  · split at h
    · cases h
      exact List.cons_ne_nil _ _
    · exact henter h

theorem attempt_explains {settle : Model → Search Model} (hsettle : ∀ m, (settle m).Explains)
    {reason : Reason} {p : Package} : (s.attempt settle m reason p).Explains := by
  unfold attempt
  split
  · exact hsettle _
  · rename_i hplace
    exact Search.explains_refuse (place_error_ne_nil hplace)

theorem applyObsoletes_explains : (s.applyObsoletes m).Explains := by
  unfold applyObsoletes
  dsimp only
  split
  · exact Search.explains_pure _
  · split
    · exact Search.explains_refuse (List.cons_ne_nil _ _)
    · exact Search.explains_debug_bind (Search.explains_pure _)

theorem resolveConflicts_explains : (s.resolveConflicts m).Explains := by
  unfold resolveConflicts
  dsimp only
  split
  · exact Search.explains_debug_bind (Search.explains_pure _)
  · split
    · exact Search.explains_pure _
    · rename_i hclashes
      refine Search.explains_refuse fun hnone => hclashes ?_
      obtain ⟨-, hmap⟩ := Problem.insertAll_eq_nil_iff.1 hnone
      exact List.isEmpty_iff.2 (List.map_eq_nil_iff.1 hmap)

theorem eraseNeedy_explains {need : Need} : (s.eraseNeedy m need).Explains :=
  Search.explains_debug_bind (Search.explains_pure _)

theorem repair_explains {settle : Model → Search Model} {need : Need} :
    (s.repair settle m need).Explains := by
  unfold repair
  dsimp only
  split
  · exact eraseNeedy_explains
  · refine Search.explains_orElse fun found _ => ?_
    have hrefusal (providers : List Package) :
        Problem.insertAll [needProblem need (s.isChanged m need.package.slot) providers] found ≠
          [] := by
      intro hnone
      cases (Problem.insertAll_eq_nil_iff.1 hnone).1
    unfold repairWithoutProvider
    split
    · refine Search.explains_orElse fun _ _ => ?_
      split
      · exact eraseNeedy_explains
      · exact Search.explains_refuse (hrefusal _)
    · exact Search.explains_refuse (hrefusal _)

theorem settle_explains (steps : Nat) (m : Model) : (s.settle steps m).Explains := by
  induction steps generalizing m with
  | zero => exact nofun
  | succ steps ih =>
    unfold settle
    refine applyObsoletes_explains.bind fun o => ?_
    split
    · exact ih _
    · refine resolveConflicts_explains.bind fun o => ?_
      split
      · exact ih _
      · refine Explains.bind ?_ fun o => ?_
        · unfold repairRequires
          split
          · exact Search.explains_pure _
          · exact repair_explains.bind fun _ => Search.explains_pure _
        · split
          · exact ih _
          · exact Search.explains_pure _

/-! ## Jobs -/

theorem followOne_explains {settle : Model → Search Model} (needs : List Need) :
    (s.followOne settle m needs).Explains := by
  induction needs with
  | nil => exact Search.explains_pure _
  | cons need rest ih =>
    unfold followOne
    exact Search.explains_orElse fun _ _ => Search.explains_debug_bind ih

theorem followRecommends_explains {settle : Model → Search Model} (steps : Nat) (m : Model) :
    (s.followRecommends settle steps m).Explains := by
  induction steps generalizing m with
  | zero => exact nofun
  | succ steps ih =>
    unfold followRecommends
    refine (followOne_explains _).bind fun o => ?_
    split
    · exact ih _
    · exact Search.explains_pure _

theorem install_explains {candidates : List Package} {rejected : List Problem}
    (h : candidates ≠ [] ∨ rejected ≠ []) : (s.install m rejected candidates).Explains := by
  induction candidates generalizing rejected with
  | nil => exact Search.explains_refuse (h.resolve_left fun hne => hne rfl)
  | cons candidate rest ih =>
    unfold install
    refine Search.explains_orElse fun found hfound => Search.explains_debug_bind (ih (.inr ?_))
    have hfound : found ≠ [] := by
      refine Explains.bind ?_ (fun settled => ?_) found hfound
      · exact attempt_explains (settle_explains s.steps)
      · exact followRecommends_explains s.steps settled
    intro hnone
    exact hfound (Problem.insertAll_eq_nil_iff.1 hnone).2

theorem perform_explains {task : Task} (h : task ≠ .install []) : (s.perform m task).Explains := by
  cases task with
  | install candidates =>
    exact install_explains (.inl fun hnone => h (congrArg Task.install hnone))
  | reinstall p =>
    show (s.reinstall m p).Explains
    unfold reinstall
    split
    · exact Search.explains_refuse (List.cons_ne_nil _ _)
    · exact settle_explains _ _
  | remove targets => exact (settle_explains _ _).bind fun _ => Search.explains_pure _

/-! ## Runs without problems -/

/-- In a run without problems each job that is not weak is carried out. -/
theorem exists_carried {m' : Model} {problems : List Problem} {requests : List Request}
    (h : (s.performAll m problems requests).value = .ok (m', []))
    (hcandidates : ∀ request ∈ requests, request.task ≠ .install []) :
    problems = [] ∧ ∀ request ∈ requests, request.weak = false →
      ∃ c ∈ s.carried m requests, c.request = request := by
  induction requests generalizing s m problems with
  | nil =>
    cases h
    exact ⟨rfl, nofun⟩
  | cons request rest ih =>
    have hrest := fun r hr => hcandidates r (List.mem_cons_of_mem request hr)
    rw [performAll_cons] at h
    unfold carried
    rcases hperform : (({ s with job := request.job } : Scope).perform m request.task).result with
      (found | _) | after
    · rw [hperform] at h
      obtain ⟨hproblems, hcarried⟩ := ih h hrest
      rw [carried_withJob] at hcarried
      have hfound := perform_explains (hcandidates request List.mem_cons_self) found hperform
      split at hproblems
      · rename_i hweak
        refine ⟨hproblems, fun r hr hstrong => ?_⟩
        rcases List.mem_cons.1 hr with rfl | hr
        · rw [hweak] at hstrong
          cases hstrong
        · exact hcarried r hr hstrong
      · exact absurd (Problem.insertAll_eq_nil_iff.1 hproblems).2 hfound
    · rw [hperform] at h
      cases h
    · rw [hperform] at h
      obtain ⟨hproblems, hcarried⟩ := ih h hrest
      rw [carried_withJob] at hcarried
      refine ⟨hproblems, fun r hr hstrong => ?_⟩
      rcases List.mem_cons.1 hr with rfl | hr
      · exact ⟨_, List.mem_cons_self, rfl⟩
      · obtain ⟨c, hc, hrequest⟩ := hcarried r hr hstrong
        exact ⟨c, List.mem_cons_of_mem _ hc, hrequest⟩

end Scope

end Provision.Solver
