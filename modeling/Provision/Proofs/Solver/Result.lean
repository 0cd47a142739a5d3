import Provision.Solver.Search

/-!
# Results of searches

What a search that ends with a value has done, read off its last operation: a sequence found a
value at each of its parts (`result_bind_eq_ok`), an alternative found it on one of its sides
(`result_orElse_eq_ok`), and the first success is a success (`result_firstSuccess_eq_ok`). Log
lines play no part in results.
-/

namespace Provision

/-! ## Lists of problems -/

theorem Problem.insertInto_ne_nil (problems : List Problem) (p : Problem) :
    insertInto problems p ≠ [] := by
  unfold insertInto
  split
  · rintro rfl
    rename_i hany
    cases hany
  · exact List.append_ne_nil_of_right_ne_nil problems (List.cons_ne_nil p [])

theorem Problem.insertAll_eq_nil_iff {problems more : List Problem} :
    insertAll problems more = [] ↔ problems = [] ∧ more = [] := by
  induction more generalizing problems with
  | nil =>
    unfold insertAll
    rw [List.foldl_nil]
    exact ⟨fun h => ⟨h, rfl⟩, And.left⟩
  | cons p rest ih =>
    have hinsert : insertAll problems (p :: rest) = insertAll (insertInto problems p) rest := rfl
    rw [hinsert, ih]
    constructor
    · rintro ⟨h, -⟩
      exact absurd h (insertInto_ne_nil problems p)
    · rintro ⟨-, h⟩
      cases h

theorem Problem.mem_insertInto_of_mem {problems : List Problem} {p q : Problem}
    (h : p ∈ problems) : p ∈ insertInto problems q := by
  unfold insertInto
  split
  · exact h
  · exact List.mem_append_left [q] h

theorem Problem.exists_same_insertInto (problems : List Problem) (p : Problem) :
    ∃ q ∈ insertInto problems p, q.Same p := by
  unfold insertInto
  split
  · rename_i hany
    obtain ⟨q, hq, hsame⟩ := List.any_eq_true.1 hany
    exact ⟨q, hq, of_decide_eq_true hsame⟩
  · exact ⟨p, List.mem_append_right problems List.mem_cons_self, rfl, rfl, rfl⟩

/-- Inserting loses no problem. -/
theorem Problem.mem_insertAll_of_mem {problems more : List Problem} {p : Problem}
    (h : p ∈ problems) : p ∈ insertAll problems more := by
  induction more generalizing problems with
  | nil => exact h
  | cons q rest ih => exact ih (mem_insertInto_of_mem h)

/-- What is inserted is there afterwards, or the same problem was there before. -/
theorem Problem.exists_same_insertAll {problems more : List Problem} {p : Problem}
    (h : p ∈ more) : ∃ q ∈ insertAll problems more, q.Same p := by
  induction more generalizing problems with
  | nil => cases h
  | cons r rest ih =>
    rcases List.mem_cons.1 h with rfl | h
    · obtain ⟨q, hq, hsame⟩ := exists_same_insertInto problems p
      have hkept : q ∈ insertAll (insertInto problems p) rest := mem_insertAll_of_mem hq
      exact ⟨q, hkept, hsame⟩
    · exact ih h

/-- What a list holds after an insertion was there before or was inserted. -/
theorem Problem.mem_of_mem_insertAll {problems more : List Problem} {p : Problem}
    (h : p ∈ insertAll problems more) : p ∈ problems ∨ p ∈ more := by
  induction more generalizing problems with
  | nil => exact .inl h
  | cons q rest ih =>
    have h : p ∈ insertAll (insertInto problems q) rest := h
    rcases ih h with hp | hp
    · unfold insertInto at hp
      split at hp
      · exact .inl hp
      · rcases List.mem_append.1 hp with hp | hp
        · exact .inl hp
        · rw [List.mem_singleton.1 hp]
          exact .inr List.mem_cons_self
    · exact .inr (List.mem_cons_of_mem q hp)

/-- No problem of the list is the same as an earlier one. -/
def Problem.Distinct (problems : List Problem) : Prop := problems.Pairwise fun p q => ¬ p.Same q

theorem Problem.Distinct.insertInto {problems : List Problem} (h : Distinct problems)
    (p : Problem) : Distinct (insertInto problems p) := by
  unfold Problem.insertInto
  split
  · exact h
  · rename_i hnew
    refine List.pairwise_append.2 ⟨h, List.pairwise_singleton _ p, fun q hq r hr hsame => hnew ?_⟩
    rw [List.mem_singleton.1 hr] at hsame
    exact List.any_eq_true.2 ⟨q, hq, decide_eq_true hsame⟩

/-- Inserting repeats no problem. -/
theorem Problem.Distinct.insertAll {problems : List Problem} (h : Distinct problems)
    (more : List Problem) : Distinct (insertAll problems more) := by
  induction more generalizing problems with
  | nil => exact h
  | cons p rest ih => exact ih (h.insertInto p)

/-! ## Results -/

namespace Solver.Search

variable {α β : Type}

@[simp] theorem result_pure (a : α) : (pure a : Search α).result = .ok a := rfl

@[simp] theorem result_refuse (problems : List Problem) :
    (refuse problems : Search α).result = .error (.problems problems) := rfl

@[simp] theorem result_unfinished :
    (throw Refusal.unfinished : Search α).result = .error .unfinished := rfl

@[simp] theorem result_debug (text : String) : (debug text).result = .ok () := rfl

theorem result_bind (x : Search α) (f : α → Search β) :
    (x >>= f).result =
      match x.result with
      | .ok a => (f a).result
      | .error e => .error e := by
  show (ExceptT.run (x >>= f)).value = _
  rw [ExceptT.run_bind, Traced.value_bind]
  show _ = match (ExceptT.run x).value with
    | .ok a => (ExceptT.run (f a)).value
    | .error e => .error e
  cases (ExceptT.run x).value <;> rfl

theorem result_bind_eq_ok {x : Search α} {f : α → Search β} {b : β} :
    (x >>= f).result = .ok b ↔ ∃ a, x.result = .ok a ∧ (f a).result = .ok b := by
  rw [result_bind]
  cases x.result <;> simp

@[simp] theorem result_debug_bind (text : String) (f : Unit → Search β) :
    (debug text >>= f).result = (f ()).result := by
  rw [result_bind, result_debug]

theorem result_orElse (x : Search α) (next : List Problem → Search α) :
    (orElse x next).result =
      match x.result with
      | .error (.problems found) => (next found).result
      | outcome => outcome := by
  show (ExceptT.run (orElse x next)).value = match (ExceptT.run x).value with
    | .error (.problems found) => (ExceptT.run (next found)).value
    | outcome => outcome
  unfold orElse
  rw [ExceptT.run_mk, Traced.value_bind]
  rcases (ExceptT.run x).value with (_ | _) | _ <;> rfl

theorem result_orElse_eq_ok {x : Search α} {next : List Problem → Search α} {a : α}
    (h : (orElse x next).result = .ok a) :
    x.result = .ok a ∨ ∃ found, (next found).result = .ok a := by
  rw [result_orElse] at h
  split at h
  · exact .inr ⟨_, h⟩
  · exact .inl h

/-- The first success is the success of one of the trials. -/
theorem result_firstSuccess_eq_ok {trial : Package → Search α} {p : Package} {a : α} :
    ∀ {packages : List Package} {first : Option (List Problem)},
      (firstSuccess trial first packages).result = .ok (p, a) →
        p ∈ packages ∧ (trial p).result = .ok a := by
  intro packages
  induction packages with
  | nil =>
    intro first h
    simp [firstSuccess] at h
  | cons q rest ih =>
    intro first h
    unfold firstSuccess at h
    rcases result_orElse_eq_ok h with h | ⟨found, h⟩
    · obtain ⟨b, hb, heq⟩ := result_bind_eq_ok.1 h
      simp only [result_pure, Except.ok.injEq, Prod.mk.injEq] at heq
      obtain ⟨rfl, rfl⟩ := heq
      exact ⟨List.mem_cons_self, hb⟩
    · obtain ⟨hmem, ha⟩ := ih h
      exact ⟨List.mem_cons_of_mem _ hmem, ha⟩

end Solver.Search

end Provision
