import Bylaw.Evaluation

/-! Whether a rule matches, against what its clauses come to. Tests that fail are taken for tests
that do not hold, at the leaves of a criterion; under a negation that would make a failure a match.
Main statement: no failure stands under a negation in the criterion of a rule, so that a rule
matches exactly if each of its clauses evaluates to true. -/

namespace Bylaw

namespace Criterion

variable {α ε : Type}

/-- Induction on the nesting of a criterion. -/
@[elab_as_elim]
theorem nesting {motive : Criterion α → Prop} (always : motive .always)
    (leaf : ∀ test, motive (.leaf test)) (not : ∀ c, motive c → motive (.not c))
    (all : ∀ cs, (∀ c ∈ cs, motive c) → motive (.all cs)) (c : Criterion α) : motive c :=
  @Criterion.rec α motive (fun cs => ∀ c ∈ cs, motive c) always leaf not all nofun
    (fun _ _ hc hcs => List.forall_mem_cons.mpr ⟨hc, hcs⟩) c

mutual

/-- What a criterion comes to if a test that fails makes the whole fail. Parts of a conjunction are
asked up to the first that is not met. -/
def outcome (test : α → Except ε Bool) : Criterion α → Except ε Bool
  | .always => .ok true
  | .leaf t => test t
  | .not c => (outcome test c).map (!·)
  | .all cs => outcomeOfAll test cs

def outcomeOfAll (test : α → Except ε Bool) : List (Criterion α) → Except ε Bool
  | [] => .ok true
  | c :: cs =>
    match outcome test c with
    | .ok true => outcomeOfAll test cs
    | result => result

end

mutual

/-- The tests of a criterion, in order. -/
def tests : Criterion α → List α
  | .always => []
  | .leaf t => [t]
  | .not c => tests c
  | .all cs => testsOfAll cs

def testsOfAll : List (Criterion α) → List α
  | [] => []
  | c :: cs => tests c ++ testsOfAll cs

end

mutual

/-- The tests under a negation. -/
def negated : Criterion α → List α
  | .always => []
  | .leaf _ => []
  | .not c => tests c
  | .all cs => negatedOfAll cs

def negatedOfAll : List (Criterion α) → List α
  | [] => []
  | c :: cs => negated c ++ negatedOfAll cs

end

theorem mem_negatedOfAll {t : α} {cs : List (Criterion α)} :
    t ∈ negatedOfAll cs ↔ ∃ c ∈ cs, t ∈ negated c := by
  induction cs with
  | nil => simp [negatedOfAll]
  | cons c cs ih => simp [negatedOfAll, ih]

variable {test : α → Except ε Bool} {holds : α → Bool}

theorem outcomeOfAll_cons_of_ok {c : Criterion α} {b : Bool} (h : outcome test c = .ok b)
    (cs : List (Criterion α)) :
    outcomeOfAll test (c :: cs) = if b then outcomeOfAll test cs else .ok false := by
  rw [outcomeOfAll, h]
  cases b <;> rfl

theorem outcome_all_eq_true {cs : List (Criterion α)} :
    outcome test (.all cs) = .ok true ↔ ∀ c ∈ cs, outcome test c = .ok true := by
  rw [outcome]
  induction cs with
  | nil => simp [outcomeOfAll]
  | cons c cs ih =>
    rw [List.forall_mem_cons, ← ih, outcomeOfAll]
    match outcome test c with
    | .ok true => simp
    | .ok false => simp
    | .error e => simp

/-- Without failures, a criterion comes to whether it is met. -/
theorem outcome_eq_ok {c : Criterion α} (h : ∀ t ∈ tests c, test t = .ok (holds t)) :
    outcome test c = .ok (isMet holds c) := by
  induction c using nesting with
  | always => rw [outcome, isMet]
  | leaf t => rw [outcome, isMet, h t (by simp [tests])]
  | not c ih =>
    rw [tests] at h
    rw [outcome, ih h, isMet]
    rfl
  | all cs ih =>
    rw [tests] at h
    rw [outcome, isMet]
    induction cs with
    | nil => rw [outcomeOfAll, areMet]
    | cons c cs ihs =>
      obtain ⟨hc, hcs⟩ := List.forall_mem_cons.mp ih
      rw [testsOfAll, List.forall_mem_append] at h
      rw [outcomeOfAll_cons_of_ok (hc h.1), ihs hcs h.2, areMet]
      cases isMet holds c <;> rfl

/-- Failures that do not stand under a negation are as well taken for tests that do not hold. -/
theorem isMet_iff_outcome (hh : ∀ t, holds t = true ↔ test t = .ok true) {c : Criterion α}
    (hn : ∀ t ∈ negated c, ∃ b, test t = .ok b) :
    isMet holds c = true ↔ outcome test c = .ok true := by
  induction c using nesting with
  | always => simp [isMet, outcome]
  | leaf t => rw [isMet, outcome, hh]
  | not c _ =>
    -- No test of the negated part fails, so that its outcome is known.
    have hok : ∀ t ∈ tests c, test t = .ok (holds t) := by
      intro t ht
      obtain ⟨b, hb⟩ := hn t (by rwa [negated])
      have hht := hh t
      rw [hb] at hht ⊢
      cases b <;> cases hv : holds t <;> simp_all
    rw [isMet, outcome, outcome_eq_ok hok]
    simp [Except.map]
  | all cs ih =>
    rw [negated] at hn
    rw [isMet_all, List.all_eq_true, outcome_all_eq_true]
    refine forall₂_congr fun c hc => ih c hc fun t ht => ?_
    exact hn t (mem_negatedOfAll.mpr ⟨c, hc, ht⟩)

end Criterion

theorem Clause.holds_iff {scope : Scope} {c : Clause} :
    c.holds scope = true ↔ c.evaluate scope = .ok true := by
  rw [holds]
  cases c.evaluate scope <;> simp

namespace Rule

/-- The test that is asked for a clause. -/
def asserted : Clause → Clause
  | .present field true => .present field false
  | c => c

variable (scope : Scope)

theorem outcome_clauseCriterion (c : Clause) :
    (clauseCriterion c).outcome (Clause.evaluate scope) = c.evaluate scope := by
  unfold clauseCriterion
  split
  · simp [Criterion.outcome, Clause.evaluate, Except.map]
  · rw [Criterion.outcome]

theorem evaluate_of_mem_negated {c t : Clause} (h : t ∈ (clauseCriterion c).negated) :
    ∃ b, t.evaluate scope = .ok b := by
  unfold clauseCriterion at h
  split at h
  · rw [Criterion.negated, Criterion.tests, List.mem_singleton] at h
    subst h
    exact ⟨_, rfl⟩
  · rw [Criterion.negated] at h
    cases h

theorem evaluate_of_mem_negated_criterion {rule : Rule} {t : Clause}
    (h : t ∈ rule.criterion.negated) : ∃ b, t.evaluate scope = .ok b := by
  rw [criterion] at h
  split at h
  · rw [Criterion.negated] at h
    cases h
  · rw [Criterion.negated, Criterion.mem_negatedOfAll] at h
    obtain ⟨part, hpart, ht⟩ := h
    obtain ⟨c, -, rfl⟩ := List.mem_map.mp hpart
    exact evaluate_of_mem_negated scope ht

theorem isMet_clauseCriterion (c : Clause) :
    (clauseCriterion c).isMet (Clause.holds scope) = c.holds scope := by
  rw [Bool.eq_iff_iff, Criterion.isMet_iff_outcome (fun _ => Clause.holds_iff)
    (fun _ => evaluate_of_mem_negated scope), outcome_clauseCriterion, Clause.holds_iff]

theorem asked_clauseCriterion (c : Clause) :
    (clauseCriterion c).asked (Clause.holds scope) = [asserted c] := by
  unfold clauseCriterion
  split
  · rw [Criterion.asked, Criterion.asked, asserted]
  · rename_i hne
    rw [Criterion.asked, asserted]
    exact hne

/-- Clauses are asked in order, up to the first that does not hold. -/
theorem askedOf_clauses (clauses : List Clause) :
    Criterion.askedOf (Clause.holds scope) (clauses.map clauseCriterion) =
      (clauses.take (clauses.findIdx (fun c => !c.holds scope) + 1)).map asserted := by
  induction clauses with
  | nil => simp [Criterion.askedOf]
  | cons c clauses ih =>
    rw [List.map_cons, Criterion.askedOf, isMet_clauseCriterion, asked_clauseCriterion, ih,
      List.findIdx_cons]
    cases c.holds scope <;> simp

/-- Any rule in any scope. It matches exactly if it has no condition, or each clause of its
condition evaluates to true; and this is so exactly if its criterion comes to true when a clause
that cannot be evaluated makes the whole fail, under a negation too. So a rule with such a clause
does not match. The clauses are asked in the order in which they stand, up to the first that does
not hold. -/
theorem isMatch_iff_evaluate (rule : Rule) (scope : Scope) :
    (rule.isMatch scope = true ↔ rule.condition = none ∨ ∃ clauses,
      rule.condition = some clauses ∧ ∀ c ∈ clauses, c.evaluate scope = .ok true) ∧
    (rule.isMatch scope = true ↔ rule.criterion.outcome (Clause.evaluate scope) = .ok true) ∧
    ∀ clauses, rule.condition = some clauses →
      (∀ c ∈ clauses, ∀ e, c.evaluate scope = .error e → rule.isMatch scope = false) ∧
      rule.criterion.asked (Clause.holds scope) =
        (clauses.take (clauses.findIdx (fun c => !c.holds scope) + 1)).map asserted := by
  have houtcome : rule.isMatch scope = true ↔
      rule.criterion.outcome (Clause.evaluate scope) = .ok true :=
    Criterion.isMet_iff_outcome (fun _ => Clause.holds_iff)
      fun _ => evaluate_of_mem_negated_criterion scope
  have hclauses {clauses : List Clause} (h : rule.condition = some clauses) :
      rule.isMatch scope = true ↔ ∀ c ∈ clauses, c.evaluate scope = .ok true := by
    rw [houtcome, criterion, h, Criterion.outcome_all_eq_true, List.forall_mem_map]
    simp only [outcome_clauseCriterion]
  refine ⟨?_, houtcome, fun clauses h => ⟨fun c hc e he => ?_, ?_⟩⟩
  · cases h : rule.condition with
    | none => simp [isMatch, criterion, h, Criterion.isMet]
    | some clauses => simp [hclauses h]
  · rw [Bool.eq_false_iff]
    intro hm
    have hok := (hclauses h).mp hm c hc
    rw [he] at hok
    cases hok
  · rw [criterion, h, Criterion.asked, askedOf_clauses]

end Rule

end Bylaw
