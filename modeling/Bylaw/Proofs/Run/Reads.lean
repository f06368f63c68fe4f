import Bylaw.Run
import Mathlib.Tactic.Common

/-! The paths that conditions and values read. Main statements: whether a rule matches, and the
value of an expression without calls, are the same in records that agree on those paths. -/

namespace Bylaw

variable {σ : Type}

/-- The paths of a template's placeholders. -/
def Template.reads (t : Template) : List FieldPath :=
  t.parts.filterMap fun
    | .field path => some path
    | .text _ => none

def Operand.reads : Operand → List FieldPath
  | .field path => [path]
  | _ => []

/-- The paths that a clause reads. -/
def Clause.reads : Clause → List FieldPath
  | .compare left _ right => left.reads ++ right.reads
  | .present field _ => [field]
  | .fits field _ _ => [field]
  | .contains field needle _ => field :: needle.reads

namespace Expr

mutual

/-- The paths that an expression reads. -/
def reads : Expr → List FieldPath
  | .literal _ => []
  | .template t => t.reads
  | .field path => [path]
  | .today _ => []
  | .binary _ left right => reads left ++ reads right
  | .call _ args => readsOfArgs args

def readsOfArgs : List Expr → List FieldPath
  | [] => []
  | e :: es => reads e ++ readsOfArgs es

end

/-- Whether an expression calls no handler. -/
def IsCallFree (e : Expr) : Prop := e.handlers = []

instance (e : Expr) : Decidable e.IsCallFree := inferInstanceAs (Decidable (e.handlers = []))

theorem isCallFree_binary {op : ArithOp} {left right : Expr} :
    (Expr.binary op left right).IsCallFree ↔ left.IsCallFree ∧ right.IsCallFree := by
  simp [IsCallFree, handlers]

theorem not_isCallFree_call {handler : String} {args : List Expr} :
    ¬(Expr.call handler args).IsCallFree := by simp [IsCallFree, handlers]

end Expr

/-- The paths that the condition of a rule reads. -/
def Rule.conditionReads (rule : Rule) : List FieldPath :=
  (rule.condition.getD []).flatMap Clause.reads

/-- Records with the same values at some paths. -/
def Json.AgreeOn (paths : List FieldPath) (record other : Json) : Prop :=
  ∀ path ∈ paths, path.lookup? record = path.lookup? other

theorem Json.AgreeOn.refl (paths : List FieldPath) (record : Json) :
    AgreeOn paths record record := fun _ _ => rfl

section

variable {record other : Json}

@[simp] theorem Json.agreeOn_append {paths more : List FieldPath} :
    Json.AgreeOn (paths ++ more) record other ↔
      Json.AgreeOn paths record other ∧ Json.AgreeOn more record other := by
  simp only [AgreeOn, List.mem_append, or_imp, forall_and]

@[simp] theorem Json.agreeOn_cons {path : FieldPath} {more : List FieldPath} :
    Json.AgreeOn (path :: more) record other ↔
      path.lookup? record = path.lookup? other ∧ Json.AgreeOn more record other := by
  simp only [AgreeOn, List.mem_cons, forall_eq_or_imp]

@[simp] theorem Json.agreeOn_nil : Json.AgreeOn [] record other := fun _ h => nomatch h

theorem Template.render_congr {t : Template} (h : Json.AgreeOn t.reads record other) :
    t.render record = t.render other := by
  rw [render, render]
  congr 1
  apply List.map_congr_left
  intro part hp
  cases part with
  | text s => rfl
  | field path =>
    have hmem : path ∈ t.reads := List.mem_filterMap.mpr ⟨_, hp, rfl⟩
    rw [Part.render, Part.render, h path hmem]

theorem Template.renderValue_congr {t : Template} (h : Json.AgreeOn t.reads record other) :
    t.renderValue record = t.renderValue other := by
  unfold renderValue
  split
  · rename_i path hparts
    have hmem : path ∈ t.reads := List.mem_filterMap.mpr ⟨.field path, by simp [hparts], rfl⟩
    rw [h path hmem]
  · rw [render_congr h]

variable (facts : RequestFacts) (today : Date)

theorem Scope.resolve?_congr {path : FieldPath} (h : path.lookup? record = path.lookup? other) :
    Scope.resolve? ⟨record, facts, today⟩ path = Scope.resolve? ⟨other, facts, today⟩ path := by
  simp only [resolve?, h]

theorem Operand.resolve_congr {operand : Operand} (h : Json.AgreeOn operand.reads record other) :
    operand.resolve ⟨record, facts, today⟩ = operand.resolve ⟨other, facts, today⟩ := by
  cases operand with
  | literal v => rfl
  | field path =>
    obtain ⟨h, -⟩ := Json.agreeOn_cons.mp h
    simp only [resolve, Scope.resolve?_congr facts today h]
  | today offset => rfl

theorem Clause.evaluate_congr {c : Clause} (h : Json.AgreeOn c.reads record other) :
    c.evaluate ⟨record, facts, today⟩ = c.evaluate ⟨other, facts, today⟩ := by
  cases c with
  | compare left op right =>
    obtain ⟨hl, hr⟩ := Json.agreeOn_append.mp h
    simp only [evaluate, compareOperands, Operand.resolve_congr facts today hl,
      Operand.resolve_congr facts today hr]
  | present field negated =>
    obtain ⟨h, -⟩ := Json.agreeOn_cons.mp h
    simp only [evaluate, Scope.resolve?_congr facts today h]
  | fits field pattern negated =>
    obtain ⟨h, -⟩ := Json.agreeOn_cons.mp h
    simp only [evaluate, Scope.resolve?_congr facts today h]
  | contains field needle negated =>
    obtain ⟨hf, hn⟩ := Json.agreeOn_cons.mp h
    simp only [evaluate, Scope.resolve?_congr facts today hf, Operand.resolve_congr facts today hn]

theorem Clause.holds_congr {c : Clause} (h : Json.AgreeOn c.reads record other) :
    c.holds ⟨record, facts, today⟩ = c.holds ⟨other, facts, today⟩ := by
  rw [holds, holds, evaluate_congr facts today h]

theorem Rule.isMet_clauseCriterion_congr {c : Clause} (h : Json.AgreeOn c.reads record other) :
    (clauseCriterion c).isMet (Clause.holds ⟨record, facts, today⟩) =
      (clauseCriterion c).isMet (Clause.holds ⟨other, facts, today⟩) := by
  unfold clauseCriterion
  split
  · rename_i field
    have hp : Json.AgreeOn (Clause.present field false).reads record other := h
    simp only [Criterion.isMet, Clause.holds_congr facts today hp]
  · simp only [Criterion.isMet, Clause.holds_congr facts today h]

theorem Rule.isMatch_congr {rule : Rule} (h : Json.AgreeOn rule.conditionReads record other) :
    rule.isMatch ⟨record, facts, today⟩ = rule.isMatch ⟨other, facts, today⟩ := by
  rw [isMatch, isMatch, criterion]
  cases hc : rule.condition with
  | none => rfl
  | some clauses =>
    simp only [Criterion.isMet_all, List.all_map]
    have hparts : clauses.map (Criterion.isMet (Clause.holds ⟨record, facts, today⟩) ∘
        clauseCriterion) = clauses.map (Criterion.isMet (Clause.holds ⟨other, facts, today⟩) ∘
        clauseCriterion) := by
      apply List.map_congr_left
      intro c hmem
      apply isMet_clauseCriterion_congr
      intro path hp
      exact h path (List.mem_flatMap.mpr ⟨c, by rw [hc]; exact hmem, hp⟩)
    simpa only [List.all_map, Function.id_comp] using congrArg (List.all · id) hparts

end

/-- An expression without calls leaves every trail alone, and has one value in records that agree
on what it reads, or fails in both to be evaluated. -/
theorem Expr.eval_congr (ctx : Context σ) {record other : Json} :
    (e : Expr) → e.IsCallFree → Json.AgreeOn e.reads record other →
      ∃ result : Except EvalError Json, ∀ t : Trail σ,
        e.eval ctx record t = (result.mapError .evaluation, t) ∧
        e.eval ctx other t = (result.mapError .evaluation, t)
  | .literal v, _, _ => ⟨.ok v, fun t => ⟨by rw [eval]; rfl, by rw [eval]; rfl⟩⟩
  | .template p, _, h =>
    ⟨.ok (p.renderValue record), fun t => ⟨by rw [eval]; rfl, by
      rw [eval, ← Template.renderValue_congr h]; rfl⟩⟩
  | .field path, _, h => by
    obtain ⟨h, -⟩ := Json.agreeOn_cons.mp h
    refine ⟨.ok (((ctx.scope record).resolve? path).getD .null), fun t => ⟨by rw [eval]; rfl, ?_⟩⟩
    rw [eval, Context.scope, Context.scope, Scope.resolve?_congr ctx.facts ctx.today h]
    rfl
  | .today offset, _, _ => by
    refine ⟨(shiftDate ctx.today offset).map .ofDate, fun t => ⟨?_, ?_⟩⟩ <;>
    · simp only [eval]
      cases shiftDate ctx.today offset <;> rfl
  | .binary op left right, hf, h => by
    obtain ⟨hfl, hfr⟩ := isCallFree_binary.mp hf
    obtain ⟨hl, hr⟩ := Json.agreeOn_append.mp (by simpa only [reads] using h)
    -- The first operand that fails decides, in both records alike.
    obtain ⟨v, hv⟩ := eval_congr ctx left hfl hl
    cases v with
    | error e => exact ⟨.error e, fun t => by simp only [eval, hv]; exact ⟨rfl, rfl⟩⟩
    | ok v =>
      obtain ⟨w, hw⟩ := eval_congr ctx right hfr hr
      cases w with
      | error e => exact ⟨.error e, fun t => by simp only [eval, hv, hw]; exact ⟨rfl, rfl⟩⟩
      | ok w =>
        refine ⟨op.apply v w, fun t => ?_⟩
        simp only [eval, hv, hw, Except.mapError]
        cases op.apply v w <;> exact ⟨rfl, rfl⟩
  | .call handler args, hf, _ => absurd hf not_isCallFree_call

end Bylaw
