import Bylaw.Evaluation
import Bylaw.Reply

/-! Handlers: what rules call by name. A handler answers a call and may change the world, which is
of whatever type its catalog is for. -/

namespace Bylaw

/-- A call of a handler on behalf of a record. -/
structure Invocation where
  handler : String
  entity : String
  event : Event
  record : Json
  params : Json
  facts : RequestFacts

namespace Invocation

def arg? (inv : Invocation) (index : Nat) : Option Json := inv.params.item? index

def param? (inv : Invocation) (name : String) : Option Json := inv.params.field? name

end Invocation

/-- The answer to a call: a value, and perhaps a change of the reply. -/
structure Output where
  value : Json := .null
  response : Option Patch := none
  deriving Inhabited

/-- Why an action came to nothing. -/
inductive ActionError where
  | unknownHandler (name : String)
  | handler (name : String) (reason : String)
  | evaluation (e : EvalError)
  | assignment (field : FieldPath)

def ActionError.message : ActionError → String
  | .unknownHandler name => s!"unknown action handler '{name}'"
  | .handler name reason => s!"handler '{name}' failed: {reason}"
  | .evaluation e => "evaluation failed: " ++ e.message
  | .assignment field => "cannot assign field '" ++ field.text ++ "'"

/-- A handler answers a call in a world, and leaves a world behind. -/
abbrev Handler (σ : Type) := Invocation → σ → Except ActionError Output × σ

/-- The handlers by name. -/
structure Catalog (σ : Type) where
  handlers : Keyed (Handler σ) := []

namespace Catalog

variable {σ : Type}

def find? (catalog : Catalog σ) (name : String) : Option (Handler σ) :=
  Keyed.get? name catalog.handlers

def contains (catalog : Catalog σ) (name : String) : Bool := (catalog.find? name).isSome

def names (catalog : Catalog σ) : List String := Keyed.names catalog.handlers

def register (catalog : Catalog σ) (name : String) (handler : Handler σ) : Catalog σ :=
  ⟨Keyed.insert name handler catalog.handlers⟩

/-- The answer to a call; one that no handler takes leaves the world as it is. -/
def call (catalog : Catalog σ) (inv : Invocation) (world : σ) : Except ActionError Output × σ :=
  match catalog.find? inv.handler with
  | some handler => handler inv world
  | none => (.error (.unknownHandler inv.handler), world)

/-- Makes calls whose answers nobody waits for, in order. -/
def settle (catalog : Catalog σ) (calls : List Invocation) (world : σ) : σ :=
  calls.foldl (fun world inv => (catalog.call inv world).2) world

/-- The handlers that rules call and the catalog lacks, in increasing order, each once. -/
def missing (catalog : Catalog σ) (rules : List Rule) : List String :=
  Keyed.sortedNames ((rules.flatMap Rule.handlers).filter fun name => !catalog.contains name)

/-- The answers of the handlers do not hang on the world. -/
def Stateless (catalog : Catalog σ) : Prop :=
  ∀ name handler, catalog.find? name = some handler →
    ∀ inv world other, (handler inv world).1 = (handler inv other).1

theorem find?_register_self (catalog : Catalog σ) (name : String) (handler : Handler σ) :
    (catalog.register name handler).find? name = some handler := by
  simp [register, find?]

theorem find?_register_of_ne (catalog : Catalog σ) {name other : String} (h : other ≠ name)
    (handler : Handler σ) : (catalog.register name handler).find? other = catalog.find? other := by
  simp [register, find?, Keyed.get?_insert_of_ne h]

end Catalog

end Bylaw
