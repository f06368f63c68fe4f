import Bylaw.Catalog

/-! Runs: the rules of an event carried out on records, one rule after the other, one action after
the other. Notifications and messages to other systems are set aside and called when the run is
over, so that nothing they answer can bear on it. -/

namespace Bylaw

variable {σ : Type}

/-- The circumstances of a run. -/
structure Context (σ : Type) where
  catalog : Catalog σ
  event : Event
  entity : String
  facts : RequestFacts
  today : Date

namespace Context

def scope (ctx : Context σ) (record : Json) : Scope := ⟨record, ctx.facts, ctx.today⟩

def invocation (ctx : Context σ) (handler : String) (record params : Json) : Invocation :=
  ⟨handler, ctx.entity, ctx.event, record, params, ctx.facts⟩

end Context

/-- What calls leave behind: the world, the calls that were made, and the patches that were
answered, in order. -/
structure Trail (σ : Type) where
  world : σ
  calls : List Invocation := []
  patches : List Patch := []

/-- Makes a call. Its patch is kept, and it is the value that counts. -/
def Trail.call (trail : Trail σ) (catalog : Catalog σ) (inv : Invocation) :
    Except ActionError Json × Trail σ :=
  match catalog.find? inv.handler with
  | none => (.error (.unknownHandler inv.handler), trail)
  | some handler =>
    match handler inv trail.world with
    | (.ok output, world) =>
      (.ok output.value, ⟨world, trail.calls ++ [inv], trail.patches ++ output.response.toList⟩)
    | (.error e, world) => (.error e, ⟨world, trail.calls ++ [inv], trail.patches⟩)

namespace Expr

mutual

/-- The value of an expression: left operands before right ones, arguments before their call. The
first failure ends the evaluation, and what was called until then stays called. -/
def eval (ctx : Context σ) (record : Json) : Expr → Trail σ → Except ActionError Json × Trail σ
  | .literal v, trail => (.ok v, trail)
  | .template t, trail => (.ok (t.renderValue record), trail)
  -- An absent field counts as null.
  | .field path, trail => (.ok (((ctx.scope record).resolve? path).getD .null), trail)
  | .today offset, trail =>
    match shiftDate ctx.today offset with
    | .ok date => (.ok (.ofDate date), trail)
    | .error e => (.error (.evaluation e), trail)
  | .binary op left right, trail =>
    match eval ctx record left trail with
    | (.error e, trail) => (.error e, trail)
    | (.ok v, trail) =>
      match eval ctx record right trail with
      | (.error e, trail) => (.error e, trail)
      | (.ok w, trail) =>
        match op.apply v w with
        | .ok result => (.ok result, trail)
        | .error e => (.error (.evaluation e), trail)
  | .call handler args, trail =>
    match evalArgs ctx record args trail with
    | (.error e, trail) => (.error e, trail)
    | (.ok params, trail) =>
      trail.call ctx.catalog (ctx.invocation handler record (.arr params))

def evalArgs (ctx : Context σ) (record : Json) :
    List Expr → Trail σ → Except ActionError (List Json) × Trail σ
  | [], trail => (.ok [], trail)
  | e :: es, trail =>
    match eval ctx record e trail with
    | (.error err, trail) => (.error err, trail)
    | (.ok v, trail) =>
      match evalArgs ctx record es trail with
      | (.error err, trail) => (.error err, trail)
      | (.ok vs, trail) => (.ok (v :: vs), trail)

end

end Expr

/-- What the records of a run share: the world, the reply, the calls that were made, and the calls
that were set aside. -/
structure Session (σ : Type) where
  world : σ
  reply : Reply := {}
  calls : List Invocation := []
  detached : List Invocation := []

/-- A record in the course of a run. -/
structure Draft where
  record : Json
  excluded : Bool := false
  terminated : Bool := false

/-- How a run goes on after an action. -/
inductive Verdict where
  | proceed
  | terminate
  | unknown (handler : String)
  deriving DecidableEq

/-- What an action or a rule makes of a record and a session. -/
structure Step (σ : Type) where
  draft : Draft
  session : Session σ
  verdict : Verdict

/-- A call of a handler that does not exist ends the run; any other failure leaves it to go on. -/
def ActionError.verdict (otherwise : Verdict) : ActionError → Verdict
  | .unknownHandler name => .unknown name
  | _ => otherwise

namespace Session

/-- The trail that calls in a session begin with. -/
def trail (s : Session σ) : Trail σ := ⟨s.world, s.calls, []⟩

/-- The session after a trail's calls: their patches change the reply, in order. -/
def absorb (s : Session σ) (trail : Trail σ) : Session σ :=
  ⟨trail.world, s.reply.merge trail.patches, trail.calls, s.detached⟩

/-- A run is over for a record when its calls terminate the reply. -/
def verdictAfter (s after : Session σ) : Verdict :=
  if !s.reply.terminated && after.reply.terminated then .terminate else .proceed

end Session

namespace Context

/-- Sets a field. A field that cannot be set is left alone, and what the value's calls answered
counts even if there is no value. -/
def setField (ctx : Context σ) (field : FieldPath) (value : Expr) (draft : Draft)
    (s : Session σ) : Step σ :=
  let (result, trail) := value.eval ctx draft.record s.trail
  -- The calls have been made, so their patches count also if the field cannot be set.
  let after := s.absorb trail
  let assigned : Except ActionError Json :=
    match result with
    | .error e => .error e
    | .ok v =>
      match field.assign? draft.record v with
      | some record => .ok record
      | none => .error (.assignment field)
  match assigned with
  | .ok record => ⟨{ draft with record }, after, s.verdictAfter after⟩
  | .error e => ⟨draft, after, e.verdict (s.verdictAfter after)⟩

/-- Calls a handler, and lets its patch change the reply. -/
def await (ctx : Context σ) (handler : String) (params : Json) (draft : Draft) (s : Session σ) :
    Step σ :=
  let (result, trail) := s.trail.call ctx.catalog (ctx.invocation handler draft.record params)
  let after := s.absorb trail
  match result with
  | .ok _ => ⟨draft, after, s.verdictAfter after⟩
  | .error e => ⟨draft, after, e.verdict .proceed⟩

def detach (ctx : Context σ) (handler : String) (params : Json) (draft : Draft) (s : Session σ) :
    Step σ :=
  if ctx.catalog.contains handler then
    let inv := ctx.invocation handler draft.record params
    ⟨draft, { s with detached := s.detached ++ [inv] }, .proceed⟩
  else ⟨draft, s, .unknown handler⟩

end Context

namespace Action

def perform (ctx : Context σ) (draft : Draft) (s : Session σ) : Action → Step σ
  | .update field value => ctx.setField field value draft s
  | .notify message =>
    ctx.detach notifyHandler (.ofFields [("message", .str (message.render draft.record))]) draft s
  | .delete => ⟨{ draft with excluded := true }, s, .proceed⟩
  | .create kind payload =>
    ctx.await createHandler
      (.ofFields [("kind", .str kind), ("data", payload.render draft.record)]) draft s
  | .send subject handler =>
    ctx.detach handler (.ofFields [("subject", .str subject)]) draft s
  | .invoke handler args => ctx.await handler (.arr args) draft s
  | .stop => ⟨draft, { s with reply := s.reply.terminate }, .terminate⟩

/-- Carries out actions until one of them ends the record's run. -/
def performAll (ctx : Context σ) : List Action → Draft → Session σ → Step σ
  | [], draft, s => ⟨draft, s, .proceed⟩
  | action :: rest, draft, s =>
    let step := action.perform ctx draft s
    match step.verdict with
    | .proceed => performAll ctx rest step.draft step.session
    | .terminate => ⟨{ step.draft with terminated := true }, step.session, .terminate⟩
    | .unknown handler => ⟨step.draft, step.session, .unknown handler⟩

end Action

def Rule.perform (ctx : Context σ) (rule : Rule) (draft : Draft) (s : Session σ) : Step σ :=
  Action.performAll ctx rule.actions draft s

/-- The run of a record: the last step, and the number of rules that matched. -/
structure Run (σ : Type) extends Step σ where
  matched : Nat

namespace Run

/-- Asks the rules in order, and carries out those that match, until one of them ends the run. -/
def ofRules (ctx : Context σ) : List Rule → Draft → Session σ → Run σ
  | [], draft, s => ⟨⟨draft, s, .proceed⟩, 0⟩
  | rule :: rest, draft, s =>
    if rule.isMatch (ctx.scope draft.record) then
      let step := rule.perform ctx draft s
      match step.verdict with
      | .proceed =>
        let run := ofRules ctx rest step.draft step.session
        { run with matched := run.matched + 1 }
      | _ => ⟨step, 1⟩
    else ofRules ctx rest draft s

def ofRecord (ctx : Context σ) (rules : List Rule) (record : Json) (s : Session σ) : Run σ :=
  ofRules ctx rules { record } s

end Run

/-- The runs of the records of a batch: the records that remain, how many were excluded, how many
times a rule matched a record, and the handler without which the batch cannot go on. -/
structure Batch (σ : Type) where
  records : List Json
  excluded : Nat
  matched : Nat
  session : Session σ
  unknown? : Option String

namespace Batch

/-- The batch with one more run before it. An excluded record is left out. -/
def prepend (run : Run σ) (batch : Batch σ) : Batch σ :=
  { batch with
    records := if run.draft.excluded then batch.records else run.draft.record :: batch.records
    excluded := batch.excluded + if run.draft.excluded then 1 else 0
    matched := batch.matched + run.matched }

/-- Runs records one after the other. If `stops`, the first record that is terminated is the last
one to be run, and the others stay as they are. -/
def ofRecords (ctx : Context σ) (rules : List Rule) (stops : Bool) :
    List Json → Session σ → Batch σ
  | [], s => ⟨[], 0, 0, s, none⟩
  | record :: rest, s =>
    let run := Run.ofRecord ctx rules record s
    match run.verdict with
    | .unknown handler => ⟨[], 0, run.matched, run.session, some handler⟩
    | _ =>
      if stops && run.draft.terminated then prepend run ⟨rest, 0, 0, run.session, none⟩
      else prepend run (ofRecords ctx rules stops rest run.session)

end Batch

end Bylaw
