import Bylaw.RuleSet
import Bylaw.Run

/-! The engine: a rule set, the handlers that it may call, and the processing of events. -/

namespace Bylaw

/-- Whether the end of one record's run ends the whole batch. -/
structure EngineConfig where
  stopsBatch : Bool := false
  deriving DecidableEq

/-- The settings written as an object, or as the list of its one field; further fields of an object
are ignored. -/
def EngineConfig.ofJson? : Json → Option EngineConfig
  | .obj fields =>
    match Keyed.get? "terminate_batch_on_end" fields with
    | none => some {}
    | some (.bool b) => some ⟨b⟩
    | some _ => none
  | .arr [] => some {}
  | .arr [.bool b] => some ⟨b⟩
  | _ => none

/-- Why rules cannot be installed or run. -/
inductive EngineError where
  | compile (e : CompileError)
  | unknownHandlers (names : List String)
  | unreadable (path : String) (reason : String)

namespace EngineError

def message : EngineError → String
  | .compile e => "compile error: " ++ e.message
  | .unknownHandlers names => "unknown action handler(s): " ++ joinWith ", " names
  | .unreadable path reason => s!"failed to read rules from {path}: {reason}"

/-- The status of an answer that reports the error. -/
def httpStatus : EngineError → Nat
  | .compile _ => 422
  | .unknownHandlers _ => 500
  | .unreadable _ _ => 500

end EngineError

/-- The rules in effect, the handlers they call, and the settings. -/
structure Engine (σ : Type) where
  catalog : Catalog σ
  rules : RuleSet := {}
  config : EngineConfig := {}

/-- What an event came to. A single record that was excluded is still there, and counted. -/
structure Outcome where
  data : Json
  reply : Reply := {}
  excluded : Nat := 0
  matched : Nat := 0

namespace Outcome

def isExcluded (o : Outcome) : Bool := o.excluded > 0

def isTerminated (o : Outcome) : Bool := o.reply.terminated

end Outcome

/-- The result of processing an event: the outcome or the error, the world as the calls left it,
the calls that were made, and those that are still to be made. -/
structure Processed (σ : Type) where
  outcome : Except EngineError Outcome
  world : σ
  calls : List Invocation := []
  detached : List Invocation := []

/-- What is processed: an event of an entity, and the facts of the request that it comes with. -/
structure Occasion where
  event : Event
  entity : String
  facts : RequestFacts := {}
  today : Date

namespace Engine

variable {σ : Type}

def check (catalog : Catalog σ) (source : String) : Except EngineError (List Rule) :=
  match Rule.compile source with
  | .error e => .error (.compile e)
  | .ok rules =>
    match catalog.missing rules with
    | [] => .ok rules
    | names => .error (.unknownHandlers names)

def load (engine : Engine σ) (source : String) : Except EngineError (Engine σ) :=
  match check engine.catalog source with
  | .error e => .error e
  | .ok rules => .ok { engine with rules := engine.rules.replace rules }

def context (engine : Engine σ) (occasion : Occasion) : Context σ :=
  ⟨engine.catalog, occasion.event, occasion.entity, occasion.facts, occasion.today⟩

/-- The rules that an occasion asks. -/
def rulesFor (engine : Engine σ) (occasion : Occasion) : List Rule :=
  engine.rules.rulesFor occasion.entity occasion.event

/-- The result of a session: its outcome, or that it called for a handler that does not exist. -/
def finish (s : Session σ) (unknown? : Option String) (outcome : Reply → Outcome) :
    Processed σ where
  outcome :=
    match unknown? with
    | some name => .error (.unknownHandlers [name])
    | none => .ok (outcome s.reply)
  world := s.world
  calls := s.calls
  detached := s.detached

/-- Runs the records of a batch under one reply. -/
def processBatch (engine : Engine σ) (occasion : Occasion) (records : List Json) (world : σ) :
    Processed σ :=
  let batch := Batch.ofRecords (engine.context occasion) (engine.rulesFor occasion)
    engine.config.stopsBatch records { world }
  finish batch.session batch.unknown? fun reply =>
    ⟨.arr batch.records, reply, batch.excluded, batch.matched⟩

def processRecord (engine : Engine σ) (occasion : Occasion) (record : Json) (world : σ) :
    Processed σ :=
  let run := Run.ofRecord (engine.context occasion) (engine.rulesFor occasion) record { world }
  let unknown? := match run.verdict with
    | .unknown name => some name
    | _ => none
  finish run.session unknown? fun reply =>
    ⟨run.draft.record, reply, if run.draft.excluded then 1 else 0, run.matched⟩

/-- Runs data, one record or an array of records, through the rules of an occasion. Without rules
it stays as it is. -/
def process (engine : Engine σ) (occasion : Occasion) (data : Json) (world : σ) : Processed σ :=
  if (engine.rulesFor occasion).isEmpty then ⟨.ok { data }, world, [], []⟩
  else
    match data with
    | .arr records => engine.processBatch occasion records world
    | record => engine.processRecord occasion record world

end Engine

end Bylaw
