import Bylaw.Engine
import Bylaw.Http.Message

/-! What can go wrong with a request, and how it is reported. -/

namespace Bylaw

inductive Failure where
  | notFound (text : String)
  | invalid (text : String)
  | tooLarge (limit : Nat)
  | engine (e : EngineError)
  | internal (text : String)

namespace Failure

def message : Failure → String
  | .notFound text => text
  | .invalid text => "Validation error: " ++ text
  | .tooLarge limit => s!"Request body exceeds {limit} bytes"
  | .engine e => "Rule engine error: " ++ e.message
  | .internal text => "Internal error: " ++ text

def status : Failure → Nat
  | .notFound _ => 404
  | .invalid _ => 422
  | .tooLarge _ => 413
  | .engine e => e.httpStatus
  | .internal _ => 500

def code : Failure → String
  | .notFound _ => "NOT_FOUND"
  | .invalid _ => "VALIDATION_ERROR"
  | .tooLarge _ => "PAYLOAD_TOO_LARGE"
  | .engine (.compile _) => "RULE_COMPILE_ERROR"
  | .engine (.unknownHandlers _) => "UNKNOWN_HANDLER"
  | .engine (.unreadable _ _) => "RULES_SOURCE_ERROR"
  | .internal _ => "INTERNAL_ERROR"

/-- What a client is told: nothing of what lies inside. -/
def publicMessage : Failure → String
  | .internal _ => "An internal error occurred"
  | .engine (.unreadable _ _) => "Rules source could not be read"
  | failure => failure.message

/-- The parts of an error of the rules. -/
def details? : Failure → Option Json
  | .engine (.compile e) =>
    some (.ofFields [("line", .ofNat e.line), ("statement", .str e.statement),
      ("reason", .str e.reason)])
  | .engine (.unknownHandlers names) => some (.ofFields [("handlers", .ofStrings names)])
  | _ => none

def response (failure : Failure) : Response :=
  .json failure.status <| .ofFields [("error", .ofFields <|
    [("code", .str failure.code), ("message", .str failure.publicMessage)] ++
    (failure.details?.map fun details => ("details", details)).toList)]

end Failure

end Bylaw
