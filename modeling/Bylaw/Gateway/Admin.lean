import Bylaw.Gateway.Basic
import Bylaw.Gateway.Records

/-! The services that show and replace the rules, and that tell whether the gateway is well. -/

namespace Bylaw.Admin

variable {τ : Type}

def version : String := "0.1.0"

def listRules : Service τ := fun _ g =>
  (.json 200 (.ofFields (g.engine.rules.summary ++
    [("handlers", .ofStrings g.engine.catalog.names)])), g)

def showSource : Service τ := fun _ g => (.plain 200 g.engine.rules.source, g)

/-- Installs rules, and answers their version and number. -/
def install (source : String) (g : Gateway τ) : Response × Gateway τ :=
  match g.load source with
  | .error e => ((Failure.engine e).response, g)
  | .ok g =>
    (.json 200 (.ofFields [("version", .ofNat g.engine.rules.version),
      ("count", .ofNat g.engine.rules.size)]), g)

def reload : Service τ := fun _ g =>
  match g.rulesFile? with
  | some source => install source g
  | none =>
    let e := EngineError.unreadable g.settings.rulesPath "No such file or directory (os error 2)"
    ((Failure.engine e).response, g)

def replaceRules : Service τ := fun request g =>
  if request.body.size > Records.readLimit then (Records.overlong, g)
  else
    match request.body.text? with
    | some source => install source g
    | none => (.plain 400 "Request body didn't contain valid UTF-8", g)

/-- Tells that the gateway is well, and which rules it has. -/
def health : Service τ := fun _ g =>
  (.json 200 (.ofFields [
    ("status", .str "healthy"),
    ("version", .str version),
    ("rules", .ofFields [
      ("version", .ofNat g.engine.rules.version),
      ("count", .ofNat g.engine.rules.size),
      ("handlers", .ofNat g.engine.catalog.names.length)])]), g)

def liveness : Service τ := fun _ g => (.empty 200, g)

end Bylaw.Admin
