import Bylaw.Engine
import Bylaw.Keyed
import Bylaw.Text.Numeral

/-! The settings of a gateway, and how the environment gives them. -/

namespace Bylaw

structure Settings where
  host : String := "0.0.0.0"
  port : Nat := 8080
  environment : String := "development"
  rulesPath : String := "rules/business.rules"
  maxBodyBytes : Nat := 2 * 1024 * 1024
  weeklyCron : String := "0 0 4 * * Mon"
  logFormat : String := "pretty"
  stopsBatch : Bool := false

namespace Settings

def bool? : String → Option Bool
  | "true" => some true
  | "false" => some false
  | _ => none

/-- The settings that the environment gives; what it does not give, or gives wrongly, is as it would
be without it. -/
def ofVariables (given : Keyed String) : Settings :=
  let default : Settings := {}
  let text (name fallback : String) := (Keyed.get? name given).getD fallback
  let nat (name : String) (read : List Char → Option Nat) (fallback : Nat) :=
    ((Keyed.get? name given).bind fun v => read v.toList).getD fallback
  { host := text "HOST" default.host
    port := nat "PORT" Text.uint16? default.port
    environment := text "ENVIRONMENT" default.environment
    rulesPath := text "RULES_PATH" default.rulesPath
    maxBodyBytes := nat "MAX_BODY_BYTES" Text.uint64? default.maxBodyBytes
    weeklyCron := text "WEEKLY_CRON" default.weeklyCron
    logFormat := text "LOG_FORMAT" default.logFormat
    stopsBatch :=
      ((Keyed.get? "TERMINATE_BATCH_ON_END" given).bind bool?).getD default.stopsBatch }

def logsJson (settings : Settings) : Bool := settings.logFormat.toLower == "json"

def engine (settings : Settings) : EngineConfig := ⟨settings.stopsBatch⟩

end Settings

end Bylaw
