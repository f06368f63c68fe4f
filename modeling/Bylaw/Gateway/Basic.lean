import Bylaw.Gateway.Failure
import Bylaw.Gateway.Settings
import Bylaw.Handlers

/-! A gateway: rules, records, and what it has put off until it has answered. -/

namespace Bylaw

/-- An event of a stored record that is to be processed when the request is answered. -/
structure Pending where
  event : Event
  entity : String
  record : Json

/-- The state of a gateway; the rules file is absent if it cannot be read. -/
structure Gateway (τ : Type) where
  engine : Engine (Site τ)
  site : Site τ
  settings : Settings := {}
  rulesFile? : Option String := none
  pending : List Pending := []

namespace Gateway

variable {τ : Type}

/-- Processes data. The calls that were set aside are made before anything else happens. -/
def run (g : Gateway τ) (event : Event) (entity : String) (facts : RequestFacts) (data : Json) :
    Except EngineError Outcome × Gateway τ :=
  let processed := g.engine.process ⟨event, entity, facts, g.site.clock.date⟩ data g.site
  (processed.outcome,
    { g with site := g.engine.catalog.settle processed.detached processed.world })

def load (g : Gateway τ) (source : String) : Except EngineError (Gateway τ) :=
  (g.engine.load source).map fun engine => { g with engine }

end Gateway

/-- What answers requests. -/
abbrev Service (τ : Type) := Request → Gateway τ → Response × Gateway τ

end Bylaw
