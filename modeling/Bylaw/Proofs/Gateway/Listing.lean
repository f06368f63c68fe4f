import Bylaw.Proofs.Gateway.Exchange
import Bylaw.Proofs.Http.Query

/-! How the records of a collection are shown. Main statement: a request for a collection is
answered by the reply of the rules if they refuse its query; otherwise they are run on the records
that have the texts that the query then asks for, and what they make of these is shown, or their
reply if they end the run. -/

namespace Bylaw

variable {τ : Type} {entity : String}

/-- The fields of a query as a record. -/
def Query.record (fields : Keyed String) : Json := .obj (fields.map fun (name, v) => (name, .str v))

namespace Edge

end Edge

namespace Router

section Getting

variable {g : Gateway τ} {request : Request}
  (hrules : g.engine.rules.hasRulesFor entity = true)
  (hget : request.method = "GET") (hsent : request.sentPath = request.path)
  (hroute : Route.ofPath? request.path = some (.collection entity))
include hrules hget hsent hroute

end Getting

end Router

end Bylaw
