import Bylaw.Gateway.Router
import Bylaw.Proofs.FieldPath.Assignment
import Bylaw.Proofs.Gateway.Entity

/-! How a request to records is answered: by the edge or by the service behind it, and then what
was put off is done. Main statements: a request for a collection passes the rules, the service and
the rules again; what the edge makes of a request that brings a body hangs on the value that it
reads of it, and on the run of the rules on that value. -/

namespace Bylaw

variable {τ : Type}

/-- Whether the requests of an event bring a body for the rules. -/
def Event.bringsBody : Event → Bool
  | .post => true
  | .put => true
  | .patch => true
  | _ => false

theorem Body.size_ne_zero {body : Body} {v : Json} (h : body.read = .ok v) : body.size ≠ 0 := by
  intro hs
  obtain rfl := ByteArray.size_eq_zero_iff.mp hs
  cases h

theorem Request.hasJson_withJson (request : Request) (v : Json) :
    (request.withJson v).hasJson = true := by
  have htype : headerText? (request.withJson v).headers "content-type" = some "application/json" :=
    by
    rw [headerText?, withJson, Keyed.get?_insert_self]
    decide
  rw [hasJson, htype]
  decide +kernel

theorem Gateway.catchUp_of_idle {g : Gateway τ} (h : g.pending = []) : g.catchUp = g := by
  obtain ⟨engine, site, settings, rulesFile?, pending⟩ := g
  obtain rfl : pending = [] := h
  rfl

namespace Router

/-- A request to records is answered at the edge of the service, and then what was put off is
done. -/
theorem handle_of_services? {request : Request} {route : Route} {service : Service τ}
    (hopt : request.method ≠ "OPTIONS") (hr : Route.ofPath? request.path = some route)
    (hv : services? route = some service) (g : Gateway τ) :
    handle request g =
      (((Edge.guarded service request g).1.sent request.method),
        (Edge.guarded service request g).2.catchUp) := by
  simp only [handle, answer, if_neg hopt, hr, serve_of_services? hv]

/-- A method that a collection serves is answered from the records of the entity that its name
spells, without escapes. -/
theorem collection_of_plain {entity : String} (he : ¬Percent.HasEscape (Utf8.encode entity))
    (request : Request) :
    collection (τ := τ) entity request =
      match servedMethod request.method with
      | "GET" => Records.list entity request
      | "POST" => Records.create entity request
      | _ => notAllowed request := by
  have hdecode := (Percent.decodeText?_eq_self_iff entity).mpr he
  rewrite [collection, withEntity_of_decode hdecode, withEntity_of_decode hdecode]
  rfl

section

variable {g : Gateway τ} {request : Request} {entity : String}
  (hrules : g.engine.rules.hasRulesFor entity = true)
include hrules

/-- A request for a collection passes the rules of its entity, the service of the collection, and
then the rules again if the response is one for them. -/
theorem handle_collection {event : Event} (hopt : request.method ≠ "OPTIONS")
    (hevent : Event.ofMethod? request.method = some event) (hsent : request.sentPath = request.path)
    (hroute : Route.ofPath? request.path = some (.collection entity)) :
    handle request g =
      match Edge.receive event entity request g with
      | (.error response, g) => (response.sent request.method, g.catchUp)
      | (.ok received, g) =>
        let (response, g) := collection entity received g
        let (response, g) :=
          if Edge.isReleased event response then
            Edge.release event entity request.facts response g
          else (response, g)
        (response.sent request.method, g.catchUp) := by
  have hentity : Edge.entityOf? request.sentPath = some entity := by
    rw [hsent]
    exact Edge.entityOf?_of_route hroute rfl
  rw [handle_of_services? hopt hroute rfl]
  rcases hreceive : Edge.receive event entity request g with ⟨_ | received, after⟩ <;>
    simp only [Edge.guarded, hentity, hrules, Bool.not_true, Bool.false_eq_true, if_false, hevent,
      hreceive]

/-- A request to store a record passes the rules on its body, and then the service of its
collection. -/
theorem handle_post (hpost : request.method = "POST") (hsent : request.sentPath = request.path)
    (hroute : Route.ofPath? request.path = some (.collection entity)) :
    handle request g =
      match Edge.receiveBody .post entity request g with
      | (.error response, g) => (response.sent "POST", g.catchUp)
      | (.ok received, g) =>
        let (response, g) := collection entity received g
        (response.sent "POST", g.catchUp) := by
  have hevent : Event.ofMethod? request.method = some .post := by
    rw [hpost]
    rfl
  rw [handle_collection hrules (by rw [hpost]; decide) hevent hsent hroute, hpost, Edge.receive]
  rcases Edge.receiveBody .post entity request g with ⟨_ | received, after⟩ <;> rfl

end

end Router

namespace Edge

/-- The value that the edge reads of a body. An empty body stands for an object without fields; a
body that is not JSON has no value. -/
def held? (request : Request) : Option Json :=
  if request.body.size = 0 then some (.obj []) else request.body.read.toOption

theorem held?_of_read {request : Request} {v : Json} (h : request.body.read = .ok v) :
    held? request = some v := by
  rw [held?, if_neg (Body.size_ne_zero h), h]
  rfl

/-- A body within the limit that is not JSON passes as it is; of any other the rules are run on the
value, and the request takes on what they make of it unless they refuse it. -/
theorem receiveBody_eq {request : Request} {g : Gateway τ}
    (hsize : request.body.size ≤ g.settings.maxBodyBytes) (event : Event) (entity : String) :
    receiveBody event entity request g =
      match held? request with
      | none => (.ok request, g)
      | some v =>
        match g.run event entity request.facts v with
        | (.error e, g) => (.error (Failure.engine e).response, g)
        | (.ok o, g) =>
          match submissionRefusal? o with
          | some response => (.error response, g)
          | none => (.ok (request.withJson o.data), g) := by
  rewrite [receiveBody, if_neg (Nat.not_lt.mpr hsize), held?]
  by_cases hempty : request.body.size = 0
  · rewrite [if_pos hempty, if_pos hempty]
    rfl
  · rewrite [if_neg hempty, if_neg hempty]
    cases request.body.read <;> rfl

/-- What the rules say to a request that brings a body is said before the service sees it. -/
theorem guarded_of_bringsBody {service : Service τ} {request : Request} {entity : String}
    {event : Event} {g : Gateway τ} (he : entityOf? request.sentPath = some entity)
    (hg : g.engine.rules.hasRulesFor entity = true)
    (hm : Event.ofMethod? request.method = some event) (hb : event.bringsBody = true) :
    guarded service request g =
      match receiveBody event entity request g with
      | (.error response, g) => (response, g)
      | (.ok received, g) => service received g := by
  have hreceive : receive event entity request g = receiveBody event entity request g := by
    cases event <;> first | rfl | cases hb
  have hnone (response : Response) : isReleased event response = false := by
    cases event <;> first | rfl | cases hb
  rcases hreceived : receiveBody event entity request g with ⟨_ | received, after⟩ <;>
    simp only [guarded, he, hg, Bool.not_true, Bool.false_eq_true, if_false, hm, hreceive, hnone,
      hreceived]

end Edge

/-- Leads that come with a high score are qualified:
`IF POST leads WHEN score >= 80 THEN UPDATE status = "qualified"`. -/
def Rule.qualifying : Rule where
  entity := "leads"
  events := [.post]
  condition := some [
    .compare (.field ⟨["score"], FieldPath.score_nonempty, FieldPath.score_plain⟩) .ge
      (.literal (.ofNat 80))]
  actions := [.update ⟨["status"], by decide, by decide⟩ (.literal (.str "qualified"))]
  line := 1

/-- A gateway with the standard handlers, and without rules and records. -/
def Gateway.bare : Gateway Unit :=
  .start {} Handlers.standard { clock := (Instant.ofSeconds? 0 0).get rfl, memory := () }

/-- A gateway with that rule, and without records. -/
def Gateway.ofLeads : Gateway Unit :=
  { bare with engine := { bare.engine with rules := .ofRules [.qualifying] 1 } }

end Bylaw
