import Bylaw.Gateway.Admin
import Bylaw.Gateway.Edge

/-! Which service answers which request. -/

namespace Bylaw

/-- What a path leads to. The segments that name an entity and a record are as they were sent. -/
inductive Route where
  | health
  | liveness
  | rules
  | ruleSource
  | reload
  | collection (entity : String)
  | record (entity id : String)
  deriving DecidableEq

namespace Route

/-- The route of a path. Segments that name something are not empty. -/
def ofPath? (path : String) : Option Route :=
  match (Text.splitAt (· == '/') path.toList).map String.ofList with
  | ["", "health"] => some .health
  | ["", "health", "live"] => some .liveness
  | ["", "admin", "rules"] => some .rules
  | ["", "admin", "rules", "source"] => some .ruleSource
  | ["", "admin", "rules", "reload"] => some .reload
  | ["", "api", entity] => if entity = "" then none else some (.collection entity)
  | ["", "api", entity, id] =>
    if entity = "" || id = "" then none else some (.record entity id)
  | _ => none

end Route

namespace Router

variable {τ : Type}

/-- The response to a method that a route does not have. -/
def notAllowed : Service τ := fun _ g => (.empty 405, g)

/-- The response to a path that names an entity or a record in bytes that are no text. -/
def badSegment (what : String) : Service τ := fun _ g =>
  (.plain 400 ("Invalid URL: Invalid UTF-8 in \x60" ++ what ++ "\x60"), g)

/-- A service for the entity that a segment names. -/
def withEntity (segment : String) (service : String → Service τ) : Service τ :=
  match Percent.decodeText? segment with
  | some entity => service entity
  | none => badSegment "entity"

/-- A service for the record that two segments name. -/
def withRecord (entitySegment idSegment : String) (service : String → String → Service τ) :
    Service τ :=
  withEntity entitySegment fun entity =>
    match Percent.decodeText? idSegment with
    | some id => service entity id
    | none => badSegment "id"

/-- The method whose service answers a request: who asks for the head of a response is answered as
who asks for all of it. -/
def servedMethod (method : String) : String := if method = "HEAD" then "GET" else method

def collection (entity : String) : Service τ := fun request =>
  match servedMethod request.method with
  | "GET" => withEntity entity Records.list request
  | "POST" => withEntity entity Records.create request
  | _ => notAllowed request

def record (entity id : String) : Service τ := fun request =>
  match servedMethod request.method with
  | "GET" => withRecord entity id Records.get request
  | "PUT" => withRecord entity id Records.replace request
  | "PATCH" => withRecord entity id Records.patch request
  | "DELETE" => withRecord entity id Records.delete request
  | _ => notAllowed request

def only (method : String) (service : Service τ) : Service τ := fun request =>
  if servedMethod request.method = method then service request else notAllowed request

/-- The service of a route. The rules are at the edge of those that serve records. -/
def serve : Route → Service τ
  | .health => only "GET" Admin.health
  | .liveness => only "GET" Admin.liveness
  | .rules => fun request =>
    match servedMethod request.method with
    | "GET" => Admin.listRules request
    | "PUT" => Admin.replaceRules request
    | _ => notAllowed request
  | .ruleSource => only "GET" Admin.showSource
  | .reload => only "POST" Admin.reload
  | .collection entity => Edge.guarded (collection entity)
  | .record entity id => Edge.guarded (record entity id)

/-- Answers a request. Questions about the methods that are allowed are answered alike for all
paths, and a path that leads nowhere is not found. -/
def answer : Service τ := fun request g =>
  let (response, g) :=
    if request.method = "OPTIONS" then (Response.empty 200, g)
    else
      match Route.ofPath? request.path with
      | some route => serve route request g
      | none => (.empty 404, g)
  (response.sent request.method, g)

/-- Answers a request, and then does what was put off. -/
def handle : Service τ := fun request g =>
  let (response, g) := answer request g
  (response, g.catchUp)

end Router

/-- The gateway with the given handlers beside the standard ones, and no rules. -/
def Gateway.start {τ : Type} (settings : Settings) (catalog : Catalog (Site τ)) (site : Site τ) :
    Gateway τ :=
  { engine := ⟨catalog, {}, settings.engine⟩, site, settings }

end Bylaw
