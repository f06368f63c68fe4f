import Bylaw.Gateway.Basic
import Bylaw.Http.Query

/-! The edge of a gateway: rules are run on what a request brings before it is answered, and on what
is answered to a request that reads or deletes. -/

namespace Bylaw

namespace Json

mutual

/-- A value without its fields named `user`, at any depth. -/
def withoutUsers : Json → Json
  | .arr items => .arr (itemsWithoutUsers items)
  | .obj fields => .obj (fieldsWithoutUsers fields)
  | v => v

def itemsWithoutUsers : List Json → List Json
  | [] => []
  | v :: vs => withoutUsers v :: itemsWithoutUsers vs

def fieldsWithoutUsers : List (String × Json) → List (String × Json)
  | [] => []
  | (name, v) :: fields =>
    if name = "user" then fieldsWithoutUsers fields
    else (name, withoutUsers v) :: fieldsWithoutUsers fields

end

end Json

namespace Edge

variable {τ : Type}

/-- The entity that a path belongs to: its first segment, or the second if the first is `api`. -/
def entityOf? (path : String) : Option String :=
  match (Text.splitAt (· == '/') path.toList).filter (· ≠ []) with
  | [] => none
  | first :: rest => if first = "api".toList then rest.head?.map .ofList else some (.ofList first)

/-- The response that a reply makes, in place of one from the service. -/
def replied (reply : Reply) (status : Nat) (data : Json) : Response :=
  let body :=
    match (reply.body data).withoutUsers with
    | .obj fields => .obj (Keyed.insert "status" (.ofNat status) fields)
    | v => v
  { Response.json status body with rulesApplied := true }

/-- Answers in place of the service if the reply is terminated or reports an error. -/
def refusal? (o : Outcome) : Option Response :=
  if o.isTerminated then some (replied o.reply o.reply.httpStatus o.data)
  else
    match o.reply.status.filter (400 ≤ ·) with
    | some status => some (replied o.reply status o.data)
    | none => none

/-- Answers in place of the service, also if the one record that was sent is excluded. -/
def submissionRefusal? (o : Outcome) : Option Response :=
  if !o.isTerminated && o.isExcluded && !o.data.isArray then
    some (replied o.reply ((o.reply.status.filter (400 ≤ ·)).getD 422) o.data)
  else refusal? o

/-- Runs the rules on the body of a request, which takes on what they make of it. A body that is
not JSON passes as it is. -/
def receiveBody (event : Event) (entity : String) (request : Request) (g : Gateway τ) :
    Except Response Request × Gateway τ :=
  if request.body.size > g.settings.maxBodyBytes then
    (.error (Failure.tooLarge g.settings.maxBodyBytes).response, g)
  else
    let record : Except Json.ReadError Json :=
      -- Rules see an empty body as an empty object.
      if request.body.size = 0 then .ok (.obj []) else request.body.read
    match record with
    -- What is not JSON is left to the service to refuse.
    | .error _ => (.ok request, g)
    | .ok record =>
      match g.run event entity request.facts record with
      | (.error e, g) => (.error (Failure.engine e).response, g)
      | (.ok o, g) =>
        match submissionRefusal? o with
        | some response => (.error response, g)
        | none => (.ok (request.withJson o.data), g)

def queryOf (data : Json) : String :=
  match data with
  | .obj fields => Query.write (fields.map fun (name, v) => (name, v.plain))
  | _ => ""

/-- Runs the rules on the query of a request, which is written anew if they change it. -/
def receiveQuery (event : Event) (entity : String) (request : Request) (g : Gateway τ) :
    Except Response Request × Gateway τ :=
  let query := request.query?.getD ""
  if query = "" then (.ok request, g)
  else
    let record := Json.obj ((Query.fields query).map fun (name, v) => (name, .str v))
    match g.run event entity request.facts record with
    | (.error e, g) => (.error (Failure.engine e).response, g)
    | (.ok o, g) =>
      match refusal? o with
      | some response => (.error response, g)
      | none =>
        -- A query that the rules leave alone keeps its own spelling.
        if o.data == record then (.ok request, g)
        else (.ok { request with query? := some (queryOf o.data) }, g)

/-- Runs the rules on what a request brings: a response in place of the service's, or the request
as the service is to see it. -/
def receive (event : Event) (entity : String) (request : Request) (g : Gateway τ) :
    Except Response Request × Gateway τ :=
  match event with
  | .post => receiveBody event entity request g
  | .put => receiveBody event entity request g
  | .patch => receiveBody event entity request g
  | _ => receiveQuery event entity request g

/-- The fields of a payload, those of its data apart, and its data. A payload that is not in an
envelope is put into one; a single record becomes a list. -/
def envelope? : Json → Option (Keyed Json × Json)
  | .arr items => some ([], .arr items)
  | .obj fields =>
    match Keyed.get? "data" fields with
    | some data => some (Keyed.erase "data" fields, data)
    | none => some ([], .arr [.obj fields])
  | _ => none

def rewritten (response : Response) (value : Json) : Response :=
  let body := Body.ofString value.compact
  { response with
    headers := Keyed.insert "content-length" (toString body.size)
      (Keyed.insert "content-type" "application/json" response.headers)
    body
    isSized := true
    rulesApplied := true }

/-- The payload of a response, which comes without it, or the response that is sent as it is. -/
def payloadOf (limit : Nat) (response : Response) : Except Response (Json × Response) :=
  match response.payload? with
  | some payload => .ok (payload, { response with payload? := none })
  | none =>
    if !response.knownLength?.any (· ≤ limit) then .error response
    else if response.body.size > limit then
      .error (.plain 502 "response body unavailable")
    else
      let buffered := { response with isSized := true }
      match response.body.read with
      | .error _ => .error buffered
      | .ok payload => .ok (payload, buffered)

/-- Runs the rules on the data of a response. What is not data in an envelope passes as it is. -/
def release (event : Event) (entity : String) (facts : RequestFacts) (response : Response)
    (g : Gateway τ) : Response × Gateway τ :=
  match payloadOf g.settings.maxBodyBytes response with
  | .error response => (response, g)
  | .ok (payload, response) =>
    match envelope? payload with
    | none => (response, g)
    | some (rest, data) =>
      match g.run event entity facts data with
      | (.error e, g) => ((Failure.engine e).response, g)
      | (.ok o, g) =>
        -- A single record that is excluded leaves nothing to show; a list has lost it already.
        let released := if !data.isArray && o.isExcluded then .null else o.data
        if o.isTerminated then (replied o.reply o.reply.httpStatus released, g)
        else
          let value := Json.obj (Keyed.insert "data" released rest)
          (rewritten response value.withoutUsers, g)

/-- Whether the response to an event has data for the rules. -/
def isReleased (event : Event) (response : Response) : Bool :=
  (event == .get || event == .delete) && response.isSuccess && !response.rulesApplied

/-- A service with the rules at its edge. Requests that belong to no entity, or to one without
rules, or that are no events, pass as they are. -/
def guarded (service : Service τ) : Service τ := fun request g =>
  -- The entity is taken from the path as it was sent, and not from the route.
  match entityOf? request.sentPath with
  | none => service request g
  | some entity =>
    if !g.engine.rules.hasRulesFor entity then service request g
    else
      match Event.ofMethod? request.method with
      | none => service request g
      | some event =>
        match receive event entity request g with
        | (.error response, g) => (response, g)
        | (.ok received, g) =>
          let (response, g) := service received g
          if isReleased event response then release event entity request.facts response g
          else (response, g)

end Edge

end Bylaw
