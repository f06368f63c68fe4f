import Bylaw.Gateway.Virtual
import Bylaw.Http.Query

/-! The services that serve records. -/

namespace Bylaw.Records

variable {τ : Type}

/-- A value in an envelope, which the response also carries as its payload. -/
def enveloped (status : Nat) (data : Json) : Response :=
  let body := Json.ofFields [("data", data)]
  { Response.json status body with payload? := some body }

def notFound (entity id : String) : Response :=
  (Failure.notFound (entity ++ " '" ++ id ++ "' not found")).response

/-- The greatest number of bytes that are read of a body. -/
def readLimit : Nat := 2 * 1024 * 1024

def overlong : Response := .plain 413 "Failed to buffer the request body: length limit exceeded"

/-- The JSON value that a request brings, or the response that refuses it. -/
def bodyOf (request : Request) : Except Response Json :=
  if !request.hasJson then
    .error (.plain 415 "Expected request with \x60Content-Type: application/json\x60")
  else if request.body.size > readLimit then .error overlong
  else
    match request.body.read with
    | .error e => .error (.plain 400 ("Failed to parse the request body as JSON: " ++ e.message))
    | .ok v => .ok v

/-- The object that a request brings, or the response that refuses it. -/
def objectOf (request : Request) : Except Response Json :=
  match bodyOf request with
  | .error response => .error response
  | .ok v =>
    if v.isObject then .ok v
    else .error (Failure.invalid "record must be a JSON object").response

/-- The records of a collection; the query asks for the texts of their fields. -/
def list (entity : String) : Service τ := fun request g =>
  let filters := (Query.fields (request.query?.getD "")).map fun (name, v) => (name, .str v)
  (enveloped 200 (.arr (g.site.store.list entity filters)), g)

def get (entity id : String) : Service τ := fun _ g =>
  match g.site.store.get? entity id with
  | some record => (enveloped 200 record, g)
  | none => (notFound entity id, g)

def create (entity : String) : Service τ := fun request g =>
  match objectOf request with
  | .error response => (response, g)
  | .ok v =>
    match g.site.insert? entity v with
    | none => ((Failure.internal "insert rejected an object").response, g)
    | some (record, site) =>
      (enveloped 201 record, Gateway.postpone { g with site } .new entity record)

/-- Answers a record that was changed, if it was there. -/
def changed (entity id : String) (result : Option (Json × Store)) (g : Gateway τ) :
    Response × Gateway τ :=
  match result with
  | none => (notFound entity id, g)
  | some (record, store) =>
    (enveloped 200 record,
      Gateway.postpone { g with site := { g.site with store } } .update entity record)

def replace (entity id : String) : Service τ := fun request g =>
  match objectOf request with
  | .error response => (response, g)
  | .ok v => changed entity id (g.site.store.replace? entity id v) g

def patch (entity id : String) : Service τ := fun request g =>
  match objectOf request with
  | .error response => (response, g)
  | .ok v => changed entity id (g.site.store.patch? entity id v) g

def delete (entity id : String) : Service τ := fun _ g =>
  match g.site.store.remove? entity id with
  | some (record, store) => (enveloped 200 record, { g with site := { g.site with store } })
  | none => (notFound entity id, g)

end Bylaw.Records
