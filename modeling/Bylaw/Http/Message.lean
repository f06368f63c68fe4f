import Bylaw.Http.Address
import Bylaw.Http.MediaType
import Bylaw.Evaluation
import Bylaw.Json.Printer
import Bylaw.Json.Reader
import Bylaw.Text.Utf8

/-! Requests and responses. Headers are kept under their names in small letters. -/

namespace Bylaw

/-- The bytes of a message. -/
abbrev Body := ByteArray

namespace Body

def ofString (s : String) : Body := s.toUTF8

def text? (body : Body) : Option String := String.fromUTF8? body

def read (body : Body) : Except Json.ReadError Json :=
  match body.text? with
  | some s => Json.read s
  | none => .error .badEncoding

theorem text?_ofString (s : String) : (ofString s).text? = some s := by
  simp only [text?, ofString, String.fromUTF8?, String.toUTF8_eq_toByteArray, dif_pos s.isValidUTF8]
  rfl

end Body

def headerText? (headers : Keyed String) (name : String) : Option String :=
  (Keyed.get? name headers).filter fun value =>
    value.toList.all fun c => c == '\t' || (32 ≤ c.toNat && c.toNat < 127)

/-- A request: the path as it was sent, the path below the place where its router is mounted, and
the address that it came from. -/
structure Request where
  method : String
  sentPath : String
  path : String
  query? : Option String := none
  headers : Keyed String := []
  body : Body := .empty
  peer? : Option Address := none

namespace Request

/-- The request for a target: a path, and a query after a question mark. What follows a number sign
is not part of it. -/
def ofTarget (method target : String) : Request :=
  let cs := target.toList.takeWhile (· ≠ '#')
  let path := String.ofList (cs.takeWhile (· ≠ '?'))
  let query? :=
    match cs.dropWhile (· ≠ '?') with
    | _ :: query => some (String.ofList query)
    | [] => none
  { method, sentPath := path, path, query? }

/-- The request as a router sees it that is mounted at a path; nothing if the path of the request
does not lie below. The mount itself is the router's root, and has no other spelling. -/
def below? (request : Request) (mount : String) : Option Request :=
  if request.path = mount then some { request with path := "/" }
  else
    let lead := mount.toList ++ ['/']
    let cs := request.path.toList
    if lead.isPrefixOf cs && lead.length < cs.length then
      some { request with path := .ofList (cs.drop mount.length) }
    else none

def target (request : Request) : String :=
  match request.query? with
  | some query => request.path ++ "?" ++ query
  | none => request.path

/-- Whether the header says that the body is JSON. -/
def hasJson (request : Request) : Bool :=
  ((headerText? request.headers "content-type").bind MediaType.read?).any MediaType.isJson

def withJson (request : Request) (value : Json) : Request :=
  let body := Body.ofString value.compact
  { request with
    headers := Keyed.insert "content-type" "application/json"
      (Keyed.insert "content-length" (toString body.size) request.headers)
    body }

/-- What a request says of itself: its method and path, the program that sent it, and the address
that it came from, where a proxy's word goes before the peer's. -/
def facts (request : Request) : RequestFacts where
  method := some request.method
  path := some request.sentPath
  userAgent := headerText? request.headers "user-agent"
  userIp :=
    match headerText? request.headers "x-forwarded-for" with
    | some value =>
      some (.ofList (Text.trim (value.toList.takeWhile (· ≠ ','))))
    | none => request.peer?.map Address.text

end Request

/-- A response. It may carry the value that its body holds, so that nobody has to read the body, and
the mark that rules have been applied to it. -/
structure Response where
  status : Nat
  headers : Keyed String := []
  body : Body := .empty
  isSized : Bool := true
  payload? : Option Json := none
  rulesApplied : Bool := false

namespace Response

def empty (status : Nat) : Response := { status }

def plain (status : Nat) (text : String) : Response where
  status := status
  headers := [("content-type", "text/plain; charset=utf-8")]
  body := .ofString text

def json (status : Nat) (value : Json) : Response where
  status := status
  headers := [("content-type", "application/json")]
  body := .ofString value.compact

/-- Whether the status says that the request succeeded. -/
def isSuccess (response : Response) : Bool := 200 ≤ response.status && response.status < 300

/-- The length that is known of the body before it is read: the declared one goes before its
own. -/
def knownLength? (response : Response) : Option Nat :=
  let declared := (headerText? response.headers "content-length").bind fun value =>
    Text.uint64? value.toList
  declared.or (if response.isSized then some response.body.size else none)

/-- The response in the form in which it is sent: with its length where that is known, and without
a body if only its head was asked for. -/
def sent (response : Response) (method : String) : Response :=
  let headers :=
    if response.isSized && !Keyed.contains "content-length" response.headers then
      Keyed.insert "content-length" (toString response.body.size) response.headers
    else response.headers
  { response with headers, body := if method = "HEAD" then .empty else response.body }

end Response

end Bylaw
