import Bylaw.Catalog
import Bylaw.Site

/-! The handlers that every gateway has. What they send out lands in collections of their own, where
it can be read like any other record. -/

namespace Bylaw.Handlers

variable {σ τ : Type}

/-- The collections that handlers write to. -/
def notifications : String := "notifications"

def outbox : String := "outbox"

def digests : String := "digests"

/-- The status that an argument stands for: a number, or a text of one. -/
def status? : Json → Option Nat
  | .num n => n.uint64?.filter (· < 0x10000)
  | .str s => Text.uint16? (Text.trim s.toList)
  | _ => none

/-- An argument that is there and not null. -/
def present? (inv : Invocation) (index : Nat) : Option Json :=
  (inv.arg? index).filter fun v => !v.isNull

def text? (inv : Invocation) (index : Nat) : Option String := (inv.arg? index).bind Json.string?

/-- Changes the reply: status, message, error, data and module by position. -/
def respond : Handler σ := fun inv world =>
  match (inv.arg? 0).bind status? with
  | none => (.error (.handler "respond" "first argument must be a status code"), world)
  | some status =>
    let patch : Patch := {
      status := some status
      message := text? inv 1
      error := present? inv 2
      data := present? inv 3
      moduleName := text? inv 4 }
    (.ok { response := some patch }, world)

def deposit (collection : String) (fields : List (String × Json)) (site : Site τ) :
    Except ActionError Output × Site τ :=
  match site.insert? collection (.ofFields fields) with
  | some (stored, site) => (.ok { value := stored }, site)
  | none => (.ok {}, site)

def notify : Handler (Site τ) := fun inv site =>
  match (inv.param? "message").bind Json.string? with
  | none => (.error (.handler Action.notifyHandler "missing message"), site)
  | some message =>
    deposit notifications [
      ("entity", .str inv.entity),
      ("event", .str inv.event.tag),
      ("message", .str message),
      ("record_id", (inv.record.field? "id").getD .null)] site

def create : Handler (Site τ) := fun inv site =>
  match (inv.param? "kind").bind Json.string? with
  | none => (.error (.handler Action.createHandler "missing kind"), site)
  | some kind =>
    match site.insert? kind ((inv.param? "data").getD (.obj [])) with
    | some (stored, site) => (.ok { value := stored }, site)
    | none => (.error (.handler Action.createHandler "payload must be an object"), site)

/-- Queues a record for another system. -/
def queueFor (target : String) : Handler (Site τ) := fun inv site =>
  deposit outbox [
    ("target", .str target),
    ("subject", (inv.param? "subject").getD .null),
    ("entity", .str inv.entity),
    ("record", inv.record),
    ("queued_at", .str site.timestamp)] site

/-- Refuses a value that another record of the entity has in the same field. A null value is never
refused. -/
def unique : Handler (Site τ) := fun inv site =>
  match text? inv 0 with
  | none => (.error (.handler "unique" "first argument must be a field name"), site)
  | some field =>
    match (inv.record.field? field).filter fun v => !v.isNull with
    | none => (.ok { value := .bool true }, site)
    | some value =>
      -- A record does not stand in its own way.
      if site.store.count inv.entity field value inv.record.recordId? = 0 then
        (.ok { value := .bool true }, site)
      else
        let patch : Patch := {
          status := some 409
          message := some (field ++ " already exists")
          error := some (.ofFields [("field", .str field)]) }
        (.ok ⟨.bool false, some patch⟩, site)

/-- Stores how many records each collection has, that of the digests left out. -/
def weeklyDigest : Handler (Site τ) := fun inv site =>
  let counts := site.store.counts.filter fun (name, _) => name ≠ digests
  deposit digests [
    ("entity", .str inv.entity),
    ("counts", .obj (counts.map fun (name, count) => (name, .ofNat count))),
    ("params", inv.params)] site

def uuid : Handler (Site τ) := fun _ site =>
  let (id, later) := site.freshId
  (.ok { value := .str id }, later)

def now : Handler (Site τ) := fun _ site => (.ok { value := .str site.timestamp }, site)

def standard : Catalog (Site τ) where
  handlers := .ofList [
    (Action.notifyHandler, notify),
    (Action.createHandler, create),
    ("crm_sync", queueFor "crm"),
    ("erp_sync", queueFor "erp"),
    ("unique", unique),
    ("weekly_digest", weeklyDigest),
    ("respond", respond),
    ("uuid", uuid),
    ("now", now)]

end Bylaw.Handlers
