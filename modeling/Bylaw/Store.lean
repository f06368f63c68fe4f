import Bylaw.Json.Printer

/-! Records in named collections. A record is an object with a text as its `id`, and a collection
keeps its records in the order in which they came. -/

namespace Bylaw

/-- The collections by name. -/
structure Store where
  collections : Keyed (List Json) := []

def Json.recordId? (record : Json) : Option String := (record.field? "id").bind Json.string?

namespace Store

def recordsOf (store : Store) (entity : String) : List Json :=
  (Keyed.get? entity store.collections).getD []

/-- Whether the fields of a record have the texts that a filter asks for. -/
def passes (filters : Keyed Json) (record : Json) : Bool :=
  filters.all fun (name, expected) =>
    match record.field? name with
    | some actual => actual.plain == expected.plain
    | none => false

def list (store : Store) (entity : String) (filters : Keyed Json) : List Json :=
  (store.recordsOf entity).filter (passes filters)

def hasId (id : String) (record : Json) : Bool := record.recordId? == some id

/-- The first record with the given identity. -/
def get? (store : Store) (entity id : String) : Option Json :=
  (store.recordsOf entity).find? (hasId id)

/-- The record as it is stored: with an identity and a time of creation, which are its own if it
has them. -/
def complete (freshId createdAt : String) (fields : Keyed Json) : Keyed Json :=
  let identified :=
    match Keyed.get? "id" fields with
    | some (.str _) => fields
    | _ => Keyed.insert "id" (.str freshId) fields
  if Keyed.contains "created_at" identified then identified
  else Keyed.insert "created_at" (.str createdAt) identified

/-- Appends an object to a collection, which comes to be if it is not there. -/
def insert? (store : Store) (entity freshId createdAt : String) : Json → Option (Json × Store)
  | .obj fields =>
    let record := Json.obj (complete freshId createdAt fields)
    some (record, ⟨Keyed.insert entity (store.recordsOf entity ++ [record]) store.collections⟩)
  | _ => none

/-- Changes the first item that satisfies a test; nothing if there is none. -/
def replaceFirst (test : Json → Bool) (change : Json → Json) : List Json → Option (List Json)
  | [] => none
  | r :: rs =>
    if test r then some (change r :: rs) else (replaceFirst test change rs).map (r :: ·)

def change? (store : Store) (entity id : String) (change : Json → Json) : Option Store :=
  (replaceFirst (hasId id) change (store.recordsOf entity)).map fun records =>
    ⟨Keyed.insert entity records store.collections⟩

/-- Puts an object in place of the record with the given identity, which it takes over. -/
def replace? (store : Store) (entity id : String) : Json → Option (Json × Store)
  | .obj fields =>
    let record := Json.obj (Keyed.insert "id" (.str id) fields)
    (store.change? entity id fun _ => record).map (record, ·)
  | _ => none

/-- A record with some of its fields set anew, its identity excepted. -/
def merged (changes : Keyed Json) : Json → Json
  | .obj fields =>
    .obj (changes.foldl (fun fields (name, v) =>
      if name = "id" then fields else Keyed.insert name v fields) fields)
  | record => record

def patch? (store : Store) (entity id : String) : Json → Option (Json × Store)
  | .obj changes =>
    match store.get? entity id with
    | some record => (store.change? entity id (merged changes)).map (merged changes record, ·)
    | none => none
  | _ => none

/-- The items without the first that satisfies a test. -/
def removeFirst (test : Json → Bool) : List Json → List Json
  | [] => []
  | r :: rs => if test r then rs else r :: removeFirst test rs

/-- Takes out the record with the given identity. -/
def remove? (store : Store) (entity id : String) : Option (Json × Store) :=
  (store.get? entity id).map fun record =>
    (record, ⟨Keyed.insert entity (removeFirst (hasId id) (store.recordsOf entity))
      store.collections⟩)

def count (store : Store) (entity field : String) (value : Json) (except? : Option String) : Nat :=
  ((store.recordsOf entity).filter fun record =>
    (except?.isNone || record.recordId? != except?) &&
      (match record.field? field with
        | some v => v == value
        | none => false)).length

/-- The number of records of each collection, in order of name. -/
def counts (store : Store) : List (String × Nat) :=
  store.collections.map fun (name, records) => (name, records.length)

def dump (store : Store) : Json :=
  .obj (store.collections.map fun (name, records) => (name, .arr records))

end Store

end Bylaw
