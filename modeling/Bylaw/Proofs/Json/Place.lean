import Bylaw.Json.Basic

/-! Places inside a value, as the steps that lead to them. -/

namespace Bylaw.Json

/-- One step into a value: to a field of an object, or to an item of an array. -/
inductive Step where
  | field (name : String)
  | item (index : Nat)
  deriving DecidableEq

/-- The value that steps lead to. -/
def at? : List Step → Json → Option Json
  | [], v => some v
  | .field name :: rest, v => (v.field? name).bind (at? rest)
  | .item index :: rest, v => (v.item? index).bind (at? rest)

/-- Whether steps lead to an object with a field of the given name. -/
def HasField (v : Json) (place : List Step) (name : String) : Prop :=
  ∃ fields, v.at? place = some (.obj fields) ∧ name ∈ Keyed.names fields

end Bylaw.Json
