import Bylaw.Json.Basic
import Bylaw.Text.Numeral

/-! Dotted references into a record, such as `address.city`: reading the value at a path, and
setting it. -/

namespace Bylaw

/-- The segments of a reference: at least one, none of them empty or with a point inside. -/
structure FieldPath where
  segments : List String
  nonempty : segments ≠ []
  plain : ∀ s ∈ segments, s ≠ "" ∧ '.' ∉ s.toList
  deriving DecidableEq

namespace FieldPath

def read? (cs : List Char) : Option FieldPath :=
  let segments := (Text.splitAt (· == '.') cs).map String.ofList
  if h : segments ≠ [] ∧ ∀ s ∈ segments, s ≠ "" ∧ '.' ∉ s.toList then some ⟨segments, h.1, h.2⟩
  else none

def text (path : FieldPath) : String := ".".intercalate path.segments

/-- The position that a segment names in an array: digits that denote an unsigned word. -/
def index? (segment : String) : Option Nat := Text.uint64? segment.toList

/-- The value inside an object or an array that a segment names. -/
def child? (segment : String) : Json → Option Json
  | .obj fields => Keyed.get? segment fields
  | .arr items => (index? segment).bind fun i => items[i]?
  | _ => none

def follow? : List String → Json → Option Json
  | [], v => some v
  | segment :: rest, v => (child? segment v).bind (follow? rest)

/-- The value at a path; null counts as absent. -/
def lookup? (path : FieldPath) (root : Json) : Option Json :=
  (follow? path.segments root).filter fun v => !v.isNull

/-- Sets the value at the end of segments. Objects are made where a segment leads nowhere; there is
no result if something that is no object stands in the way. -/
def assignAt? : List String → Json → Json → Option Json
  | [], _, _ => none
  | [last], .obj fields, value => some (.obj (Keyed.insert last value fields))
  | segment :: rest, .obj fields, value =>
    (assignAt? rest ((Keyed.get? segment fields).getD (.obj [])) value).map fun child =>
      .obj (Keyed.insert segment child fields)
  | _, _, _ => none

/-- Sets the value at a path, if no value other than an object stands in the way. -/
def assign? (path : FieldPath) (root value : Json) : Option Json :=
  assignAt? path.segments root value

end FieldPath

end Bylaw
