import Bylaw.Keyed
import Bylaw.Number

/-! JSON values. The fields of an object are in increasing order of name, and that order shows in
every text made from an object. -/

namespace Bylaw

inductive Json where
  | null
  | bool (b : Bool)
  | num (n : Number)
  | str (s : String)
  | arr (items : List Json)
  | obj (fields : List (String × Json))
  deriving Inhabited

namespace Json

def isNull : Json → Bool
  | .null => true
  | _ => false

def isObject : Json → Bool
  | .obj _ => true
  | _ => false

def isArray : Json → Bool
  | .arr _ => true
  | _ => false

def isString : Json → Bool
  | .str _ => true
  | _ => false

def string? : Json → Option String
  | .str s => some s
  | _ => none

def field? (name : String) : Json → Option Json
  | .obj fields => Keyed.get? name fields
  | _ => none

def item? (index : Nat) : Json → Option Json
  | .arr items => items[index]?
  | _ => none

def ofNat (n : Nat) : Json := .num (.ofNat n)

/-- The object with the given fields, in any order. -/
def ofFields (fields : List (String × Json)) : Json := .obj (Keyed.ofList fields)

/-- A text, or null in its absence. -/
def ofString? : Option String → Json
  | some s => .str s
  | none => .null

def ofStrings (texts : List String) : Json := .arr (texts.map .str)

mutual

/-- Values are equal if they have the same shape and their numbers are equal in kind and value. -/
def equal : Json → Json → Bool
  | .null, .null => true
  | .bool a, .bool b => a == b
  | .num m, .num n => m.equal n
  | .str s, .str t => s == t
  | .arr xs, .arr ys => equalItems xs ys
  | .obj fs, .obj gs => equalFields fs gs
  | _, _ => false

def equalItems : List Json → List Json → Bool
  | [], [] => true
  | x :: xs, y :: ys => equal x y && equalItems xs ys
  | _, _ => false

def equalFields : List (String × Json) → List (String × Json) → Bool
  | [], [] => true
  | (k, v) :: fs, (l, w) :: gs => k == l && equal v w && equalFields fs gs
  | _, _ => false

end

instance : BEq Json := ⟨equal⟩

/-- Induction on the nesting of a value. -/
@[elab_as_elim]
theorem nesting {motive : Json → Prop} (null : motive .null) (bool : ∀ b, motive (.bool b))
    (num : ∀ n, motive (.num n)) (str : ∀ s, motive (.str s))
    (arr : ∀ items, (∀ v ∈ items, motive v) → motive (.arr items))
    (obj : ∀ fields, (∀ field ∈ fields, motive field.2) → motive (.obj fields)) (v : Json) :
    motive v :=
  @Json.rec motive (fun items => ∀ v ∈ items, motive v)
    (fun fields => ∀ field ∈ fields, motive field.2) (fun field => motive field.2) null bool num str
    arr obj nofun (fun _ _ hv hvs => List.forall_mem_cons.mpr ⟨hv, hvs⟩) nofun
    (fun _ _ hv hvs => List.forall_mem_cons.mpr ⟨hv, hvs⟩) (fun _ _ hv => hv) v

end Json

end Bylaw
