import Bylaw.Store
import Mathlib.Tactic.Common

/-! What a store adds to an object that it takes in. Main statement: a record keeps the fields of
the object, and has an identity and a time of creation. -/

namespace Bylaw.Store

/-- Fields with an identity, which is a text. -/
def identified (freshId : String) (fields : Keyed Json) : Keyed Json :=
  match Keyed.get? "id" fields with
  | some (.str _) => fields
  | _ => Keyed.insert "id" (.str freshId) fields

/-- Fields with a time of creation. -/
def dated (createdAt : String) (fields : Keyed Json) : Keyed Json :=
  if Keyed.contains "created_at" fields then fields
  else Keyed.insert "created_at" (.str createdAt) fields

theorem complete_eq (freshId createdAt : String) (fields : Keyed Json) :
    complete freshId createdAt fields = dated createdAt (identified freshId fields) := rfl

section Parts

variable {name : String}

@[simp] theorem get?_identified_self (freshId : String) (fields : Keyed Json) :
    Keyed.get? "id" (identified freshId fields) =
      some (.str ((Json.obj fields).recordId?.getD freshId)) := by
  rw [identified, Json.recordId?, Json.field?]
  cases hget : Keyed.get? "id" fields with
  | none => exact Keyed.get?_insert_self _ _ _
  | some v =>
    cases v with
    | str id => exact hget
    | _ => exact Keyed.get?_insert_self _ _ _

theorem get?_identified_of_ne (h : name ≠ "id") (freshId : String) (fields : Keyed Json) :
    Keyed.get? name (identified freshId fields) = Keyed.get? name fields := by
  rw [identified]
  split
  · rfl
  · exact Keyed.get?_insert_of_ne h _ _

@[simp] theorem get?_dated_self (createdAt : String) (fields : Keyed Json) :
    Keyed.get? "created_at" (dated createdAt fields) =
      some ((Keyed.get? "created_at" fields).getD (.str createdAt)) := by
  rw [dated, Keyed.contains]
  cases hget : Keyed.get? "created_at" fields with
  | none => exact Keyed.get?_insert_self _ _ _
  | some v => exact hget

theorem get?_dated_of_ne (h : name ≠ "created_at") (createdAt : String) (fields : Keyed Json) :
    Keyed.get? name (dated createdAt fields) = Keyed.get? name fields := by
  rw [dated]
  split
  · rfl
  · exact Keyed.get?_insert_of_ne h _ _

end Parts

/-- A record in place of an object: it has the fields of the object, its identity if that is a text
and a new one otherwise, and its time of creation or the given one. -/
structure Completes (freshId createdAt : String) (fields stored : Keyed Json) : Prop where
  identity : Keyed.get? "id" stored = some (.str ((Json.obj fields).recordId?.getD freshId))
  creation : Keyed.get? "created_at" stored =
    some ((Keyed.get? "created_at" fields).getD (.str createdAt))
  others : ∀ name, name ≠ "id" → name ≠ "created_at" →
    Keyed.get? name stored = Keyed.get? name fields

theorem completes_complete (freshId createdAt : String) (fields : Keyed Json) :
    Completes freshId createdAt fields (complete freshId createdAt fields) where
  identity := by rw [complete_eq, get?_dated_of_ne (by decide), get?_identified_self]
  creation := by rw [complete_eq, get?_dated_self, get?_identified_of_ne (by decide)]
  others name hid hcreated := by
    rw [complete_eq, get?_dated_of_ne hcreated, get?_identified_of_ne hid]

/-- The store fills in no field that a record has, but an identity that is no text. -/
theorem get?_complete {fields : Keyed Json} {name freshId createdAt : String}
    (hid : name = "id" → ∃ id, Keyed.get? name fields = some (.str id))
    (hcreated : name = "created_at" → (Keyed.get? name fields).isSome) :
    Keyed.get? name (complete freshId createdAt fields) = Keyed.get? name fields := by
  have h := completes_complete freshId createdAt fields
  by_cases hname : name = "id"
  · obtain ⟨id, hget⟩ := hid hname
    subst hname
    rw [h.identity, hget, Json.recordId?, Json.field?, hget]
    rfl
  · by_cases hdate : name = "created_at"
    · obtain ⟨v, hget⟩ := Option.isSome_iff_exists.mp (hcreated hdate)
      subst hdate
      rw [h.creation, hget, Option.getD_some]
    · exact h.others name hname hdate

end Bylaw.Store
