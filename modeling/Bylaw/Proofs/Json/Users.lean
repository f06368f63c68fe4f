import Bylaw.Proofs.Json.FieldNames
import Bylaw.Proofs.Json.Place
import Mathlib.Data.Option.Basic

/-! What is left of a value without its users. Main statement: a path that passes no field `user`
leads to what it led to, the users in it apart, and no other path leads anywhere. -/

namespace Bylaw.Json

/-- Whether nothing is inside a value. -/
def isScalar (v : Json) : Bool := !v.isArray && !v.isObject

/-- The second value is the first as far as it has no users: the same scalar, an array of as many
items, or an object with the same names in the same order, `user` apart. -/
inductive Thins : Json → Json → Prop
  | scalar {v : Json} (h : v.isScalar = true) : Thins v v
  | arr {items others : List Json} (h : others.length = items.length) :
    Thins (.arr items) (.arr others)
  | obj {fields others : Keyed Json}
    (h : Keyed.names others = (Keyed.names fields).filter (· ≠ "user")) :
    Thins (.obj fields) (.obj others)

theorem fieldsWithoutUsers_eq (fields : Keyed Json) :
    fieldsWithoutUsers fields =
      (fields.filter (·.1 ≠ "user")).map fun field => (field.1, field.2.withoutUsers) := by
  induction fields with
  | nil => rfl
  | cons field fields ih =>
    obtain ⟨name, v⟩ := field
    rw [fieldsWithoutUsers]
    by_cases hname : name = "user" <;> simp [hname, ih]

theorem names_fieldsWithoutUsers (fields : Keyed Json) :
    Keyed.names (fieldsWithoutUsers fields) = (Keyed.names fields).filter (· ≠ "user") := by
  rw [fieldsWithoutUsers_eq, Keyed.names, Keyed.names, List.map_map, List.filter_map]
  rfl

theorem get?_fieldsWithoutUsers (name : String) (fields : Keyed Json) :
    Keyed.get? name (fieldsWithoutUsers fields) =
      if name = "user" then none else (Keyed.get? name fields).map withoutUsers := by
  induction fields with
  | nil => simp [fieldsWithoutUsers, Keyed.get?]
  | cons field fields ih =>
    obtain ⟨key, v⟩ := field
    rw [fieldsWithoutUsers, Keyed.get?]
    by_cases hkey : key = "user"
    · subst hkey
      rw [if_pos rfl, ih]
      split
      · rfl
      · rename_i hname
        rw [if_neg (Ne.symm hname)]
    · rw [if_neg hkey, Keyed.get?]
      by_cases hname : key = name
      · subst hname
        simp [hkey]
      · simp [hname, ih]

theorem thins_withoutUsers (v : Json) : Thins v v.withoutUsers := by
  cases v with
  | arr items =>
    rw [withoutUsers, itemsWithoutUsers_eq]
    exact .arr (List.length_map _)
  | obj fields => exact .obj (names_fieldsWithoutUsers fields)
  | null | bool b | num n | str s => exact .scalar rfl

theorem field?_withoutUsers (name : String) (v : Json) :
    v.withoutUsers.field? name =
      if name = "user" then none else (v.field? name).map withoutUsers := by
  cases v with
  | obj fields => exact get?_fieldsWithoutUsers name fields
  | null | bool b | num n | str s | arr items => simp [withoutUsers, field?]

theorem item?_withoutUsers (index : Nat) (v : Json) :
    v.withoutUsers.item? index = (v.item? index).map withoutUsers := by
  cases v with
  | arr items => simp [withoutUsers, itemsWithoutUsers_eq, item?]
  | null | bool b | num n | str s | obj fields => simp [withoutUsers, item?]

/-- Steps into a value without its users lead where they led, or nowhere if they pass a user. -/
theorem at?_withoutUsers (path : List Step) (v : Json) :
    at? path v.withoutUsers =
      if .field "user" ∈ path then none else (at? path v).map withoutUsers := by
  induction path generalizing v with
  | nil => rfl
  | cons step path ih =>
    cases step with
    | field name =>
      rw [at?, at?, field?_withoutUsers]
      by_cases hname : name = "user"
      · simp [hname]
      · simp only [if_neg hname, List.mem_cons, Step.field.injEq, Ne.symm hname, false_or]
        cases v.field? name with
        | none => simp
        | some child => exact ih child
    | item index =>
      rw [at?, at?, item?_withoutUsers]
      simp only [List.mem_cons, reduceCtorEq, false_or]
      cases v.item? index with
      | none => simp
      | some child => exact ih child

/-- There is nothing to take away from a value that has no field `user`. -/
theorem withoutUsers_of_not_mem {v : Json} (h : "user" ∉ v.fieldNames) : v.withoutUsers = v := by
  induction v using nesting with
  | null | bool b | num n | str s => rfl
  | arr items ih =>
    have hitems : ∀ v ∈ items, v.withoutUsers = v := fun v hv =>
      ih v hv fun hn => h (mem_fieldNames_arr.mpr ⟨v, hv, hn⟩)
    rw [withoutUsers, itemsWithoutUsers_eq, List.map_congr_left hitems, List.map_id']
  | obj fields ih =>
    have hfields : ∀ field ∈ fields, field.1 ≠ "user" ∧ field.2.withoutUsers = field.2 := by
      intro field hf
      refine ⟨fun hn => h ?_, ih field hf fun hn => h ?_⟩
      · exact mem_fieldNames_obj.mpr ⟨field, hf, .inl hn.symm⟩
      · exact mem_fieldNames_obj.mpr ⟨field, hf, .inr hn⟩
    have hkept : fields.filter (·.1 ≠ "user") = fields :=
      List.filter_eq_self.mpr fun field hf => decide_eq_true (hfields field hf).1
    have hsame : ∀ field ∈ fields, (field.1, field.2.withoutUsers) = field := fun field hf =>
      Prod.ext rfl (hfields field hf).2
    rw [withoutUsers, fieldsWithoutUsers_eq, hkept, List.map_congr_left hsame, List.map_id']

/-- A value without its users has no field `user` at any depth. A path that passes no such field
leads in it to what is left of the value it led to, and leads nowhere if it led nowhere; all other
paths lead nowhere. There is then nothing more to take away. -/
theorem withoutUsers_exact (v : Json) :
    "user" ∉ v.withoutUsers.fieldNames ∧
      (∀ path, if .field "user" ∈ path then at? path v.withoutUsers = none
        else Option.Rel Thins (at? path v) (at? path v.withoutUsers)) ∧
      v.withoutUsers.withoutUsers = v.withoutUsers := by
  have hnone := fieldNames_withoutUsers v
  refine ⟨hnone, fun path => ?_, withoutUsers_of_not_mem hnone⟩
  rw [at?_withoutUsers]
  split
  · rfl
  · cases at? path v with
    | none => exact .none
    | some w => exact .some (thins_withoutUsers w)

/-- The users of a record and of what it holds go, its other fields stay. -/
example :
    (Json.obj [("id", .str "1"), ("orders", .arr [.obj [("total", .null), ("user", .str "ann")]]),
      ("user", .obj [])]).withoutUsers ==
        .obj [("id", .str "1"), ("orders", .arr [.obj [("total", .null)]])] := by
  decide

end Bylaw.Json
