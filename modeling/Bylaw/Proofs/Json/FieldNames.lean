import Bylaw.Gateway.Edge
import Bylaw.Proofs.Json.Rereading

/-! The names of fields at any depth of a value. Main statements: reading the text of a value yields
no other names than the value has, and a value without its users has no field of that name. -/

namespace Bylaw.Json

mutual

/-- The names of the fields of a value, at any depth. -/
def fieldNames : Json → List String
  | .arr items => fieldNamesOfItems items
  | .obj fields => fieldNamesOfFields fields
  | _ => []

def fieldNamesOfItems : List Json → List String
  | [] => []
  | v :: vs => fieldNames v ++ fieldNamesOfItems vs

def fieldNamesOfFields : List (String × Json) → List String
  | [] => []
  | (name, v) :: fields => name :: (fieldNames v ++ fieldNamesOfFields fields)

end

variable {name : String}

@[simp] theorem mem_fieldNames_arr {items : List Json} :
    name ∈ (Json.arr items).fieldNames ↔ ∃ v ∈ items, name ∈ v.fieldNames := by
  rw [fieldNames]
  induction items with
  | nil => simp [fieldNamesOfItems]
  | cons v vs ih => simp [fieldNamesOfItems, ih]

@[simp] theorem mem_fieldNames_obj {fields : List (String × Json)} :
    name ∈ (Json.obj fields).fieldNames ↔
      ∃ field ∈ fields, name = field.1 ∨ name ∈ field.2.fieldNames := by
  rw [fieldNames]
  induction fields with
  | nil => simp [fieldNamesOfFields]
  | cons field fields ih => simp [fieldNamesOfFields, ih, or_assoc]

theorem fieldNames_ofFields_subset (fields : List (String × Json)) :
    (Json.ofFields fields).fieldNames ⊆ (Json.obj fields).fieldNames := by
  intro name h
  obtain ⟨field, hf, hn⟩ := mem_fieldNames_obj.mp h
  exact mem_fieldNames_obj.mpr ⟨field, Keyed.mem_of_mem_ofList hf, hn⟩

theorem exists_of_mem_mapM {α β : Type} {f : α → Option β} {xs : List α} {ys : List β}
    (h : xs.mapM f = some ys) {y : β} (hy : y ∈ ys) : ∃ x ∈ xs, f x = some y := by
  induction xs generalizing ys with
  | nil =>
    obtain rfl : ys = [] := by simpa [eq_comm] using h
    cases hy
  | cons x xs ih =>
    obtain ⟨v, hv, vs, hvs, rfl⟩ := mapM_cons_eq_some.mp h
    rcases List.mem_cons.mp hy with rfl | hy
    · exact ⟨x, List.mem_cons_self, hv⟩
    · obtain ⟨z, hz, hfz⟩ := ih hvs hy
      exact ⟨z, List.mem_cons_of_mem x hz, hfz⟩

/-- A value that is read from the text of another has no names but those of the other. -/
theorem fieldNames_reread_subset {v w : Json} (h : v.reread? = some w) :
    w.fieldNames ⊆ v.fieldNames := by
  induction v using nesting generalizing w with
  | null => obtain rfl := Option.some.inj h; exact fun _ => id
  | bool b => obtain rfl := Option.some.inj h; exact fun _ => id
  | str s => obtain rfl := Option.some.inj h; exact fun _ => id
  | num n =>
    obtain ⟨m, -, rfl⟩ := Option.map_eq_some_iff.mp h
    exact fun _ => id
  | arr items ih =>
    obtain ⟨ws, hws, rfl⟩ := Option.map_eq_some_iff.mp h
    rw [rereadItems?_eq] at hws
    intro name hn
    obtain ⟨w, hw, hn⟩ := mem_fieldNames_arr.mp hn
    obtain ⟨v, hv, hr⟩ := exists_of_mem_mapM hws hw
    exact mem_fieldNames_arr.mpr ⟨v, hv, ih v hv hr hn⟩
  | obj fields ih =>
    obtain ⟨ws, hws, rfl⟩ := Option.map_eq_some_iff.mp h
    rw [rereadFields?_eq] at hws
    intro name hn
    obtain ⟨entry, hw, hn⟩ := mem_fieldNames_obj.mp (fieldNames_ofFields_subset ws hn)
    obtain ⟨field, hf, he⟩ := exists_of_mem_mapM hws hw
    obtain ⟨w, hr, rfl⟩ := Option.map_eq_some_iff.mp he
    exact mem_fieldNames_obj.mpr ⟨field, hf, hn.imp_right fun hn => ih field hf hr hn⟩

/-- The text of a value is read without any name that the value does not have. -/
theorem fieldNames_read_subset {v w : Json} (h : read v.compact = .ok w) :
    w.fieldNames ⊆ v.fieldNames :=
  fieldNames_reread_subset ((read_compact_iff v w).mp h).2

theorem itemsWithoutUsers_eq (items : List Json) :
    itemsWithoutUsers items = items.map withoutUsers := by
  induction items with
  | nil => rfl
  | cons v vs ih => rw [itemsWithoutUsers, ih, List.map_cons]

theorem mem_fieldsWithoutUsers {fields : List (String × Json)} {entry : String × Json} :
    entry ∈ fieldsWithoutUsers fields ↔
      ∃ field ∈ fields, field.1 ≠ "user" ∧ entry = (field.1, field.2.withoutUsers) := by
  induction fields with
  | nil => simp [fieldsWithoutUsers]
  | cons field fields ih =>
    obtain ⟨key, v⟩ := field
    rw [fieldsWithoutUsers]
    split <;> simp [*]

theorem fieldNames_withoutUsers (v : Json) : "user" ∉ v.withoutUsers.fieldNames := by
  induction v using nesting with
  | null => exact List.not_mem_nil
  | bool b => exact List.not_mem_nil
  | num n => exact List.not_mem_nil
  | str s => exact List.not_mem_nil
  | arr items ih =>
    rw [withoutUsers, itemsWithoutUsers_eq, mem_fieldNames_arr]
    rintro ⟨w, hw, hn⟩
    obtain ⟨v, hv, rfl⟩ := List.mem_map.mp hw
    exact ih v hv hn
  | obj fields ih =>
    rw [withoutUsers, mem_fieldNames_obj]
    rintro ⟨entry, he, hn⟩
    obtain ⟨field, hf, hne, rfl⟩ := mem_fieldsWithoutUsers.mp he
    exact hn.elim (fun h => hne h.symm) (ih field hf)

end Bylaw.Json
