import Bylaw.Proofs.Json.Rereading

/-! The fields of what is read from a text. Main statement: an object that was read, and is read
again from its own text, has in each field what is read from the text of that field's value. -/

namespace Bylaw.Json

/-- A value that is neither an array, nor an object, nor a double. -/
def isExactScalar : Json → Bool
  | .null => true
  | .bool _ => true
  | .str _ => true
  | .num (.int _) => true
  | _ => false

/-- Such a value is read from its text as itself. -/
theorem reread?_of_isExactScalar {v : Json} (h : v.isExactScalar) : v.reread? = some v := by
  cases v with
  | null => rfl
  | bool b => rfl
  | str s => rfl
  | num n =>
    cases n with
    | int i => rw [reread?, Number.reread?_int, Option.map_some]
    | real x => cases h
  | arr items => cases h
  | obj fields => cases h

theorem depth_of_isExactScalar {v : Json} (h : v.isExactScalar) : v.depth = 0 := by
  cases v with
  | arr items => cases h
  | obj fields => cases h
  | _ => rfl

variable {fields : List (String × Json)}

theorem mapM_rereadField?_of_isExactScalar (h : ∀ field ∈ fields, field.2.isExactScalar) :
    fields.mapM rereadField? = some fields := by
  induction fields with
  | nil => rfl
  | cons field rest ih =>
    obtain ⟨hfield, hrest⟩ := List.forall_mem_cons.mp h
    have hsame : rereadField? field = some field := by
      rw [rereadField?, reread?_of_isExactScalar hfield, Option.map_some]
    exact mapM_cons_eq_some.mpr ⟨field, hsame, rest, ih hrest, rfl⟩

/-- An object of such values, in order of name, is read from its text as itself. -/
theorem read_compact_of_isExactScalar (hs : Keyed.IsSorted fields)
    (h : ∀ field ∈ fields, field.2.isExactScalar) :
    read (Json.obj fields).compact = .ok (.obj fields) := by
  have hdepth : depthOfFields fields ≤ depthLimit - 1 :=
    depthOfFields_le_iff.mpr fun field hf => by
      rw [depth_of_isExactScalar (h field hf)]
      exact Nat.zero_le _
  rw [read_compact_iff, reread?, rereadFields?_eq, mapM_rereadField?_of_isExactScalar h,
    Option.map_some, ofFields, Keyed.ofList_eq_self hs]
  exact ⟨Nat.succ_le_succ hdepth, rfl⟩

theorem names_rereadFields {ws : List (String × Json)} (h : fields.mapM rereadField? = some ws) :
    Keyed.names ws = Keyed.names fields := by
  induction fields generalizing ws with
  | nil =>
    obtain rfl : ws = [] := by simpa [eq_comm] using h
    rfl
  | cons field fields ih =>
    obtain ⟨w, hw, rest, hrest, rfl⟩ := mapM_cons_eq_some.mp h
    obtain ⟨v, -, rfl⟩ := Option.map_eq_some_iff.mp hw
    exact congrArg (field.1 :: ·) (ih hrest)

theorem get?_rereadFields {ws : List (String × Json)} (h : fields.mapM rereadField? = some ws)
    (name : String) : Keyed.get? name ws = (Keyed.get? name fields).bind reread? := by
  induction fields generalizing ws with
  | nil =>
    obtain rfl : ws = [] := by simpa [eq_comm] using h
    rfl
  | cons field fields ih =>
    obtain ⟨w, hw, rest, hrest, rfl⟩ := mapM_cons_eq_some.mp h
    obtain ⟨v, hv, rfl⟩ := Option.map_eq_some_iff.mp hw
    simp only [Keyed.get?]
    split
    · exact hv.symm
    · exact ih hrest

theorem isSome_get?_rereadFields {ws : List (String × Json)}
    (h : fields.mapM rereadField? = some ws) (name : String) :
    (Keyed.get? name ws).isSome = (Keyed.get? name fields).isSome := by
  induction fields generalizing ws with
  | nil =>
    obtain rfl : ws = [] := by simpa [eq_comm] using h
    rfl
  | cons field fields ih =>
    obtain ⟨w, hw, rest, hrest, rfl⟩ := mapM_cons_eq_some.mp h
    obtain ⟨v, -, rfl⟩ := Option.map_eq_some_iff.mp hw
    simp only [Keyed.get?]
    split
    · rfl
    · exact ih hrest

/-- An object whose fields are in order is read from its text field by field. -/
theorem reread?_obj (hs : Keyed.IsSorted fields) {w : Json}
    (h : (Json.obj fields).reread? = some w) :
    ∃ ws, w = .obj ws ∧ ∀ name, Keyed.get? name ws = (Keyed.get? name fields).bind reread? ∧
      (Keyed.get? name ws).isSome = (Keyed.get? name fields).isSome := by
  rw [reread?, rereadFields?_eq] at h
  obtain ⟨ws, hws, rfl⟩ := Option.map_eq_some_iff.mp h
  have hsorted : Keyed.IsSorted ws := by
    rw [Keyed.isSorted_iff_names, names_rereadFields hws]
    exact Keyed.isSorted_iff_names.mp hs
  exact ⟨ws, by rw [ofFields, Keyed.ofList_eq_self hsorted], fun name =>
    ⟨get?_rereadFields hws name, isSome_get?_rereadFields hws name⟩⟩

end Bylaw.Json
