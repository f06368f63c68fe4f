import Bylaw.Proofs.Json.Reading

/-! Values with all their fields in order. Main statement: what is read of a text is one. -/

namespace Bylaw.Json

/-- In every object inside a value the fields are in increasing order of name. -/
inductive IsSorted : Json → Prop
  | null : IsSorted .null
  | bool (b : Bool) : IsSorted (.bool b)
  | num (n : Number) : IsSorted (.num n)
  | str (s : String) : IsSorted (.str s)
  | arr {items : List Json} (within : ∀ v ∈ items, IsSorted v) : IsSorted (.arr items)
  | obj {fields : Keyed Json} (sorted : Keyed.IsSorted fields)
    (within : ∀ field ∈ fields, IsSorted field.2) : IsSorted (.obj fields)

theorem IsSorted.empty : IsSorted (.obj []) := .obj .nil nofun

theorem IsSorted.getD {fields : Keyed Json} (h : ∀ field ∈ fields, field.2.IsSorted)
    (name : String) : ((Keyed.get? name fields).getD (.obj [])).IsSorted := by
  cases hget : Keyed.get? name fields with
  | none => exact .empty
  | some v => exact h _ (Keyed.mem_of_get? hget)

theorem IsSorted.insert {fields : Keyed Json} {v : Json} (h : (Json.obj fields).IsSorted)
    (hv : v.IsSorted) (name : String) : (Json.obj (Keyed.insert name v fields)).IsSorted := by
  cases h with
  | obj sorted within =>
    refine .obj (Keyed.isSorted_insert sorted) fun field hfield => ?_
    rcases Keyed.mem_of_mem_insert hfield with rfl | hold
    · exact hv
    · exact within field hold

theorem IsSorted.fields {fields : Keyed Json} (h : (Json.obj fields).IsSorted) :
    Keyed.IsSorted fields := by
  cases h with
  | obj sorted _ => exact sorted

theorem IsSorted.ofFields {fields : List (String × Json)} (h : ∀ field ∈ fields, field.2.IsSorted) :
    (Json.ofFields fields).IsSorted :=
  .obj (Keyed.isSorted_ofList fields) fun field hf => h field (Keyed.mem_of_mem_ofList hf)

section

variable {α : Type} {closing : Char}
  {part : (cs : List Char) → Except ReadError (Reading α cs)} {cs after : List Char} {p : α → Prop}

/-- What each part satisfies that is read, the parts up to a closing character satisfy. -/
theorem forall_of_yields_parts (hc : closing ≠ ',')
    (hp : ∀ {cs v after}, Yields (part cs) v after → p v) {vs : List α}
    (h : Yields (parts closing part cs) vs after) : ∀ v ∈ vs, p v := by
  induction vs generalizing cs with
  | nil => exact nofun
  | cons v vs ih =>
    obtain ⟨first, mid, hfirst, ⟨-, hvs⟩ | ⟨rest, others, -, hmore, hvs⟩⟩ :=
      (yields_parts hc).mp h
    · obtain ⟨rfl, rfl⟩ := List.cons.inj hvs
      exact List.forall_mem_singleton.mpr (hp hfirst)
    · obtain ⟨rfl, rfl⟩ := List.cons.inj hvs
      exact List.forall_mem_cons.mpr ⟨hp hfirst, ih hmore⟩

theorem forall_of_yields_enclosed (hc : closing ≠ ',')
    (hp : ∀ {cs v after}, Yields (part cs) v after → p v) {vs : List α}
    (h : Yields (enclosed closing part cs) vs after) : ∀ v ∈ vs, p v := by
  rcases yields_enclosed.mp h with ⟨-, rfl⟩ | ⟨-, -, h⟩
  · exact nofun
  · exact forall_of_yields_parts hc hp h

end

variable {v : Json} {cs after : List Char}

theorem isSorted_of_yields_valueHere
    {nested : Bool → (cs : List Char) → Except ReadError (Reading Json cs)}
    (hn : ∀ {isArray cs v after}, Yields (nested isArray cs) v after → v.IsSorted)
    (h : Yields (valueHere nested cs) v after) : v.IsSorted := by
  unfold valueHere at h
  split at h
  case h_1 | h_2 | h_3 =>
    obtain ⟨rfl, -⟩ := (yields_of_ok rfl _ _).mp h
    constructor
  case h_4 rest =>
    obtain ⟨_, hv⟩ := h
    obtain ⟨r, -, hr⟩ := map_eq_ok.mp hv
    obtain rfl : .str (.ofList r.value) = v := congrArg Reading.value hr
    exact .str _
  case h_5 rest | h_6 rest => exact hn (yields_within.mp h)
  case h_7 c rest _ _ _ _ _ _ =>
    split at h
    · obtain ⟨n, -, rfl⟩ := yields_map.mp h
      exact .num n
    · exact absurd h yields_error
  case h_8 => exact absurd h yields_error

theorem isSorted_of_yields {depth : Nat} (h : Yields (value depth cs) v after) : v.IsSorted := by
  induction depth generalizing cs v after with
  | zero =>
    exact isSorted_of_yields_valueHere (fun hv => absurd hv yields_error) (yields_value.mp h)
  | succ depth ih =>
    refine isSorted_of_yields_valueHere (fun {isArray} cs v after hv => ?_) (yields_value.mp h)
    cases isArray with
    | true =>
      obtain ⟨items, hitems, rfl⟩ := yields_map.mp hv
      exact .arr (forall_of_yields_enclosed (by decide) ih hitems)
    | false =>
      obtain ⟨entries, hentries, rfl⟩ := yields_map.mp hv
      refine .ofFields (forall_of_yields_enclosed (by decide) (fun he => ?_) hentries)
      obtain ⟨_, _, name, _, _, _, _, v, hv, rfl⟩ := yields_entry.mp he
      exact ih hv

theorem isSorted_of_read {s : String} (h : read s = .ok v) : v.IsSorted := by
  unfold read readChars at h
  split at h
  · cases h
  · rename_i r hr
    split at h
    · obtain rfl := Except.ok.inj h
      exact isSorted_of_yields ((yields_of_ok hr _ _).mpr ⟨rfl, rfl⟩)
    · cases h

end Bylaw.Json
