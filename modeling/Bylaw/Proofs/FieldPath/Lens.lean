import Bylaw.Proofs.FieldPath.Assignment
import Bylaw.Proofs.Json.Sorted

/-! Setting a value in place, where objects are made on the way before it is known whether the value
can be set. Main statement: a value that cannot be set leaves everything as it was, and one that is
set is found at its path, and below it as in the value; other paths lead to what they led to, and
of two values set at one path only the second counts. -/

namespace Bylaw

namespace FieldPath

/-- The path that goes on from the end of one along another. -/
def append (p q : FieldPath) : FieldPath where
  segments := p.segments ++ q.segments
  nonempty := List.append_ne_nil_of_left_ne_nil p.nonempty q.segments
  plain := List.forall_mem_append.mpr ⟨p.plain, q.plain⟩

/-- Sets a value at the end of segments in place, and tells whether it could be set. A segment that
leads nowhere gets an object before the walk goes on, and what was changed until a walk ends in
failure stays changed. -/
def writeAt : List String → Json → Json → Bool × Json
  | [last], .obj fields, value => (true, .obj (Keyed.insert last value fields))
  | segment :: rest, .obj fields, value =>
    let (done, child) := writeAt rest ((Keyed.get? segment fields).getD (.obj [])) value
    (done, .obj (Keyed.insert segment child fields))
  | _, root, _ => (false, root)

/-- Sets a value at a path in place. -/
def write (path : FieldPath) (root value : Json) : Bool × Json :=
  writeAt path.segments root value

theorem writeAt_cons_cons (segment next : String) (rest : List String) (fields : Keyed Json)
    (value : Json) :
    writeAt (segment :: next :: rest) (.obj fields) value =
      let written := writeAt (next :: rest) ((Keyed.get? segment fields).getD (.obj [])) value
      (written.1, .obj (Keyed.insert segment written.2 fields)) := rfl

/-- In an object without fields every path can be made. -/
theorem exists_assignAt?_empty {segments : List String} (h : segments ≠ []) (value : Json) :
    ∃ after, assignAt? segments (.obj []) value = some after := by
  induction segments with
  | nil => exact absurd rfl h
  | cons segment rest ih =>
    cases rest with
    | nil => exact ⟨_, rfl⟩
    | cons next rest =>
      obtain ⟨child, hchild⟩ := ih (List.cons_ne_nil next rest)
      refine ⟨.obj (Keyed.insert segment child []), ?_⟩
      rw [assignAt?_obj]
      exact congrArg (Option.map _) hchild

/-- A walk that fails has come through objects that were there, so that it has changed nothing. -/
theorem writeAt_eq (segments : List String) {root : Json} (h : root.IsSorted) (value : Json) :
    writeAt segments root value =
      match assignAt? segments root value with
      | some after => (true, after)
      | none => (false, root) := by
  induction segments generalizing root with
  | nil => cases root <;> rfl
  | cons segment rest ih =>
    cases h with
    | @obj fields sorted within =>
      cases rest with
      | nil => rfl
      | cons next rest =>
        rw [writeAt_cons_cons, ih (.getD within segment), assignAt?_obj, grow?]
        · cases hold : Keyed.get? segment fields with
          | none =>
            obtain ⟨child, hchild⟩ := exists_assignAt?_empty (List.cons_ne_nil next rest) value
            simp only [Option.getD_none, hchild, Option.map_some]
          | some old =>
            rw [Option.getD_some]
            cases assignAt? (next :: rest) old value with
            | none => simp only [Option.map_none, Keyed.insert_of_get? sorted hold]
            | some child => rfl
        · exact List.cons_ne_nil next rest
    | _ => cases rest <;> rfl

theorem isSorted_assignAt? {segments : List String} {root value after : Json} (h : root.IsSorted)
    (hv : value.IsSorted) (ha : assignAt? segments root value = some after) : after.IsSorted := by
  induction segments generalizing root after with
  | nil => cases root <;> cases ha
  | cons segment rest ih =>
    obtain ⟨_, _, fields, child, ⟨⟩, rfl, hc, rfl⟩ := obj_of_assignAt? ha
    refine h.insert ?_ segment
    cases h with
    | obj sorted within =>
      cases rest with
      | nil => rwa [← Option.some.inj hc]
      | cons next rest => exact ih (.getD within segment) hc

theorem follow?_append (xs ys : List String) (root : Json) :
    follow? (xs ++ ys) root = (follow? xs root).bind (follow? ys) := by
  induction xs generalizing root with
  | nil => rfl
  | cons x xs ih =>
    rw [List.cons_append, follow?, follow?, Option.bind_assoc]
    exact congrArg _ (funext ih)

theorem follow?_assigned {segments : List String} {root value after : Json}
    (h : assignAt? segments root value = some after) : follow? segments after = some value := by
  induction segments generalizing root after with
  | nil => cases root <;> cases h
  | cons segment rest ih =>
    obtain ⟨_, _, fields, child, ⟨⟩, rfl, hc, rfl⟩ := obj_of_assignAt? h
    rw [follow?, child?, Keyed.get?_insert_self, Option.bind_some]
    cases rest with
    | nil => exact congrArg some (Option.some.inj hc).symm
    | cons next rest => exact ih hc

theorem assignAt?_assigned {segments : List String} {root value after : Json}
    (h : assignAt? segments root value = some after) (other : Json) :
    assignAt? segments after other = assignAt? segments root other := by
  induction segments generalizing root after with
  | nil => cases root <;> cases h
  | cons segment rest ih =>
    obtain ⟨_, _, fields, child, ⟨⟩, rfl, hc, rfl⟩ := obj_of_assignAt? h
    simp only [assignAt?_obj, Keyed.get?_insert_self, Keyed.insert_insert]
    cases rest with
    | nil => rfl
    | cons next rest => simp only [grow?, Option.getD_some, ih hc]

theorem isSome_assignAt?_congr (segments : List String) (root value other : Json) :
    (assignAt? segments root value).isSome = (assignAt? segments root other).isSome := by
  induction segments generalizing root with
  | nil => cases root <;> rfl
  | cons segment rest ih =>
    cases root with
    | obj fields =>
      simp only [assignAt?_obj, Option.isSome_map]
      cases rest with
      | nil => rfl
      | cons next rest => exact ih _
    | _ => cases rest <;> rfl

theorem write_eq {root : Json} (h : root.IsSorted) (path : FieldPath) (value : Json) :
    path.write root value =
      match path.assign? root value with
      | some after => (true, after)
      | none => (false, root) :=
  writeAt_eq path.segments h value

/-- A value that was set can be replaced, and the value before is forgotten. -/
theorem write_write {root value after : Json} (h : root.IsSorted) (hv : value.IsSorted)
    {path : FieldPath} (ha : path.assign? root value = some after) (other : Json) :
    ∃ again, path.write after other = (true, again) ∧ path.write root other = (true, again) := by
  have hsome := isSome_assignAt?_congr path.segments root value other
  have hagain : path.assign? after other = path.assign? root other := assignAt?_assigned ha other
  obtain ⟨again, hother⟩ : ∃ again, path.assign? root other = some again := by
    rw [← Option.isSome_iff_exists, assign?, ← hsome]
    exact Option.isSome_of_eq_some ha
  rw [write_eq (isSorted_assignAt? h hv ha), write_eq h, hagain, hother]
  exact ⟨again, rfl, rfl⟩

/-- A value set at a path in place. It is the assignment of the run that is made so. If it is said
to have failed, the root is what it was. If not, the path leads to the value, or to nothing for the
value null; a path that goes on from there leads to what the rest of it leads to in the value; paths
that do not overlap it lead to what they led to; and another value that is set at the path leaves
what it leaves in the root as it was. -/
theorem write_lens {root value : Json} (h : root.IsSorted) (hv : value.IsSorted) (p : FieldPath) :
    let done := (p.write root value).1
    let after := (p.write root value).2
    p.assign? root value = (if done then some after else none) ∧
      (done = false → after = root) ∧
      (done = true →
        p.lookup? after = (if value.isNull then none else some value) ∧
        (∀ q, (p.append q).lookup? after = q.lookup? value) ∧
        (∀ q, ¬p.Overlaps q → q.lookup? after = q.lookup? root) ∧
        (∀ other, ∃ again,
          p.write after other = (true, again) ∧ p.write root other = (true, again))) := by
  intro done after
  have hwrite := write_eq h p value
  cases ha : p.assign? root value with
  | none =>
    rw [ha] at hwrite
    obtain ⟨hdone, hafter⟩ : done = false ∧ after = root := Prod.mk.inj hwrite
    simp [hdone, hafter]
  | some assigned =>
    rw [ha] at hwrite
    obtain ⟨hdone, hafter⟩ : done = true ∧ after = assigned := Prod.mk.inj hwrite
    have hfollow : follow? p.segments after = some value := hafter ▸ follow?_assigned ha
    refine ⟨by simp [hdone, hafter], by simp [hdone],
      fun _ => ⟨?_, fun q => ?_, fun q hq => ?_, ?_⟩⟩
    · rw [lookup?, hfollow]
      cases hnull : value.isNull <;> simp [Option.filter, hnull]
    · rw [lookup?, append, follow?_append, hfollow]
      rfl
    · have hput := lookup?_put hq value root
      rwa [put, ha, Option.getD_some, ← hafter] at hput
    · rw [hafter]
      exact write_write h hv ha

/-- An object that is set below one that has to be made, next to a list; and a path that a text
stands in the way of. -/
theorem write_lens_segment :
    let root : Json := .obj [("meta", .obj [("tags", .arr [.str "new"])]), ("name", .str "Ada")]
    let value : Json := .obj [("code", .str "VIP"), ("until", .null)]
    let segment : FieldPath := ⟨["meta", "segment", "current"], by decide, by decide⟩
    let code : FieldPath := ⟨["code"], by decide, by decide⟩
    let tag : FieldPath := ⟨["meta", "tags", "0"], by decide, by decide⟩
    let blocked : FieldPath := ⟨["name", "first"], by decide, by decide⟩
    root.IsSorted ∧ value.IsSorted ∧ (segment.write root value).1 = true ∧
      (segment.append code).lookup? (segment.write root value).2 = some (.str "VIP") ∧
      tag.lookup? (segment.write root value).2 = some (.str "new") ∧
      (blocked.write root value).1 = false ∧ (blocked.write root value).2 = root := by
  intro root value segment code tag blocked
  have hroot : root.IsSorted :=
    .obj (by decide) (List.forall_mem_cons.mpr
      ⟨.obj (by decide) (List.forall_mem_singleton.mpr
        (.arr (List.forall_mem_singleton.mpr (.str "new")))),
      List.forall_mem_singleton.mpr (.str "Ada")⟩)
  have hvalue : value.IsSorted :=
    .obj (by decide) (List.forall_mem_cons.mpr ⟨.str "VIP", List.forall_mem_singleton.mpr .null⟩)
  obtain ⟨-, -, hset⟩ := write_lens hroot hvalue segment
  obtain ⟨-, hunchanged, -⟩ := write_lens hroot hvalue blocked
  obtain ⟨-, hbelow, hapart, -⟩ := hset rfl
  exact ⟨hroot, hvalue, rfl, hbelow code, (hapart tag (by decide)).trans rfl, rfl, hunchanged rfl⟩

end FieldPath

end Bylaw
