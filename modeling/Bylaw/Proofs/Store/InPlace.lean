import Bylaw.Proofs.Store.Contract

/-! The operations on a store in place: a collection and a place in it are looked for, what is found
there is written to, a patch one field at a time, and an operation that ends early leaves what it
has written. Main statement: on every store that comes to be, this is what the operations do. -/

namespace Bylaw.Store

/-- The place in a collection of the first record with an identity. -/
def place? (store : Store) (entity id : String) : Option Nat :=
  (Keyed.get? entity store.collections).bind (·.findIdx? (hasId id))

/-- Writes the records of a collection. -/
def setRecords (store : Store) (entity : String) (records : List Json) : Store :=
  ⟨Keyed.insert entity records store.collections⟩

/-- Writes the record at a place of a collection. -/
def setRecord (store : Store) (entity : String) (i : Nat) (record : Json) : Store :=
  store.setRecords entity ((store.recordsOf entity).set i record)

/-- Writes a field of the record at a place of a collection, if there is an object. -/
def setField (store : Store) (entity : String) (i : Nat) (name : String) (v : Json) : Store :=
  match (store.recordsOf entity)[i]? with
  | some (.obj fields) => store.setRecord entity i (.obj (Keyed.insert name v fields))
  | _ => store

/-- Writes fields of the record at a place one after the other, its identity excepted. -/
def setFields (store : Store) (entity : String) (i : Nat) : Keyed Json → Store
  | [] => store
  | (name, v) :: rest =>
    if name = "id" then store.setFields entity i rest
    else (store.setField entity i name v).setFields entity i rest

/-- An operation on a store in place. -/
def operateInPlace (store : Store) : Operation → Option Json × Store
  | .insert entity freshId createdAt v => Id.run do
    let mut store := store
    let .obj fields := v | return (none, store)
    let record := Json.obj (complete freshId createdAt fields)
    -- The collection comes to be before the record is added to it.
    store := store.setRecords entity (store.recordsOf entity)
    store := store.setRecords entity (store.recordsOf entity ++ [record])
    return (some record, store)
  | .replace entity id v => Id.run do
    let mut store := store
    let .obj fields := v | return (none, store)
    let record := Json.obj (Keyed.insert "id" (.str id) fields)
    let some i := store.place? entity id | return (none, store)
    store := store.setRecord entity i record
    return (some record, store)
  | .patch entity id v => Id.run do
    let mut store := store
    let .obj changes := v | return (none, store)
    let some i := store.place? entity id | return (none, store)
    let some (.obj _) := (store.recordsOf entity)[i]? | return (none, store)
    store := store.setFields entity i changes
    return ((store.recordsOf entity)[i]?, store)
  | .remove entity id => Id.run do
    let mut store := store
    let some i := store.place? entity id | return (none, store)
    let record := (store.recordsOf entity)[i]?
    store := store.setRecords entity ((store.recordsOf entity).eraseIdx i)
    return (record, store)

theorem setRecords_setRecords (store : Store) (entity : String) (records others : List Json) :
    (store.setRecords entity records).setRecords entity others = store.setRecords entity others :=
  congrArg Store.mk (Keyed.insert_insert entity records others store.collections)

theorem recordsOf_setRecords (store : Store) (entity : String) (records : List Json) :
    (store.setRecords entity records).recordsOf entity = records := by
  rw [recordsOf, setRecords, Keyed.get?_insert_self, Option.getD_some]

theorem merged_cons (name : String) (v : Json) (rest fields : Keyed Json) :
    merged ((name, v) :: rest) (.obj fields) =
      merged rest (.obj (if name = "id" then fields else Keyed.insert name v fields)) := rfl

section

variable {store : Store} {entity id : String} {done todo : List Json} {record : Json}

theorem IsFirst.place?_eq (h : IsFirst store entity id done record todo) :
    store.place? entity id = some done.length := by
  rw [place?, h.stored, Option.bind_some, List.findIdx?_append,
    List.findIdx?_eq_none_iff.mpr fun r hr => by simpa using h.not_hasId r hr,
    List.findIdx?_cons, hasId_iff.mpr h.identity]
  simp

theorem place?_eq_none (h : ¬store.HasRecord entity id) : store.place? entity id = none := by
  rw [place?, Option.bind_eq_none_iff]
  intro records hrecords
  refine List.findIdx?_eq_none_iff.mpr fun r hr => ?_
  rw [Bool.eq_false_iff]
  exact fun hid => h ⟨r, by rwa [recordsOf, hrecords, Option.getD_some], hasId_iff.mp hid⟩

theorem getElem?_middle (done : List Json) (record : Json) (todo : List Json) :
    (done ++ record :: todo)[done.length]? = some record := by
  rw [List.getElem?_append_right (Nat.le_refl _), Nat.sub_self]
  rfl

theorem eraseIdx_middle (done : List Json) (record : Json) (todo : List Json) :
    (done ++ record :: todo).eraseIdx done.length = done ++ todo := by
  rw [List.eraseIdx_append_of_length_le (Nat.le_refl _), Nat.sub_self]
  rfl

theorem IsFirst.getElem?_eq (h : IsFirst store entity id done record todo) :
    (store.recordsOf entity)[done.length]? = some record := by
  rw [h.recordsOf_eq, getElem?_middle]

theorem IsFirst.setRecord_eq (h : IsFirst store entity id done record todo) (other : Json) :
    store.setRecord entity done.length other =
      store.setRecords entity (done ++ other :: todo) := by
  rw [setRecord, h.recordsOf_eq, List.set_append_right _ _ (Nat.le_refl _), Nat.sub_self,
    List.set_cons_zero]

theorem IsFirst.setField_eq {fields : Keyed Json}
    (h : IsFirst store entity id done (.obj fields) todo) (name : String) (v : Json) :
    store.setField entity done.length name v =
      store.setRecords entity (done ++ .obj (Keyed.insert name v fields) :: todo) := by
  rw [setField, h.getElem?_eq]
  exact h.setRecord_eq _

/-- A record that is written in place of another with the same identity is the first with it. -/
theorem IsFirst.setRecords (h : IsFirst store entity id done record todo) {other : Json}
    (hid : other.recordId? = some id) :
    IsFirst (store.setRecords entity (done ++ other :: todo)) entity id done other todo where
  stored := Keyed.get?_insert_self _ _ _
  identity := hid
  before := h.before

/-- Writing fields one after the other merges them. -/
theorem IsFirst.setFields_eq {fields : Keyed Json}
    (h : IsFirst store entity id done (.obj fields) todo) (hs : Keyed.IsSorted store.collections)
    (changes : Keyed Json) :
    store.setFields entity done.length changes =
      store.setRecords entity (done ++ merged changes (.obj fields) :: todo) := by
  induction changes generalizing store fields with
  | nil => exact (congrArg Store.mk (Keyed.insert_of_get? hs h.stored)).symm
  | cons change rest ih =>
    obtain ⟨name, v⟩ := change
    rw [setFields, merged_cons]
    by_cases hname : name = "id"
    · rw [if_pos hname, if_pos hname, ih h hs]
    · have hid : (Json.obj (Keyed.insert name v fields)).recordId? = some id := by
        rw [Json.recordId?_eq_some_iff, Json.field?, Keyed.get?_insert_of_ne (Ne.symm hname)]
        exact Json.recordId?_eq_some_iff.mp h.identity
      rw [if_neg hname, if_neg hname, h.setField_eq,
        ih (h.setRecords hid) (Keyed.isSorted_insert hs), setRecords_setRecords]

end

/-- A store is written to only when nothing is left that could stop the operation. -/
theorem operateInPlace_eq {store : Store} (hs : Keyed.IsSorted store.collections)
    (op : Operation) : store.operateInPlace op = store.operate op := by
  cases op with
  | insert entity freshId createdAt v =>
    cases v with
    | obj fields =>
      show (_, (store.setRecords entity (store.recordsOf entity)).setRecords entity _) = _
      rw [recordsOf_setRecords, setRecords_setRecords]
      rfl
    | _ => rfl
  | replace entity id v =>
    cases v with
    | obj fields =>
      by_cases hr : store.HasRecord entity id
      · obtain ⟨done, old, todo, hfirst⟩ := hasRecord_iff.mp hr
        simp only [operateInPlace, hfirst.place?_eq, hfirst.setRecord_eq]
        rewrite [operate, operate?, replace?, hfirst.change?_eq]
        rfl
      · simp only [operateInPlace, place?_eq_none hr]
        rewrite [operate, operate?, replace?, change?_of_not_hasRecord hr]
        rfl
    | _ => rfl
  | patch entity id v =>
    cases v with
    | obj changes =>
      by_cases hr : store.HasRecord entity id
      · obtain ⟨done, old, todo, hfirst⟩ := hasRecord_iff.mp hr
        obtain ⟨fields, -, rfl, -⟩ := Json.isIdentified_of_recordId? hfirst.identity
        simp only [operateInPlace, hfirst.place?_eq, hfirst.getElem?_eq, hfirst.setFields_eq hs,
          recordsOf_setRecords, getElem?_middle]
        rewrite [operate, operate?, patch?, hfirst.get?_eq]
        simp only [hfirst.change?_eq]
        rfl
      · simp only [operateInPlace, place?_eq_none hr]
        rewrite [operate, operate?, patch?, get?_of_not_hasRecord hr]
        rfl
    | _ => rfl
  | remove entity id =>
    by_cases hr : store.HasRecord entity id
    · obtain ⟨done, old, todo, hfirst⟩ := hasRecord_iff.mp hr
      simp only [operateInPlace, hfirst.place?_eq, hfirst.recordsOf_eq, getElem?_middle,
        eraseIdx_middle]
      rewrite [operate, operate?, hfirst.remove?_eq]
      rfl
    · simp only [operateInPlace, place?_eq_none hr]
      rewrite [operate, operate?, remove?, get?_of_not_hasRecord hr]
      rfl

/-- The store after operations in place on an empty one. -/
def runInPlace (ops : List Operation) : Store :=
  ops.foldl (fun store op => (store.operateInPlace op).2) {}

theorem runInPlace_eq (ops : List Operation) : runInPlace ops = run ops := by
  induction ops using List.reverseRecOn with
  | nil => rfl
  | append_singleton ops op ih =>
    rw [runInPlace, List.foldl_append, run, List.foldl_append]
    show ((runInPlace ops).operateInPlace op).2 = ((run ops).operate op).2
    rw [ih, operateInPlace_eq (isSound_run ops).sorted]

end Bylaw.Store
