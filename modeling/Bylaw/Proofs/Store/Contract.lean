import Bylaw.Proofs.Store.Completion
import Bylaw.Proofs.Store.Rewriting
import Mathlib.Data.List.Induction

/-! What the operations on a store do, from an empty store on. Main statement: after any of them
every record is an object with a text as its `id`, and the next one either leaves the store as it is
or does to the records of one collection what it is for. -/

namespace Bylaw

namespace Json

/-- An object with a text as its `id`, whatever the order of its fields. -/
def IsIdentified (record : Json) : Prop :=
  ∃ fields id, record = .obj fields ∧ Keyed.get? "id" fields = some (.str id)

theorem isIdentified_of_recordId? {record : Json} {id : String} (h : record.recordId? = some id) :
    record.IsIdentified := by
  have hfield := recordId?_eq_some_iff.mp h
  cases record with
  | obj fields => exact ⟨fields, id, rfl, hfield⟩
  | _ => cases hfield

end Json

namespace Store

/-- An operation that may change a store. The identity and the time that a new record gets, should
it have none, are part of its insertion. -/
inductive Operation where
  | insert (entity freshId createdAt : String) (v : Json)
  | replace (entity id : String) (v : Json)
  | patch (entity id : String) (v : Json)
  | remove (entity id : String)

/-- The collection that an operation is about. -/
def Operation.entity : Operation → String
  | .insert entity _ _ _ => entity
  | .replace entity _ _ => entity
  | .patch entity _ _ => entity
  | .remove entity _ => entity

/-- The answer to an operation and the store that it leaves; nothing if it cannot be done. -/
def operate? (store : Store) : Operation → Option (Json × Store)
  | .insert entity freshId createdAt v => store.insert? entity freshId createdAt v
  | .replace entity id v => store.replace? entity id v
  | .patch entity id v => store.patch? entity id v
  | .remove entity id => store.remove? entity id

/-- The answer to an operation, and the store after it. -/
def operate (store : Store) (op : Operation) : Option Json × Store :=
  match store.operate? op with
  | some (answer, after) => (some answer, after)
  | none => (none, store)

/-- The store after operations on an empty one. -/
def run (ops : List Operation) : Store := ops.foldl (fun store op => (store.operate op).2) {}

/-- Whether a collection has a record with an identity. -/
def HasRecord (store : Store) (entity id : String) : Prop :=
  ∃ record ∈ store.recordsOf entity, record.recordId? = some id

/-- Whether an operation can be done: it takes an object, and finds the record that it is about. -/
def Operation.Applies (store : Store) : Operation → Prop
  | .insert _ _ _ v => v.isObject
  | .replace entity id v => v.isObject ∧ store.HasRecord entity id
  | .patch entity id v => v.isObject ∧ store.HasRecord entity id
  | .remove entity id => store.HasRecord entity id

/-- Fields of a record with changes made to them: it has the given values where there are some, its
own elsewhere, and its own identity. -/
structure Overwrites (changes fields changed : Keyed Json) : Prop where
  identity : Keyed.get? "id" changed = Keyed.get? "id" fields
  others (name : String) (h : name ≠ "id") : Keyed.get? name changed =
    (Keyed.get? name (Keyed.ofList changes)).or (Keyed.get? name fields)
  sorted : Keyed.IsSorted fields → Keyed.IsSorted changed

/-- What an operation answers, and the records that it leaves in its collection. -/
def Operation.Effect (store : Store) (answer : Json) (records : List Json) : Operation → Prop
  | .insert entity freshId createdAt v => ∃ fields stored, v = .obj fields ∧ answer = .obj stored ∧
      Completes freshId createdAt fields stored ∧ records = store.recordsOf entity ++ [answer]
  | .replace entity id v => ∃ fields, v = .obj fields ∧
      answer = .obj (Keyed.insert "id" (.str id) fields) ∧
      ∃ done old todo, IsFirst store entity id done old todo ∧ records = done ++ answer :: todo
  | .patch entity id v => ∃ changes fields changed, v = .obj changes ∧ answer = .obj changed ∧
      Overwrites changes fields changed ∧
      ∃ done todo, IsFirst store entity id done (.obj fields) todo ∧
        records = done ++ answer :: todo
  | .remove entity id => ∃ done todo, IsFirst store entity id done answer todo ∧
      records = done ++ todo

section Parts

variable {store : Store} {entity id : String}

theorem hasRecord_iff :
    store.HasRecord entity id ↔ ∃ done record todo, IsFirst store entity id done record todo := by
  constructor
  · rintro ⟨record, hr, hid⟩
    obtain ⟨first, hfirst⟩ :=
      Option.isSome_iff_exists.mp (List.find?_isSome.mpr ⟨record, hr, hasId_iff.mpr hid⟩)
    obtain ⟨hsame, done, todo, hsplit, hbefore⟩ := List.find?_eq_some_iff_append.mp hfirst
    refine ⟨done, first, todo, ?_, hasId_iff.mp hsame, fun r hr hid => ?_⟩
    · rw [recordsOf] at hsplit
      cases hget : Keyed.get? entity store.collections with
      | none => simp [hget] at hsplit
      | some records => rw [← hsplit, hget, Option.getD_some]
    · simpa [hasId_iff.mpr hid] using hbefore r hr
  · rintro ⟨done, record, todo, h⟩
    exact ⟨record, by simp [h.recordsOf_eq], h.identity⟩

theorem replaceFirst_eq_none {test : Json → Bool} {records : List Json}
    (h : ∀ r ∈ records, ¬test r) (change : Json → Json) :
    replaceFirst test change records = none := by
  induction records with
  | nil => rfl
  | cons r rest ih =>
    obtain ⟨hhead, hrest⟩ := List.forall_mem_cons.mp h
    rw [replaceFirst, if_neg hhead, ih hrest, Option.map_none]

section Absent

variable (h : ¬store.HasRecord entity id)
include h

theorem not_hasId_of_not_hasRecord : ∀ r ∈ store.recordsOf entity, ¬hasId id r :=
  fun r hr hsame => h ⟨r, hr, hasId_iff.mp hsame⟩

theorem get?_of_not_hasRecord : store.get? entity id = none :=
  List.find?_eq_none.mpr (not_hasId_of_not_hasRecord h)

theorem change?_of_not_hasRecord (change : Json → Json) :
    store.change? entity id change = none := by
  rw [change?, replaceFirst_eq_none (not_hasId_of_not_hasRecord h), Option.map_none]

end Absent

/-- Changes are made to a record one after the other, its identity left alone. -/
theorem overwrites_merged (changes fields : Keyed Json) :
    ∃ changed, merged changes (.obj fields) = .obj changed ∧
      Overwrites changes fields changed := by
  refine ⟨_, rfl, ?_⟩
  -- From the end, as the last of the changes that have one name counts.
  induction changes using List.reverseRecOn with
  | nil => exact ⟨rfl, fun _ _ => rfl, id⟩
  | append_singleton changes change ih =>
    obtain ⟨key, v⟩ := change
    have hlast : Keyed.ofList (changes ++ [(key, v)]) =
        Keyed.insert key v (Keyed.ofList changes) := by
      rw [Keyed.ofList, List.foldl_append]
      rfl
    simp only [List.foldl_append, List.foldl_cons, List.foldl_nil]
    split
    · rename_i hkey
      refine ⟨ih.identity, fun name hname => ?_, ih.sorted⟩
      rw [hlast, Keyed.get?_insert_of_ne (hkey ▸ hname), ih.others name hname]
    · rename_i hkey
      refine ⟨?_, fun name hname => ?_, fun h => Keyed.isSorted_insert (ih.sorted h)⟩
      · rw [Keyed.get?_insert_of_ne (Ne.symm hkey), ih.identity]
      · rw [hlast]
        by_cases hsame : name = key
        · rw [hsame, Keyed.get?_insert_self, Keyed.get?_insert_self, Option.some_or]
        · rw [Keyed.get?_insert_of_ne hsame, Keyed.get?_insert_of_ne hsame, ih.others name hname]

end Parts

section Step

variable {store : Store}

theorem operate?_of_not_applies {op : Operation} (h : ¬op.Applies store) :
    store.operate? op = none := by
  cases op with
  | insert entity freshId createdAt v =>
    cases v with
    | obj fields => exact absurd rfl h
    | _ => rfl
  | replace entity id v =>
    cases v with
    | obj fields =>
      have habsent : ¬store.HasRecord entity id := fun hr => h ⟨rfl, hr⟩
      rw [operate?, replace?, change?_of_not_hasRecord habsent, Option.map_none]
    | _ => rfl
  | patch entity id v =>
    cases v with
    | obj changes =>
      have habsent : ¬store.HasRecord entity id := fun hr => h ⟨rfl, hr⟩
      rw [operate?, patch?, get?_of_not_hasRecord habsent]
    | _ => rfl
  | remove entity id => rw [operate?, remove?, get?_of_not_hasRecord h, Option.map_none]

/-- An operation that applies is done: it puts other records in place of those of its collection. -/
theorem operate?_of_applies {op : Operation} (h : op.Applies store) :
    ∃ answer records, store.operate? op =
        some (answer, ⟨Keyed.insert op.entity records store.collections⟩) ∧
      op.Effect store answer records := by
  cases op with
  | insert entity freshId createdAt v =>
    cases v with
    | obj fields =>
      exact ⟨_, _, rfl, fields, _, rfl, rfl, completes_complete freshId createdAt fields, rfl⟩
    | _ => cases h
  | replace entity id v =>
    obtain ⟨hv, hr⟩ := h
    obtain ⟨done, old, todo, hfirst⟩ := hasRecord_iff.mp hr
    cases v with
    | obj fields =>
      refine ⟨_, _, ?_, fields, rfl, rfl, done, old, todo, hfirst, rfl⟩
      rw [operate?, replace?, hfirst.change?_eq, Option.map_some]
      rfl
    | _ => cases hv
  | patch entity id v =>
    obtain ⟨hv, hr⟩ := h
    obtain ⟨done, old, todo, hfirst⟩ := hasRecord_iff.mp hr
    obtain ⟨fields, -, rfl, -⟩ := Json.isIdentified_of_recordId? hfirst.identity
    cases v with
    | obj changes =>
      -- No change names the identity, so that merging them does not fail.
      obtain ⟨changed, hchanged, hover⟩ := overwrites_merged changes fields
      refine ⟨.obj changed, done ++ .obj changed :: todo, ?_, changes, fields, changed, rfl, rfl,
        hover, done, todo, hfirst, rfl⟩
      rw [operate?, patch?, hfirst.get?_eq]
      simp only [hfirst.change?_eq, hchanged, Option.map_some, Operation.entity]
    | _ => cases hv
  | remove entity id =>
    obtain ⟨done, old, todo, hfirst⟩ := hasRecord_iff.mp h
    exact ⟨old, done ++ todo, hfirst.remove?_eq, done, todo, hfirst, rfl⟩

/-- The collections stand in order of name, and each record is an object with a text as its
`id`. -/
structure IsSound (store : Store) : Prop where
  sorted : Keyed.IsSorted store.collections
  records : ∀ entry ∈ store.collections, ∀ record ∈ entry.2, record.IsIdentified

theorem isSound_empty : IsSound {} := ⟨.nil, nofun⟩

theorem IsSound.isIdentified (h : store.IsSound) {entity : String} {record : Json}
    (hr : record ∈ store.recordsOf entity) : record.IsIdentified := by
  rw [recordsOf] at hr
  cases hget : Keyed.get? entity store.collections with
  | none => simp [hget] at hr
  | some records =>
    rw [hget, Option.getD_some] at hr
    exact h.records _ (Keyed.mem_of_get? hget) record hr

theorem IsSound.effect (h : store.IsSound) {op : Operation} {answer : Json} {records : List Json}
    (he : op.Effect store answer records) : ∀ record ∈ records, record.IsIdentified := by
  -- The records around the one that is changed were identified before.
  have hold {entity id : String} {done todo : List Json} {old : Json}
      (hf : IsFirst store entity id done old todo) :
      ∀ record ∈ done ++ old :: todo, record.IsIdentified :=
    fun record hr => h.isIdentified (hf.recordsOf_eq ▸ hr)
  cases op with
  | insert entity freshId createdAt v =>
    obtain ⟨fields, stored, -, rfl, hc, rfl⟩ := he
    rw [List.forall_mem_append, List.forall_mem_singleton]
    exact ⟨fun record hr => h.isIdentified hr, stored, _, rfl, hc.identity⟩
  | replace entity id v =>
    obtain ⟨fields, -, rfl, done, old, todo, hf, rfl⟩ := he
    have hrest := hold hf
    rw [List.forall_mem_append, List.forall_mem_cons] at hrest ⊢
    exact ⟨hrest.1, ⟨_, id, rfl, Keyed.get?_insert_self _ _ _⟩, hrest.2.2⟩
  | patch entity id v =>
    obtain ⟨changes, fields, changed, -, rfl, hover, done, todo, hf, rfl⟩ := he
    have hrest := hold hf
    rw [List.forall_mem_append, List.forall_mem_cons] at hrest ⊢
    have hid := Json.recordId?_eq_some_iff.mp hf.identity
    exact ⟨hrest.1, ⟨changed, id, rfl, hover.identity.trans hid⟩, hrest.2.2⟩
  | remove entity id =>
    obtain ⟨done, todo, hf, rfl⟩ := he
    have hrest := hold hf
    rw [List.forall_mem_append, List.forall_mem_cons] at hrest
    rw [List.forall_mem_append]
    exact ⟨hrest.1, hrest.2.2⟩

theorem IsSound.operate (h : store.IsSound) (op : Operation) : (store.operate op).2.IsSound := by
  by_cases happ : op.Applies store
  · obtain ⟨answer, records, ho, he⟩ := operate?_of_applies happ
    rw [Store.operate, ho]
    refine ⟨Keyed.isSorted_insert h.sorted, fun entry hentry => ?_⟩
    rcases Keyed.mem_of_mem_insert hentry with rfl | hentry
    · exact h.effect he
    · exact h.records entry hentry
  · rw [Store.operate, operate?_of_not_applies happ]
    exact h

end Step

theorem isSound_run (ops : List Operation) : (run ops).IsSound := by
  induction ops using List.reverseRecOn with
  | nil => exact isSound_empty
  | append_singleton ops op ih =>
    rw [run, List.foldl_append]
    exact ih.operate op

/-- A store after any operations on an empty one. Each of its records is an object with a text as
its `id`. The next operation may not apply, as it takes no object or finds no record: then it
answers nothing and leaves the store as it is. Or it applies: then it answers, and all that is
changed are the records of its collection. An insertion adds its answer at the end. The others find
the first record with the identity that they ask for: a replacement puts the given object there,
under that identity, a patch that record with the given values in its fields but for the identity,
and a removal takes it out. -/
theorem run_contract (ops : List Operation) :
    (run ops).IsSound ∧ ∀ op : Operation,
      (¬op.Applies (run ops) ∧ (run ops).operate op = (none, run ops)) ∨
        ∃ answer after records, op.Applies (run ops) ∧
          (run ops).operate op = (some answer, after) ∧ op.Effect (run ops) answer records ∧
          Rewritten op.entity records (run ops) after := by
  refine ⟨isSound_run ops, fun op => ?_⟩
  by_cases happ : op.Applies (run ops)
  · obtain ⟨answer, records, ho, he⟩ := operate?_of_applies happ
    exact .inr ⟨answer, _, records, happ, by rw [operate, ho], he, rewritten_insert _ _ _⟩
  · exact .inl ⟨happ, by rw [operate, operate?_of_not_applies happ]⟩

end Store

end Bylaw
