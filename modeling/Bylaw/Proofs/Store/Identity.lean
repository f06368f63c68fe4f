import Bylaw.Proofs.Store.Collections
import Bylaw.Proofs.Store.Contract
import Mathlib.Data.List.Nodup

/-! Records read back by their own identities. Main statement: an insertion is read back by its
identity unless another record was found by it before; and where each insertion so far took an
identity that was not in use, every record is read back by its own. -/

namespace Bylaw.Store

/-- No two records of a collection have the same identity. -/
def HasDistinctIds (store : Store) : Prop :=
  ∀ entity, ((store.recordsOf entity).map Json.recordId?).Nodup

/-- Whether an operation brings no identity that is in use in its collection. Only an insertion can
bring one. -/
def Operation.TakesFreshId (store : Store) : Operation → Prop
  | .insert entity freshId createdAt v => ∀ record after id,
      store.insert? entity freshId createdAt v = some (record, after) →
        record.recordId? = some id → ¬store.HasRecord entity id
  | _ => True

/-- Whether no operation brings an identity that is in use when it is done. -/
def TakesFreshIds (ops : List Operation) : Prop :=
  ∀ before op, before ++ [op] <+: ops → op.TakesFreshId (run before)

section Reading

variable {store : Store} {entity id : String} {record : Json}

theorem recordId?_obj {fields : Keyed Json} (h : Keyed.get? "id" fields = some (.str id)) :
    (Json.obj fields).recordId? = some id :=
  Json.recordId?_eq_some_iff.mpr h

theorem mem_of_get? (h : store.get? entity id = some record) :
    record ∈ store.recordsOf entity ∧ record.recordId? = some id :=
  ⟨List.mem_of_find?_eq_some h, hasId_iff.mp (List.find?_some h)⟩

theorem HasDistinctIds.get?_eq (h : store.HasDistinctIds) (hr : record ∈ store.recordsOf entity)
    (hid : record.recordId? = some id) : store.get? entity id = some record := by
  obtain ⟨first, hfirst⟩ :=
    Option.isSome_iff_exists.mp (List.find?_isSome.mpr ⟨record, hr, hasId_iff.mpr hid⟩)
  obtain ⟨hmem, hsame⟩ := mem_of_get? hfirst
  have heq : first = record := List.inj_on_of_nodup_map (h entity) hmem hr (hsame.trans hid.symm)
  rw [get?, hfirst, heq]

/-- What is found by the identity of a record that was added at the end: what was found by it
before, and the record itself if nothing was. -/
theorem get?_added (hid : record.recordId? = some id) :
    get? ⟨Keyed.insert entity (store.recordsOf entity ++ [record]) store.collections⟩ entity id =
      (store.get? entity id).or (some record) := by
  rw [get?, recordsOf_insert_self, List.find?_append, get?,
    List.find?_cons_of_pos (hasId_iff.mpr hid)]

/-- A record that was added is read back unless another one was found by its identity. -/
theorem get?_added_eq_iff (hid : record.recordId? = some id) :
    get? ⟨Keyed.insert entity (store.recordsOf entity ++ [record]) store.collections⟩ entity id =
        some record ↔
      ∀ earlier, store.get? entity id = some earlier → earlier = record := by
  rw [get?_added hid]
  cases store.get? entity id <;> simp

end Reading

section Step

variable {store : Store}

/-- A record in place of the first with its identity leaves the identities of the collection as
they are. -/
theorem IsFirst.map_recordId? {entity id : String} {done todo : List Json} {old record : Json}
    (h : IsFirst store entity id done old todo) (hid : record.recordId? = some id) :
    (done ++ record :: todo).map Json.recordId? =
      (store.recordsOf entity).map Json.recordId? := by
  rw [h.recordsOf_eq, List.map_append, List.map_append, List.map_cons, List.map_cons, hid,
    h.identity]

/-- The identities that an operation leaves in its collection are distinct if it brings none that
is in use. -/
theorem HasDistinctIds.effect (h : store.HasDistinctIds) {op : Operation} {answer : Json}
    {records : List Json} {after : Store} (hanswer : store.operate? op = some (answer, after))
    (he : op.Effect store answer records) (hfresh : op.TakesFreshId store) :
    (records.map Json.recordId?).Nodup := by
  cases op with
  | insert entity freshId createdAt v =>
    obtain ⟨fields, stored, rfl, rfl, hc, rfl⟩ := he
    have hid := recordId?_obj hc.identity
    -- The identity that the record takes is not in use.
    have hnew : ¬store.HasRecord entity _ := hfresh _ _ _ hanswer hid
    rw [List.map_append, List.map_singleton, hid, List.nodup_append]
    refine ⟨h entity, List.nodup_singleton _, fun used hused fresh hf hsame => ?_⟩
    obtain ⟨record, hr, hrecord⟩ := List.mem_map.mp hused
    exact hnew ⟨record, hr, hrecord.trans (hsame.trans (List.mem_singleton.mp hf))⟩
  | replace entity id v =>
    obtain ⟨fields, -, rfl, done, old, todo, hf, rfl⟩ := he
    rw [hf.map_recordId? (recordId?_obj (Keyed.get?_insert_self _ _ _))]
    exact h entity
  | patch entity id v =>
    obtain ⟨changes, fields, changed, -, rfl, hover, done, todo, hf, rfl⟩ := he
    have hid := Json.recordId?_eq_some_iff.mp hf.identity
    rw [hf.map_recordId? (recordId?_obj (hover.identity.trans hid))]
    exact h entity
  | remove entity id =>
    obtain ⟨done, todo, hf, rfl⟩ := he
    have hall := h entity
    rw [hf.recordsOf_eq] at hall
    exact hall.sublist (((List.sublist_cons_self _ _).append_left done).map _)

/-- An operation that brings no identity that is in use leaves all identities distinct. -/
theorem HasDistinctIds.operate (h : store.HasDistinctIds) {op : Operation}
    (hfresh : op.TakesFreshId store) : (store.operate op).2.HasDistinctIds := by
  by_cases happ : op.Applies store
  · obtain ⟨answer, records, ho, he⟩ := operate?_of_applies happ
    rw [Store.operate, ho]
    intro name
    by_cases hname : name = op.entity
    · rw [hname, recordsOf_insert_self]
      exact h.effect ho he hfresh
    · rw [recordsOf_insert_of_ne hname]
      exact h name
  · rw [Store.operate, operate?_of_not_applies happ]
    exact h

end Step

theorem run_append_singleton (ops : List Operation) (op : Operation) :
    run (ops ++ [op]) = ((run ops).operate op).2 := by
  rw [run, List.foldl_append]
  rfl

theorem takesFreshIds_append_singleton (ops : List Operation) (op : Operation) :
    TakesFreshIds (ops ++ [op]) ↔ TakesFreshIds ops ∧ op.TakesFreshId (run ops) := by
  constructor
  · exact fun h => ⟨fun before op' hp => h before op' (hp.trans (List.prefix_append _ _)),
      h ops op List.prefix_rfl⟩
  · rintro ⟨h, hlast⟩ before op' hp
    rcases List.prefix_concat_iff.mp hp with heq | hp
    · obtain ⟨rfl, hop⟩ := List.append_inj' heq rfl
      exact List.singleton_inj.mp hop ▸ hlast
    · exact h before op' hp

theorem hasDistinctIds_run {ops : List Operation} (h : TakesFreshIds ops) :
    (run ops).HasDistinctIds := by
  induction ops using List.reverseRecOn with
  | nil => exact fun _ => List.nodup_nil
  | append_singleton ops op ih =>
    obtain ⟨hbefore, hop⟩ := (takesFreshIds_append_singleton ops op).mp h
    rw [run_append_singleton]
    exact (ih hbefore).operate hop

/-- After any operations on an empty store, an object that is inserted is stored with an identity.
By that identity it is read back if and only if no other record was found by it before. And if no
operation so far, nor this one, brought an identity that was in use, every record of the store is
read back by its own identity. -/
theorem get?_inserted (ops : List Operation) (entity freshId createdAt : String)
    (fields : Keyed Json) :
    let insertion := Operation.insert entity freshId createdAt (.obj fields)
    ∃ stored id after,
      (run ops).insert? entity freshId createdAt (.obj fields) = some (stored, after) ∧
        stored.recordId? = some id ∧
        (after.get? entity id = some stored ↔
          ∀ earlier, (run ops).get? entity id = some earlier → earlier = stored) ∧
        (TakesFreshIds (ops ++ [insertion]) → ∀ name, ∀ record ∈ after.recordsOf name,
          ∃ own, record.recordId? = some own ∧ after.get? name own = some record) := by
  intro insertion
  have hid := recordId?_obj (completes_complete freshId createdAt fields).identity
  refine ⟨_, _, run (ops ++ [insertion]), by rw [run_append_singleton]; rfl, hid, ?_, ?_⟩
  · rw [run_append_singleton]
    exact get?_added_eq_iff hid
  · intro hfresh name record hr
    obtain ⟨others, own, rfl, hown⟩ := (isSound_run _).isIdentified hr
    exact ⟨own, recordId?_obj hown, (hasDistinctIds_run hfresh).get?_eq hr (recordId?_obj hown)⟩

/-- An identity that was given up is taken again, and the record that takes it is read back. -/
theorem get?_inserted_again :
    let ann := Json.obj [("created_at", .str "now"), ("id", .str "1"), ("name", .str "Ann")]
    let bob := Json.obj [("created_at", .str "now"), ("id", .str "1"), ("name", .str "Bob")]
    let ops := [.insert "leads" "9" "now" ann, .remove "leads" "1"]
    TakesFreshIds (ops ++ [.insert "leads" "9" "now" bob]) ∧
      ∃ after, (run ops).insert? "leads" "9" "now" bob = some (bob, after) ∧
        after.get? "leads" "1" = some bob := by
  intro ann bob ops
  have hfirst : Operation.TakesFreshId (run []) (.insert "leads" "9" "now" ann) :=
    fun _ _ _ _ _ hr => absurd hr.choose_spec.1 List.not_mem_nil
  have hagain : Operation.TakesFreshId (run ops) (.insert "leads" "9" "now" bob) :=
    fun _ _ _ _ _ hr => absurd hr.choose_spec.1 List.not_mem_nil
  have hfresh : TakesFreshIds (ops ++ [.insert "leads" "9" "now" bob]) := by
    refine (takesFreshIds_append_singleton ops _).mpr ⟨?_, hagain⟩
    refine (takesFreshIds_append_singleton [_] _).mpr ⟨?_, trivial⟩
    exact (takesFreshIds_append_singleton [] _).mpr ⟨fun _ _ hp => by simp at hp, hfirst⟩
  obtain ⟨stored, id, after, hinsert, hid, -, hall⟩ := get?_inserted ops "leads" "9" "now" _
  obtain ⟨rfl, rfl⟩ := Prod.mk.inj (Option.some.inj hinsert)
  obtain ⟨own, hown, hget⟩ := hall hfresh "leads" bob (List.mem_singleton_self bob)
  exact ⟨hfresh, _, rfl, Option.some.inj hown ▸ hget⟩

/-- Who takes the identity of another is not read back: the other one is. -/
theorem taken_not_readBack :
    let ann := Json.obj [("created_at", .str "now"), ("id", .str "1"), ("name", .str "Ann")]
    let bob := Json.obj [("created_at", .str "now"), ("id", .str "1"), ("name", .str "Bob")]
    let before := run [.insert "leads" "9" "now" ann]
    ∃ after, before.insert? "leads" "9" "now" bob = some (bob, after) ∧
      bob.recordId? = some "1" ∧ after.get? "leads" "1" = some ann ∧ ann ≠ bob := by
  intro ann bob before
  refine ⟨_, rfl, rfl, rfl, ?_⟩
  simp [ann, bob]

end Bylaw.Store
