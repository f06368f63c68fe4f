import Bylaw.Proofs.Json.Equality
import Bylaw.Proofs.Store.Collections

/-! Records taken out and replaced by their identities, where no two of a collection have the same.
Main statement: those that stand before and after the record stay, and so do other collections. -/

namespace Bylaw

namespace Json

theorem recordId?_eq_some_iff {record : Json} {id : String} :
    record.recordId? = some id ↔ record.field? "id" = some (.str id) := by
  rw [recordId?, Option.bind_eq_some_iff]
  constructor
  · rintro ⟨v, hv, hs⟩
    cases v with
    | str s => rw [hv, ← Option.some.inj hs]
    | _ => cases hs
  · exact fun h => ⟨_, h, rfl⟩

/-- An object with a text as its `id`. -/
def IsRecord : Json → Prop
  | .obj fields => Keyed.IsSorted fields ∧ (Json.obj fields).recordId?.isSome
  | _ => False

instance : (v : Json) → Decidable v.IsRecord
  | .obj fields =>
    inferInstanceAs (Decidable (Keyed.IsSorted fields ∧ (Json.obj fields).recordId?.isSome))
  | .null => isFalse id
  | .bool _ => isFalse id
  | .num _ => isFalse id
  | .str _ => isFalse id
  | .arr _ => isFalse id

/-- An object with the identity of a record in place of its own. -/
def withIdOf (record : Json) : Json → Json
  | .obj fields =>
    match record.field? "id" with
    | some id => .obj (Keyed.insert "id" id fields)
    | none => .obj fields
  | v => v

variable {record : Json}

theorem IsRecord.cases (h : record.IsRecord) :
    ∃ fields id, record = .obj fields ∧ Keyed.IsSorted fields ∧
      Keyed.get? "id" fields = some (.str id) ∧ record.recordId? = some id := by
  cases record with
  | obj fields =>
    obtain ⟨id, hid⟩ := Option.isSome_iff_exists.mp h.2
    exact ⟨fields, id, rfl, h.1, recordId?_eq_some_iff.mp hid, hid⟩
  | _ => exact h.elim

theorem IsRecord.isObject (h : record.IsRecord) : record.isObject := by
  obtain ⟨fields, id, rfl, -⟩ := h.cases
  rfl

theorem IsRecord.recordId?_withIdOf (h : record.IsRecord) {v : Json} (hv : v.isObject) :
    (record.withIdOf v).recordId? = record.recordId? := by
  obtain ⟨fields, id, rfl, -, hget, hid⟩ := h.cases
  cases v with
  | obj others =>
    rw [hid, recordId?_eq_some_iff, withIdOf, field?, hget]
    exact Keyed.get?_insert_self _ _ _
  | _ => cases hv

theorem names_of_equalFields {fields others : Keyed Json} (h : equalFields fields others = true) :
    Keyed.names fields = Keyed.names others := by
  induction fields generalizing others with
  | nil => cases others <;> first | rfl | cases h
  | cons field fields ih =>
    cases others with
    | nil => cases h
    | cons other others =>
      simp only [equalFields, Bool.and_eq_true, beq_iff_eq] at h
      rw [Keyed.names, Keyed.names, List.map_cons, List.map_cons, h.1.1]
      exact congrArg _ (ih h.2)

theorem get?_str_of_equalFields {fields others : Keyed Json} {name text : String}
    (h : equalFields fields others = true) (ht : Keyed.get? name others = some (.str text)) :
    Keyed.get? name fields = some (.str text) := by
  induction fields generalizing others with
  | nil =>
    cases others with
    | nil => cases ht
    | cons _ _ => cases h
  | cons field fields ih =>
    cases others with
    | nil => cases h
    | cons other others =>
      obtain ⟨k, v⟩ := field
      obtain ⟨l, w⟩ := other
      simp only [equalFields, Bool.and_eq_true, beq_iff_eq] at h
      obtain ⟨⟨rfl, hv⟩, hrest⟩ := h
      rw [Keyed.get?] at ht ⊢
      split
      · rename_i hk
        rw [if_pos hk] at ht
        obtain rfl := Option.some.inj ht
        cases v with
        | str s => rw [beq_iff_eq.mp hv]
        | _ => cases hv
      · rename_i hk
        rw [if_neg hk] at ht
        exact ih hrest ht

/-- What equals a record has its identity already. -/
theorem IsRecord.withIdOf_of_beq (h : record.IsRecord) {v : Json} (hv : (v == record) = true) :
    record.withIdOf v = v := by
  obtain ⟨fields, id, rfl, hs, hget, -⟩ := h.cases
  cases v with
  | obj others =>
    have hsorted : Keyed.IsSorted others := by
      rw [Keyed.isSorted_iff_names, names_of_equalFields hv, ← Keyed.isSorted_iff_names]
      exact hs
    have hsame := get?_str_of_equalFields hv hget
    simp only [withIdOf, field?, hget, Keyed.insert_of_get? hsorted hsame]
  | _ => cases hv

end Json

namespace Store

/-- `after` is `before` but for the records of a collection. -/
structure Rewritten (entity : String) (records : List Json) (before after : Store) : Prop where
  self : Keyed.get? entity after.collections = some records
  others (name : String) (h : name ≠ entity) :
    Keyed.get? name after.collections = Keyed.get? name before.collections

variable {entity : String} {records : List Json} {store : Store}

theorem Rewritten.refl (h : Keyed.get? entity store.collections = some records) :
    Rewritten entity records store store := ⟨h, fun _ _ => rfl⟩

theorem Rewritten.trans {more : List Json} {next after : Store}
    (h : Rewritten entity records store next) (h' : Rewritten entity more next after) :
    Rewritten entity more store after :=
  ⟨h'.self, fun name hn => (h'.others name hn).trans (h.others name hn)⟩

theorem rewritten_insert (entity : String) (records : List Json) (store : Store) :
    Rewritten entity records store ⟨Keyed.insert entity records store.collections⟩ :=
  ⟨Keyed.get?_insert_self _ _ _, fun _ hn => Keyed.get?_insert_of_ne hn _ _⟩

section

variable {test : Json → Bool} {done : List Json} {record : Json} (hd : ∀ r ∈ done, ¬test r)
  (hr : test record)
include hd hr

theorem find?_middle (todo : List Json) : (done ++ record :: todo).find? test = some record := by
  rw [List.find?_append, List.find?_eq_none.mpr hd, Option.none_or, List.find?_cons_of_pos hr]

theorem removeFirst_middle (todo : List Json) :
    removeFirst test (done ++ record :: todo) = done ++ todo := by
  induction done with
  | nil => simp only [List.nil_append, removeFirst, if_pos hr]
  | cons r rest ih =>
    obtain ⟨hhead, hrest⟩ := List.forall_mem_cons.mp hd
    simp only [List.cons_append, removeFirst, if_neg hhead, ih hrest]

theorem replaceFirst_middle (change : Json → Json) (todo : List Json) :
    replaceFirst test change (done ++ record :: todo) = some (done ++ change record :: todo) := by
  induction done with
  | nil => simp only [List.nil_append, replaceFirst, if_pos hr]
  | cons r rest ih =>
    obtain ⟨hhead, hrest⟩ := List.forall_mem_cons.mp hd
    simp only [List.cons_append, replaceFirst, if_neg hhead, ih hrest, Option.map_some]

end

/-- The first record of a collection with an identity: `done` stands before it, and `todo` after. -/
structure IsFirst (store : Store) (entity id : String) (done : List Json) (record : Json)
    (todo : List Json) : Prop where
  stored : Keyed.get? entity store.collections = some (done ++ record :: todo)
  identity : record.recordId? = some id
  before : ∀ r ∈ done, r.recordId? ≠ some id

section

variable {done todo : List Json} {record : Json} {id : String}

theorem hasId_iff : hasId id record = true ↔ record.recordId? = some id := beq_iff_eq

theorem IsFirst.recordsOf_eq (h : IsFirst store entity id done record todo) :
    store.recordsOf entity = done ++ record :: todo := by
  rw [recordsOf, h.stored, Option.getD_some]

theorem IsFirst.not_hasId (h : IsFirst store entity id done record todo) :
    ∀ r ∈ done, ¬hasId id r := fun r hr hsame => h.before r hr (hasId_iff.mp hsame)

theorem IsFirst.get?_eq (h : IsFirst store entity id done record todo) :
    store.get? entity id = some record := by
  rw [get?, h.recordsOf_eq, find?_middle h.not_hasId (hasId_iff.mpr h.identity)]

theorem IsFirst.change?_eq (h : IsFirst store entity id done record todo) (change : Json → Json) :
    store.change? entity id change =
      some ⟨Keyed.insert entity (done ++ change record :: todo) store.collections⟩ := by
  rw [change?, h.recordsOf_eq, replaceFirst_middle h.not_hasId (hasId_iff.mpr h.identity),
    Option.map_some]

theorem IsFirst.remove?_eq (h : IsFirst store entity id done record todo) :
    store.remove? entity id =
      some (record, ⟨Keyed.insert entity (done ++ todo) store.collections⟩) := by
  rw [remove?, h.get?_eq, h.recordsOf_eq,
    removeFirst_middle h.not_hasId (hasId_iff.mpr h.identity), Option.map_some]

end

section

variable {done todo : List Json} {record : Json} {id : String}
  (hs : Keyed.get? entity store.collections = some (done ++ record :: todo))
  (hn : ((done ++ record :: todo).map Json.recordId?).Nodup) (hid : record.recordId? = some id)
include hs hn hid

/-- Where no two records have the same identity, each is the first with its own. -/
theorem isFirst_of_nodup : IsFirst store entity id done record todo where
  stored := hs
  identity := hid
  before r hr := by
    rw [List.map_append, List.map_cons] at hn
    have hne := (List.nodup_append.mp hn).2.2 _ (List.mem_map_of_mem hr) _ List.mem_cons_self
    exact hid ▸ hne

theorem remove?_middle :
    ∃ after, store.remove? entity id = some (record, after) ∧
      Rewritten entity (done ++ todo) store after :=
  ⟨_, (isFirst_of_nodup hs hn hid).remove?_eq, rewritten_insert entity (done ++ todo) store⟩

theorem replace?_middle {v : Json} (hv : v.isObject) :
    ∃ after, store.replace? entity id v = some (record.withIdOf v, after) ∧
      Rewritten entity (done ++ record.withIdOf v :: todo) store after := by
  refine ⟨_, ?_, rewritten_insert entity (done ++ record.withIdOf v :: todo) store⟩
  cases v with
  | obj fields =>
    rw [replace?, (isFirst_of_nodup hs hn hid).change?_eq]
    simp only [Json.withIdOf, Json.recordId?_eq_some_iff.mp hid]
    rfl
  | _ => cases hv

end

end Store

end Bylaw
