import Bylaw.Store
import Mathlib.Tactic.Common

/-! What the operations on one collection of a store read, and what they leave alone. Main
statements: a result depends on the records of that collection only, and the records of the others
stay as they are. -/

namespace Bylaw

namespace Store

variable {store other : Store} {entity : String}

@[simp] theorem recordsOf_insert_self (records : List Json) (collections : Keyed (List Json)) :
    recordsOf ⟨Keyed.insert entity records collections⟩ entity = records := by
  rw [recordsOf, Keyed.get?_insert_self, Option.getD_some]

theorem recordsOf_insert_of_ne {name : String} (h : name ≠ entity) (records : List Json)
    (collections : Keyed (List Json)) :
    recordsOf ⟨Keyed.insert entity records collections⟩ name = recordsOf ⟨collections⟩ name := by
  rw [recordsOf, Keyed.get?_insert_of_ne h, recordsOf]

/-- Two results of changing a store: both fail, or both yield the same and leave the same records
of an entity. -/
def SameResult {α : Type} (entity : String) : Option (α × Store) → Option (α × Store) → Prop
  | none, none => True
  | some (v, s), some (w, t) => v = w ∧ s.recordsOf entity = t.recordsOf entity
  | _, _ => False

theorem SameResult.cases {α : Type} {entity : String} {result result' : Option (α × Store)}
    (h : SameResult entity result result') :
    (result = none ∧ result' = none) ∨
      ∃ v s t, result = some (v, s) ∧ result' = some (v, t) ∧
        s.recordsOf entity = t.recordsOf entity := by
  match result, result', h with
  | none, none, _ => exact .inl ⟨rfl, rfl⟩
  | some (_, s), some (v, t), ⟨rfl, hs⟩ => exact .inr ⟨v, s, t, rfl, rfl, hs⟩

/-- A result that leaves the records of other entities as they are in a store. -/
def KeepsOthers {α : Type} (entity : String) (store : Store) (result : Option (α × Store)) : Prop :=
  ∀ v after, result = some (v, after) →
    ∀ name, name ≠ entity → after.recordsOf name = store.recordsOf name

theorem insert?_same (h : store.recordsOf entity = other.recordsOf entity)
    (freshId createdAt : String) (v : Json) :
    SameResult entity (store.insert? entity freshId createdAt v)
      (other.insert? entity freshId createdAt v) := by
  cases v with
  | obj fields => simp [insert?, SameResult, h]
  | _ => trivial

theorem replace?_same (h : store.recordsOf entity = other.recordsOf entity) (id : String)
    (v : Json) : SameResult entity (store.replace? entity id v) (other.replace? entity id v) := by
  cases v with
  | obj fields =>
    simp only [replace?, change?, h]
    cases replaceFirst (hasId id) _ (other.recordsOf entity) with
    | none => trivial
    | some records => simp [SameResult]
  | _ => trivial

theorem patch?_same (h : store.recordsOf entity = other.recordsOf entity) (id : String)
    (v : Json) : SameResult entity (store.patch? entity id v) (other.patch? entity id v) := by
  cases v with
  | obj changes =>
    simp only [patch?, get?, change?, h]
    cases (other.recordsOf entity).find? (hasId id) with
    | none => trivial
    | some record =>
      cases replaceFirst (hasId id) (merged changes) (other.recordsOf entity) with
      | none => trivial
      | some records => simp [SameResult]
  | _ => trivial

theorem remove?_same (h : store.recordsOf entity = other.recordsOf entity) (id : String) :
    SameResult entity (store.remove? entity id) (other.remove? entity id) := by
  simp only [remove?, get?, h]
  cases (other.recordsOf entity).find? (hasId id) with
  | none => trivial
  | some record => simp [SameResult]

theorem insert?_keepsOthers (freshId createdAt : String) (v : Json) :
    KeepsOthers entity store (store.insert? entity freshId createdAt v) := by
  intro w after h name hne
  cases v with
  | obj fields =>
    obtain ⟨-, rfl⟩ := Prod.mk.inj (Option.some.inj h)
    exact recordsOf_insert_of_ne hne _ _
  | _ => cases h

theorem change?_recordsOf {id : String} {change : Json → Json} {after : Store}
    (h : store.change? entity id change = some after) {name : String} (hne : name ≠ entity) :
    after.recordsOf name = store.recordsOf name := by
  obtain ⟨records, -, rfl⟩ := Option.map_eq_some_iff.mp h
  exact recordsOf_insert_of_ne hne _ _

theorem replace?_keepsOthers (id : String) (v : Json) :
    KeepsOthers entity store (store.replace? entity id v) := by
  intro w after h name hne
  cases v with
  | obj fields =>
    obtain ⟨changed, hc, he⟩ := Option.map_eq_some_iff.mp h
    obtain ⟨-, rfl⟩ := Prod.mk.inj he
    exact change?_recordsOf hc hne
  | _ => cases h

theorem patch?_keepsOthers (id : String) (v : Json) :
    KeepsOthers entity store (store.patch? entity id v) := by
  intro w after h name hne
  cases v with
  | obj changes =>
    simp only [patch?] at h
    split at h
    · obtain ⟨changed, hc, he⟩ := Option.map_eq_some_iff.mp h
      obtain ⟨-, rfl⟩ := Prod.mk.inj he
      exact change?_recordsOf hc hne
    · cases h
  | _ => cases h

theorem remove?_keepsOthers (id : String) :
    KeepsOthers entity store (store.remove? entity id) := by
  intro w after h name hne
  obtain ⟨record, -, he⟩ := Option.map_eq_some_iff.mp h
  obtain ⟨-, rfl⟩ := Prod.mk.inj he
  exact recordsOf_insert_of_ne hne _ _

end Store

end Bylaw
