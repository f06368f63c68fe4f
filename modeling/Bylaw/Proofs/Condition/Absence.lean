import Bylaw.Proofs.Condition.Matching
import Bylaw.Proofs.Run.Reads

/-! Conditions on what is not there. A reference stands for nothing if the record has no value
other than null at it, and the request no fact of its name. Main statement: a clause that reads such
a reference holds only if it asks for just that. -/

namespace Bylaw

namespace FieldPath

/-- The value that segments lead to: into objects by name, into arrays by position. -/
inductive Leads : List String → Json → Json → Prop
  | here (v : Json) : Leads [] v v
  | field {name : String} {rest : List String} {fields : Keyed Json} {child v : Json}
    (get : Keyed.get? name fields = some child) (more : Leads rest child v) :
    Leads (name :: rest) (.obj fields) v
  | item {segment : String} {rest : List String} {items : List Json} {i : Nat} {child v : Json}
    (index : index? segment = some i) (get : items[i]? = some child) (more : Leads rest child v) :
    Leads (segment :: rest) (.arr items) v

theorem follow?_eq_some_iff {segments : List String} {root v : Json} :
    follow? segments root = some v ↔ Leads segments root v := by
  constructor
  · intro h
    induction segments generalizing root with
    | nil =>
      obtain rfl := Option.some.inj h
      exact .here root
    | cons segment rest ih =>
      obtain ⟨child, hchild, hrest⟩ := Option.bind_eq_some_iff.mp h
      cases root with
      | obj fields => exact .field hchild (ih hrest)
      | arr items =>
        obtain ⟨i, hi, hget⟩ := Option.bind_eq_some_iff.mp hchild
        exact .item hi hget (ih hrest)
      | _ => cases hchild
  · intro h
    induction h with
    | here v => rfl
    | field get _ ih => simp only [follow?, child?, get, Option.bind_some, ih]
    | item index get _ ih => simp only [follow?, child?, index, get, Option.bind_some, ih]

theorem lookup?_eq_none_iff {path : FieldPath} {root : Json} :
    path.lookup? root = none ↔ ∀ v, Leads path.segments root v → v = .null := by
  simp only [lookup?, Option.filter_eq_none_iff, follow?_eq_some_iff]
  refine forall₂_congr fun v _ => ?_
  cases v <;> simp [Json.isNull]

/-- A reference of several segments has a point in its text. -/
theorem mem_text_of_segments {path : FieldPath} {first second : String} {rest : List String}
    (h : path.segments = first :: second :: rest) : '.' ∈ path.text.toList := by
  simp [text, h, String.toList_intercalate]

end FieldPath

theorem RequestFacts.get?_of_mem {facts : RequestFacts} {name : String} (h : '.' ∈ name.toList) :
    facts.get? name = none := by
  fun_cases get? facts name with
  | case5 => rfl
  | _ => exact absurd h (by decide)

namespace Scope

/-- Nothing stands for a reference: neither the record nor the request has a value for it. -/
structure Lacks (scope : Scope) (path : FieldPath) : Prop where
  record : ∀ v, FieldPath.Leads path.segments scope.record v → v = .null
  fact : scope.facts.get? path.text = none

theorem resolve?_eq_none_iff {scope : Scope} {path : FieldPath} :
    scope.resolve? path = none ↔ scope.Lacks path := by
  rw [resolve?]
  cases hl : path.lookup? scope.record with
  | none =>
    have hlacks : scope.Lacks path ↔ scope.facts.get? path.text = none :=
      ⟨Lacks.fact, fun h => ⟨FieldPath.lookup?_eq_none_iff.mp hl, h⟩⟩
    rw [hlacks]
    rcases hsegments : path.segments with _ | ⟨name, _ | ⟨second, rest⟩⟩
    · exact absurd hsegments path.nonempty
    · simp [FieldPath.text, hsegments]
    · simp [RequestFacts.get?_of_mem (FieldPath.mem_text_of_segments hsegments)]
  | some v =>
    refine iff_of_false (by simp) fun h => ?_
    rw [FieldPath.lookup?_eq_none_iff.mpr h.record] at hl
    cases hl

end Scope

namespace Operand

variable {scope : Scope}

theorem isNull_iff {operand : Operand} : operand.isNull = true ↔ operand = .literal .null := by
  unfold isNull
  split <;> simp_all

theorem resolve_of_isNull {operand : Operand} (h : operand.isNull = true) :
    operand.resolve scope = .ok none := by
  rw [isNull_iff.mp h]
  rfl

theorem resolve_of_mem_reads {operand : Operand} {path : FieldPath} (hp : path ∈ operand.reads)
    (h : scope.Lacks path) : operand = .field path ∧ operand.resolve scope = .ok none := by
  cases operand with
  | field other =>
    obtain rfl := List.mem_singleton.mp hp
    exact ⟨rfl, by rw [resolve, Scope.resolve?_eq_none_iff.mpr h]⟩
  | _ => cases hp

end Operand

namespace Clause

variable {scope : Scope}

/-- How a comparison comes to hold: by the presence of one side if just the other is the literal
null, and otherwise by the values of both. -/
inductive Compares (scope : Scope) : Operand → Comparator → Operand → Prop
  | presenceLeft {left right : Operand} {op : Comparator} {v : Option Json}
    (isNull : right.isNull = true) (notNull : left.isNull = false)
    (resolve : left.resolve scope = .ok v) (presence : comparePresence op v = true) :
    Compares scope left op right
  | presenceRight {left right : Operand} {op : Comparator} {w : Option Json}
    (isNull : left.isNull = true) (notNull : right.isNull = false)
    (resolve : right.resolve scope = .ok w) (presence : comparePresence op w = true) :
    Compares scope left op right
  | values {left right : Operand} {op : Comparator} {v w : Json}
    (resolveLeft : left.resolve scope = .ok (some v))
    (resolveRight : right.resolve scope = .ok (some w)) (values : compareValues op v w = .ok true) :
    Compares scope left op right

theorem isNull_of_resolve {operand : Operand} {v : Json}
    (h : operand.resolve scope = .ok (some v)) : operand.isNull = false := by
  rw [Bool.eq_false_iff]
  intro hn
  rw [Operand.resolve_of_isNull hn] at h
  cases h

theorem evaluate_of_values {left right : Operand} {v w : Json}
    (hl : left.resolve scope = .ok (some v)) (hr : right.resolve scope = .ok (some w))
    (op : Comparator) : (compare left op right).evaluate scope = compareValues op v w := by
  rw [evaluate, compareOperands, hl, hr]
  simp [isNull_of_resolve hl, isNull_of_resolve hr]

theorem holds_compare_iff {left right : Operand} {op : Comparator} :
    (compare left op right).holds scope = true ↔ Compares scope left op right := by
  rw [holds_iff]
  constructor
  · intro h
    rw [evaluate, compareOperands] at h
    cases hl : left.resolve scope with
    | error e => simp [hl] at h
    | ok v =>
      cases hr : right.resolve scope with
      | error e => simp [hl, hr] at h
      | ok w =>
        simp only [hl, hr] at h
        cases hln : left.isNull <;> cases hrn : right.isNull <;> simp only [hln, hrn] at h
        · cases v with
          | none => simp at h
          | some v =>
            cases w with
            | none => simp at h
            | some w => exact .values hl hr h
        · exact .presenceLeft hrn hln hl (Except.ok.inj h)
        · exact .presenceRight hln hrn hr (Except.ok.inj h)
        · rw [Operand.resolve_of_isNull hln] at hl
          cases hl
          cases h
  · intro h
    cases h with
    | presenceLeft isNull notNull resolve presence =>
      rw [evaluate, compareOperands, resolve, Operand.resolve_of_isNull isNull]
      simp [isNull, notNull, presence]
    | presenceRight isNull notNull resolve presence =>
      rw [evaluate, compareOperands, resolve, Operand.resolve_of_isNull isNull]
      simp [isNull, notNull, presence]
    | values resolveLeft resolveRight values =>
      rw [evaluate_of_values resolveLeft resolveRight, values]

/-- A clause asks whether a reference is absent: by NOT EXISTS, or as equal to the literal null. -/
inductive AsksAbsence (path : FieldPath) : Clause → Prop
  | missing : AsksAbsence path (.present path true)
  | isNull : AsksAbsence path (.compare (.field path) .eq (.literal .null))
  | nullIs : AsksAbsence path (.compare (.literal .null) .eq (.field path))

theorem comparePresence_none {op : Comparator} : comparePresence op none = true ↔ op = .eq := by
  cases op <;> simp [comparePresence]

theorem holds_compare_of_lacks {path : FieldPath} {left right : Operand} {op : Comparator}
    (hp : path ∈ left.reads ++ right.reads) (h : scope.Lacks path) :
    (compare left op right).holds scope = true ↔ AsksAbsence path (.compare left op right) := by
  rw [holds_compare_iff]
  constructor
  · intro hc
    rcases List.mem_append.mp hp with hp | hp
    · obtain ⟨rfl, hnone⟩ := Operand.resolve_of_mem_reads hp h
      -- Only against a literal null does a comparison with nothing hold.
      cases hc with
      | presenceLeft isNull _ resolve presence =>
        cases hnone.symm.trans resolve
        obtain rfl := comparePresence_none.mp presence
        rw [Operand.isNull_iff.mp isNull]
        exact .isNull
      | presenceRight isNull => cases isNull
      | values resolve => cases hnone.symm.trans resolve
    · obtain ⟨rfl, hnone⟩ := Operand.resolve_of_mem_reads hp h
      cases hc with
      | presenceLeft isNull => cases isNull
      | presenceRight isNull _ resolve presence =>
        cases hnone.symm.trans resolve
        obtain rfl := comparePresence_none.mp presence
        rw [Operand.isNull_iff.mp isNull]
        exact .nullIs
      | values _ resolve => cases hnone.symm.trans resolve
  · have hnone : (Operand.field path).resolve scope = .ok none := by
      rw [Operand.resolve, Scope.resolve?_eq_none_iff.mpr h]
    intro ha
    cases ha with
    | isNull => exact .presenceLeft rfl rfl hnone rfl
    | nullIs => exact .presenceRight rfl rfl hnone rfl

/-- A clause that reads a reference for which nothing stands. It holds exactly if it asks whether
that reference is absent; so what it says otherwise does not hold, be it negated or not, a
comparison of any kind, and whatever stands on the other side. -/
theorem holds_iff_of_lacks {c : Clause} {path : FieldPath} (hp : path ∈ c.reads)
    (h : scope.Lacks path) : c.holds scope = true ↔ c.AsksAbsence path := by
  have hnone := Scope.resolve?_eq_none_iff.mpr h
  cases c with
  | compare left op right => exact holds_compare_of_lacks hp h
  | present field negated =>
    obtain rfl := List.mem_singleton.mp hp
    rw [holds, evaluate, hnone]
    constructor
    · intro hb
      cases negated with
      | true => exact .missing
      | false => cases hb
    · rintro ⟨⟩
      rfl
  | fits field pattern negated =>
    obtain rfl := List.mem_singleton.mp hp
    rw [holds, evaluate, hnone]
    refine iff_of_false Bool.false_ne_true ?_
    rintro ⟨⟩
  | contains field needle negated =>
    refine iff_of_false ?_ ?_
    · rw [holds_iff, evaluate]
      rcases List.mem_cons.mp hp with rfl | hp
      · rw [hnone]
        cases needle.resolve scope <;> simp
      · rw [(Operand.resolve_of_mem_reads hp h).2]
        cases scope.resolve? field <;> simp
    · rintro ⟨⟩

/-- The second item of an array of one, which is asked not to contain a text. -/
theorem holds_iff_of_lacks_item :
    let second : FieldPath := ⟨["tags", "1"], by decide, by decide⟩
    let scope : Scope := ⟨.obj [("tags", .arr [.str "new"])], { method := some "GET" },
      ⟨0, by decide, by decide⟩⟩
    let c : Clause := .contains second (.literal (.str "vip")) true
    second ∈ c.reads ∧ scope.Lacks second ∧ ¬c.AsksAbsence second ∧ c.holds scope = false := by
  intro second scope c
  have hp : second ∈ c.reads := List.mem_cons_self
  have hlacks : scope.Lacks second := ⟨FieldPath.lookup?_eq_none_iff.mp (by decide +kernel), rfl⟩
  have hasks : ¬AsksAbsence second (.contains second (.literal (.str "vip")) true) := by
    rintro ⟨⟩
  exact ⟨hp, hlacks, hasks, Bool.eq_false_iff.mpr fun h =>
    hasks ((holds_iff_of_lacks hp hlacks).mp h)⟩

end Clause

end Bylaw
