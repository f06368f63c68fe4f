import Bylaw.FieldPath
import Mathlib.Data.String.Basic

/-! Setting a value at a path, as it bears on other paths. Two paths overlap if one continues the
other. Main statements: setting a value at a path leaves alone what stands at a path that does not
overlap it, and of values set at paths that do not overlap the order does not matter. -/

namespace Bylaw

theorem Keyed.insert_comm {α : Type} {k l : String} (h : k ≠ l) (v w : α) (entries : Keyed α) :
    insert k v (insert l w entries) = insert l w (insert k v entries) := by
  induction entries with
  | nil =>
    rcases lt_or_gt_of_ne h with hlt | hlt
    · simp [insert, hlt, hlt.not_gt, h.symm]
    · simp [insert, hlt, hlt.not_gt, h]
  | cons e rest ih =>
    obtain ⟨m, x⟩ := e
    -- Where each of the names goes is told by the first entry.
    rcases lt_trichotomy k m with hk | hk | hk
    · rcases lt_trichotomy l m with hl | hl | hl
      · rcases lt_or_gt_of_ne h with hlt | hlt
        · simp [insert, hk, hl, hlt, hlt.not_gt, h.symm]
        · simp [insert, hk, hl, hlt, hlt.not_gt, h]
      · subst hl
        simp [insert, hk, hk.not_gt, h.symm]
      · simp [insert, hk, hl.not_gt, hl.ne', (hk.trans hl).not_gt, h.symm]
    · subst hk
      rcases lt_or_gt_of_ne h with hlt | hlt
      · simp [insert, hlt.not_gt, h.symm]
      · simp [insert, hlt, hlt.not_gt, h]
    · rcases lt_trichotomy l m with hl | hl | hl
      · simp [insert, hl, hk.not_gt, hk.ne', (hl.trans hk).not_gt, h]
      · subst hl
        simp [insert, hk.not_gt, h]
      · simp [insert, hk.not_gt, hk.ne', hl.not_gt, hl.ne', ih]

namespace FieldPath

/-- One path is the other or continues it. -/
def Overlaps (p q : FieldPath) : Prop := p.segments <+: q.segments ∨ q.segments <+: p.segments

instance (p q : FieldPath) : Decidable (p.Overlaps q) :=
  inferInstanceAs (Decidable (p.segments <+: q.segments ∨ q.segments <+: p.segments))

/-- What setting a value makes of the field that it is set in. -/
def grow? : List String → Option Json → Json → Option Json
  | [], _, value => some value
  | rest, old, value => assignAt? rest (old.getD (.obj [])) value

theorem assignAt?_obj (segment : String) (rest : List String) (fields : Keyed Json)
    (value : Json) :
    assignAt? (segment :: rest) (.obj fields) value =
      (grow? rest (Keyed.get? segment fields) value).map fun child =>
        .obj (Keyed.insert segment child fields) := by
  cases rest with
  | nil => rfl
  | cons next rest => rfl

theorem obj_of_assignAt? {segments : List String} {root value after : Json}
    (h : assignAt? segments root value = some after) :
    ∃ segment rest fields child, segments = segment :: rest ∧ root = .obj fields ∧
      grow? rest (Keyed.get? segment fields) value = some child ∧
      after = .obj (Keyed.insert segment child fields) := by
  cases segments with
  | nil => cases root <;> cases h
  | cons segment rest =>
    cases root with
    | obj fields =>
      rw [assignAt?_obj] at h
      obtain ⟨child, hc, rfl⟩ := Option.map_eq_some_iff.mp h
      exact ⟨segment, rest, fields, child, rfl, rfl, hc, rfl⟩
    | _ => cases rest <;> cases h

/-- Setting a value leaves alone what stands at segments that neither continue its own nor are
continued by them. -/
theorem follow?_of_assignAt? {xs ys : List String} (hxy : ¬xs <+: ys) (hyx : ¬ys <+: xs)
    {root value after : Json} (h : assignAt? xs root value = some after) :
    follow? ys after = follow? ys root := by
  induction xs generalizing ys root after with
  | nil => exact absurd List.nil_prefix hxy
  | cons x xs ih =>
    obtain ⟨_, _, fields, child, ⟨⟩, rfl, hc, rfl⟩ := obj_of_assignAt? h
    cases ys with
    | nil => exact absurd List.nil_prefix hyx
    | cons y ys =>
      simp only [follow?, child?]
      by_cases hne : y = x
      · subst hne
        simp only [List.cons_prefix_cons, true_and] at hxy hyx
        cases xs with
        | nil => exact absurd List.nil_prefix hxy
        | cons x' xs =>
          rw [Keyed.get?_insert_self, Option.bind_some, ih hxy hyx hc]
          cases Keyed.get? y fields with
          | some old => rfl
          | none =>
            cases ys with
            | nil => exact absurd List.nil_prefix hyx
            | cons y' ys => rfl
      · rw [Keyed.get?_insert_of_ne hne]

/-- Whether a value can be set does not hang on a value set at segments that neither continue its
own nor are continued by them. -/
theorem isSome_assignAt? {xs ys : List String} (hxy : ¬xs <+: ys) (hyx : ¬ys <+: xs)
    {root v w after : Json} (h : assignAt? ys root w = some after) :
    (assignAt? xs after v).isSome = (assignAt? xs root v).isSome := by
  induction xs generalizing ys root after with
  | nil => exact absurd List.nil_prefix hxy
  | cons x xs ih =>
    obtain ⟨y, ys, fields, child, rfl, rfl, hc, rfl⟩ := obj_of_assignAt? h
    simp only [assignAt?_obj, Option.isSome_map]
    by_cases hne : x = y
    · subst hne
      simp only [List.cons_prefix_cons, true_and] at hxy hyx
      rw [Keyed.get?_insert_self]
      cases xs with
      | nil => exact absurd List.nil_prefix hxy
      | cons x' xs =>
        cases ys with
        | nil => exact absurd List.nil_prefix hyx
        | cons y' ys => exact ih hxy hyx hc
    · rw [Keyed.get?_insert_of_ne hne]

/-- Values set at segments neither of which continue the others: the second is set as if it were
the first. -/
theorem assignAt?_comm {xs ys : List String} (hxy : ¬xs <+: ys) (hyx : ¬ys <+: xs)
    {root v w first second : Json} (hx : assignAt? xs root v = some first)
    (hy : assignAt? ys root w = some second) :
    assignAt? xs second v = assignAt? ys first w := by
  induction xs generalizing ys root first second with
  | nil => exact absurd List.nil_prefix hxy
  | cons x xs ih =>
    obtain ⟨_, _, fields, child, ⟨⟩, rfl, hc, rfl⟩ := obj_of_assignAt? hx
    obtain ⟨y, ys, _, child', rfl, ⟨⟩, hd, rfl⟩ := obj_of_assignAt? hy
    simp only [assignAt?_obj]
    by_cases hne : x = y
    · subst hne
      simp only [List.cons_prefix_cons, true_and] at hxy hyx
      simp only [Keyed.get?_insert_self, Keyed.insert_insert]
      cases xs with
      | nil => exact absurd List.nil_prefix hxy
      | cons x' xs =>
        cases ys with
        | nil => exact absurd List.nil_prefix hyx
        | cons y' ys =>
          simp only [grow?, Option.getD_some]
          rw [ih hxy hyx hc hd]
    · rw [Keyed.get?_insert_of_ne hne, Keyed.get?_insert_of_ne (Ne.symm hne), hc, hd,
        Option.map_some, Option.map_some, Keyed.insert_comm hne]

/-- The record with a value set at a path, or as it was if the value cannot be set there. -/
def put (path : FieldPath) (value record : Json) : Json := (path.assign? record value).getD record

theorem lookup?_put {p q : FieldPath} (h : ¬p.Overlaps q) (value record : Json) :
    q.lookup? (p.put value record) = q.lookup? record := by
  obtain ⟨hpq, hqp⟩ := not_or.mp h
  simp only [lookup?, put, assign?]
  cases ha : assignAt? p.segments record value with
  | none => rfl
  | some after => rw [Option.getD_some, follow?_of_assignAt? hpq hqp ha]

theorem put_put_comm {p q : FieldPath} (h : ¬p.Overlaps q) (v w record : Json) :
    p.put v (q.put w record) = q.put w (p.put v record) := by
  obtain ⟨hpq, hqp⟩ := not_or.mp h
  simp only [put, assign?]
  cases hp : assignAt? p.segments record v with
  | none =>
    cases hq : assignAt? q.segments record w with
    | none => simp only [Option.getD_none, hp, hq]
    | some second =>
      have hs := isSome_assignAt? hpq hqp (v := v) hq
      rw [hp, Option.isSome_none, Option.isSome_eq_false_iff, Option.isNone_iff_eq_none] at hs
      simp only [Option.getD_none, Option.getD_some, hq, hs]
  | some first =>
    have hs := isSome_assignAt? hqp hpq (v := w) hp
    cases hq : assignAt? q.segments record w with
    | none =>
      rw [hq, Option.isSome_none, Option.isSome_eq_false_iff, Option.isNone_iff_eq_none] at hs
      simp only [Option.getD_none, Option.getD_some, hp, hs]
    | some second =>
      rw [hq, Option.isSome_some] at hs
      obtain ⟨both, hb⟩ := Option.isSome_iff_exists.mp hs
      simp only [Option.getD_some, assignAt?_comm hpq hqp hp hq, hb]

/-- The one segment of `score`, a field that examples of rules read. -/
theorem score_nonempty : ["score"] ≠ [] := by decide

theorem score_plain : ∀ s ∈ ["score"], s ≠ "" ∧ '.' ∉ s.toList := by decide

end FieldPath

end Bylaw
