import Bylaw.Proofs.Condition.Order
import Bylaw.Proofs.Text.Numeral
import Mathlib.Data.List.Forall2

/-! Equality up to notation. Main statement: it is an equivalence, and values that are equal in this
sense can stand for each other in a comparison for equality and as items of an array. -/

namespace Bylaw

namespace Json

/-- An array or an object. -/
def isNested (v : Json) : Bool := v.isArray || v.isObject

/-- A value that stands for its text: no number or numeral, and neither array nor object. -/
structure IsWord (v : Json) : Prop where
  noNumber : v.double? = none
  notNested : v.isNested = false

theorem double?_of_isNested {v : Json} (h : v.isNested = true) : v.double? = none := by
  cases v with
  | arr items => rfl
  | obj fields => rfl
  | _ => cases h

theorem kinds (v : Json) : (∃ x, v.double? = some x) ∨ v.IsWord ∨ v.isNested = true := by
  cases hx : v.double? with
  | some x => exact .inl ⟨x, rfl⟩
  | none =>
    cases hn : v.isNested with
    | true => exact .inr (.inr rfl)
    | false => exact .inr (.inl ⟨hx, hn⟩)

theorem double?_plain {v : Json} (h : v.isNested = false) : (str v.plain).double? = v.double? := by
  cases v with
  | null => decide
  | bool b => cases b <;> decide
  | num n =>
    have htext : (num n).plain.toList = n.text := String.toList_ofList
    show Text.double? (Text.trim (num n).plain.toList) = some n.toBinary64
    rw [htext, n.trim_text, n.double?_text]
  | str s => rfl
  | _ => cases h

/-- How two values come to be equal up to notation. -/
inductive Alike : Json → Json → Prop
  | numbers {v w : Json} {x y : Binary64} (left : v.double? = some x) (right : w.double? = some y)
    (equal : x.equal y = true) : Alike v w
  | words {v w : Json} (left : v.IsWord) (right : w.IsWord) (plain : v.plain = w.plain) : Alike v w
  | nested {v w : Json} (left : v.isNested = true) (equal : (v == w) = true) : Alike v w

namespace Alike

variable {u v w : Json}

theorem refl (v : Json) : Alike v v := by
  rcases v.kinds with ⟨x, hx⟩ | hword | hnested
  · exact .numbers hx hx x.equal_refl
  · exact .words hword hword rfl
  · exact .nested hnested BEq.rfl

theorem isNested_of_beq (h : (v == w) = true) : v.isNested = w.isNested := by
  have h : v.equal w = true := h
  cases v <;> cases w <;> first | rfl | cases h

theorem symm (h : Alike v w) : Alike w v := by
  cases h with
  | numbers left right equal => exact .numbers right left (Binary64.equal_symm _ _ ▸ equal)
  | words left right plain => exact .words right left plain.symm
  | nested left equal => exact .nested (isNested_of_beq equal ▸ left) (BEq.symm equal)

/-- The value in the middle is of one kind only. -/
theorem trans (huv : Alike u v) (hvw : Alike v w) : Alike u w := by
  cases huv with
  | numbers hu hv hequal =>
    cases hvw with
    | numbers hv' hw hequal' =>
      obtain rfl := Option.some.inj (hv.symm.trans hv')
      exact .numbers hu hw (Binary64.equal_trans hequal hequal')
    | words hv' => exact absurd (hv.symm.trans hv'.noNumber) nofun
    | nested hv' => exact absurd (hv.symm.trans (double?_of_isNested hv')) nofun
  | words hu hv hplain =>
    cases hvw with
    | numbers hv' => exact absurd (hv'.symm.trans hv.noNumber) nofun
    | words hv' hw hplain' => exact .words hu hw (hplain.trans hplain')
    | nested hv' => exact absurd (hv'.symm.trans hv.notNested) nofun
  | nested hu hequal =>
    have hv := (isNested_of_beq hequal).symm.trans hu
    cases hvw with
    | numbers hv' => exact absurd (hv'.symm.trans (double?_of_isNested hv)) nofun
    | words hv' => exact absurd (hv.symm.trans hv'.notNested) nofun
    | nested _ hequal' => exact .nested hu (PartialEquivBEq.trans hequal hequal')

/-- Values that are equal as they stand. -/
theorem of_beq (h : (v == w) = true) : Alike v w := by
  have hequal : v.equal w = true := h
  cases v with
  | null =>
    cases w with
    | null => exact refl _
    | _ => cases hequal
  | bool b =>
    cases w with
    | bool c => exact eq_of_beq (a := b) (b := c) hequal ▸ refl _
    | _ => cases hequal
  | num m =>
    cases w with
    | num n => exact .numbers rfl rfl (Number.equal_toBinary64 hequal)
    | _ => cases hequal
  | str s =>
    cases w with
    | str t => exact eq_of_beq (a := s) (b := t) hequal ▸ refl _
    | _ => cases hequal
  | arr items => exact .nested rfl h
  | obj fields => exact .nested rfl h

/-- A value that is not nested and has the text of a number is that number, up to notation. -/
theorem of_plain (hv : v.isNested = false) (hw : w.isNested = false) (h : v.plain = w.plain) :
    Alike v w := by
  have hdouble : v.double? = w.double? := by rw [← double?_plain hv, h, double?_plain hw]
  cases hx : v.double? with
  | some x => exact .numbers hx (hdouble ▸ hx) x.equal_refl
  | none => exact .words ⟨hx, hv⟩ ⟨hdouble ▸ hx, hw⟩ h

end Alike

theorem looselyEqual_iff_alike {v w : Json} : v.looselyEqual w = true ↔ Alike v w := by
  -- The guards of the comparison ask which of the two values is nested.
  have hshape : (v.isArray || v.isObject || w.isArray || w.isObject) =
      (v.isNested || w.isNested) := by
    rw [isNested, isNested, Bool.or_assoc (v.isArray || v.isObject)]
  constructor
  · intro h
    rw [looselyEqual, hshape] at h
    split at h
    · rename_i hequal
      exact .of_beq hequal
    · split at h
      · rename_i hx hy
        exact .numbers hx hy h
      · split at h
        · cases h
        · rename_i hnested
          simp only [Bool.or_eq_true, not_or, Bool.not_eq_true] at hnested
          exact .of_plain hnested.1 hnested.2 (eq_of_beq h)
  · intro h
    cases h with
    | numbers left right equal => rwa [looselyEqual_of_double? left right]
    | words left right plain =>
      rw [looselyEqual, hshape, left.noNumber, left.notNested, right.notNested, plain]
      simp
    | nested left equal => rw [looselyEqual, if_pos equal]

end Json

namespace Operand

/-- Two operands stand, each in its scope, for values that are equal up to notation. -/
def SameValue (scope scope' : Scope) (operand operand' : Operand) : Prop :=
  ∃ v v', operand.resolve scope = .ok (some v) ∧ operand'.resolve scope' = .ok (some v') ∧
    v.looselyEqual v' = true

end Operand

namespace FieldPath

/-- Two references stand, each in its scope, for arrays of as many items, which are equal up to
notation one by one. -/
def SameItems (scope scope' : Scope) (field field' : FieldPath) : Prop :=
  ∃ items items', scope.resolve? field = some (.arr items) ∧
    scope'.resolve? field' = some (.arr items') ∧
    List.Forall₂ (fun v w => v.looselyEqual w = true) items items'

end FieldPath

namespace Json

theorem looselyEqual_equivalence : Equivalence fun v w : Json => v.looselyEqual w = true := by
  simp only [looselyEqual_iff_alike]
  exact ⟨Alike.refl, Alike.symm, Alike.trans⟩

theorem looselyEqual_congr {v v' w w' : Json} (hv : v.looselyEqual v' = true)
    (hw : w.looselyEqual w' = true) : v.looselyEqual w = v'.looselyEqual w' := by
  have h := looselyEqual_equivalence
  rw [Bool.eq_iff_iff]
  exact ⟨fun hvw => h.trans (h.symm hv) (h.trans hvw hw),
    fun hvw => h.trans hv (h.trans hvw (h.symm hw))⟩

theorem any_looselyEqual_congr {items items' : List Json} {w w' : Json}
    (hitems : List.Forall₂ (fun v w => v.looselyEqual w = true) items items')
    (hw : w.looselyEqual w' = true) :
    items.any (·.looselyEqual w) = items'.any (·.looselyEqual w') := by
  induction hitems with
  | nil => rfl
  | cons hv _ ih => rw [List.any_cons, List.any_cons, looselyEqual_congr hv hw, ih]

end Json

namespace Clause

open Operand (SameValue)
open FieldPath (SameItems)

/-- Equality up to notation is an equivalence. So a comparison for equality of two present operands
holds of all values that are equal in this sense or of none, and so does the membership of one in
an array. -/
theorem equality_respects_notation :
    (Equivalence fun v w : Json => v.looselyEqual w = true) ∧
    (∀ scope scope' l l' r r', SameValue scope scope' l l' → SameValue scope scope' r r' →
      ∀ op, op.asksOrder = false →
        (compare l op r).holds scope = (compare l' op r').holds scope') ∧
    (∀ scope scope' field field' needle needle', SameItems scope scope' field field' →
      SameValue scope scope' needle needle' →
      ∀ negated, (contains field needle negated).holds scope =
        (contains field' needle' negated).holds scope') := by
  refine ⟨Json.looselyEqual_equivalence, ?_, ?_⟩
  · rintro scope scope' l l' r r' ⟨v, v', hl, hl', hv⟩ ⟨w, w', hr, hr', hw⟩ op hop
    have hequal := Json.looselyEqual_congr hv hw
    rw [holds, holds, evaluate_of_values hl hr, evaluate_of_values hl' hr']
    cases op with
    | eq => rw [compareValues, compareValues, hequal]
    | ne => rw [compareValues, compareValues, hequal]
    | _ => cases hop
  · rintro scope scope' field field' needle needle' ⟨items, items', hfield, hfield', hitems⟩
      ⟨w, w', hneedle, hneedle', hw⟩ negated
    have hany := Json.any_looselyEqual_congr hitems hw
    simp only [holds, evaluate, hfield, hfield', hneedle, hneedle', containsValue, hany]

/-- Two records with the same score and the same tags in different notation. -/
theorem equality_respects_notation_tagged :
    let scope : Scope :=
      ⟨.obj [("score", .str " 8e1"), ("tags", .arr [.null, .str "3"])], {}, leapDay⟩
    let scope' : Scope :=
      ⟨.obj [("score", .ofNat 80), ("tags", .arr [.str "", .ofNat 3])], {}, leapDay⟩
    let score : FieldPath := ⟨["score"], by decide, by decide⟩
    let tags : FieldPath := ⟨["tags"], by decide, by decide⟩
    let eighty : Operand := .literal (.str "80.0")
    SameValue scope scope' (.field score) (.field score) ∧ SameItems scope scope' tags tags ∧
      (compare (.field score) .eq eighty).holds scope =
        (compare (.field score) .eq eighty).holds scope' ∧
      (contains tags (.field score) true).holds scope =
        (contains tags (.field score) true).holds scope' := by
  intro scope scope' score tags eighty
  have hscore : SameValue scope scope' (.field score) (.field score) :=
    ⟨_, _, rfl, rfl, by decide +kernel⟩
  have hitems : List.Forall₂ (fun v w : Json => v.looselyEqual w = true) [.null, .str "3"]
      [.str "", .ofNat 3] :=
    .cons (by decide +kernel) (.cons (by decide +kernel) .nil)
  have htags : SameItems scope scope' tags tags := ⟨_, _, rfl, rfl, hitems⟩
  have heighty : SameValue scope scope' eighty eighty := ⟨_, _, rfl, rfl, by decide +kernel⟩
  obtain ⟨-, hcompare, hcontains⟩ := equality_respects_notation
  exact ⟨hscore, htags, hcompare _ _ _ _ _ _ hscore heighty .eq rfl,
    hcontains _ _ _ _ _ _ htags hscore true⟩

end Clause

end Bylaw
