import Bylaw.Evaluation
import Bylaw.Proofs.Calendar.Reading
import Bylaw.Proofs.Json.Equality

/-! The order of values, and their equality up to notation. Main statements: two values are in order
as numbers or as dates, and no value is both; the order can be turned around and is transitive; and
of values that are in order those are equal that neither precedes, but for different texts that
begin with the same date. -/

namespace Bylaw

theorem Binary64.order_eq_iff {x y : Binary64} : x.order y = .eq ↔ x.equal y = true := by
  rw [order, equal, beq_iff_eq, compare_eq_iff_eq]

theorem Number.equal_toBinary64 {m n : Number} (h : m.equal n = true) :
    m.toBinary64.equal n.toBinary64 = true := by
  cases m <;> cases n
  · rw [toBinary64, toBinary64, eq_of_beq h, Binary64.equal_refl]
  · cases h
  · cases h
  · exact h

namespace Json

theorem double?_of_date? {v : Json} {d : Date} (h : v.date? = some d) : v.double? = none := by
  cases v with
  | str s => exact Date.double?_of_readLeading? h
  | _ => cases h

/-- Two values are in order: as numbers, or as dates. -/
inductive Ordered : Json → Json → Ordering → Prop
  | numbers {v w : Json} {x y : Binary64} (left : v.double? = some x) (right : w.double? = some y) :
    Ordered v w (x.order y)
  | dates {v w : Json} {d e : Date} (left : v.date? = some d) (right : w.date? = some e) :
    Ordered v w (compare d.day e.day)

theorem order?_eq_some_iff {v w : Json} {o : Ordering} :
    v.order? w = some o ↔ Ordered v w o := by
  constructor
  · intro h
    unfold order? at h
    split at h
    · rename_i hx hy
      obtain rfl := Option.some.inj h
      exact .numbers hx hy
    · split at h
      · rename_i hd he
        obtain rfl := Option.some.inj h
        exact .dates hd he
      · cases h
  · intro h
    cases h with
    | numbers left right => rw [order?, left, right]
    | dates left right => rw [order?, double?_of_date? left, left, right]

theorem Ordered.unique {v w : Json} {o p : Ordering} (ho : Ordered v w o) (hp : Ordered v w p) :
    o = p :=
  Option.some.inj ((order?_eq_some_iff.mpr ho).symm.trans (order?_eq_some_iff.mpr hp))

theorem Ordered.swap {v w : Json} {o : Ordering} (h : Ordered v w o) : Ordered w v o.swap := by
  cases h with
  | numbers left right =>
    rw [Binary64.order, ← Std.OrientedOrd.eq_swap]
    exact .numbers right left
  | dates left right =>
    rw [← Std.OrientedOrd.eq_swap]
    exact .dates right left

/-- Since the value in the middle is not both number and date, all three are one or the other. -/
theorem Ordered.isLE_trans {u v w : Json} {o p : Ordering} (huv : Ordered u v o)
    (hvw : Ordered v w p) (ho : o.isLE = true) (hp : p.isLE = true) :
    ∃ q, Ordered u w q ∧ q.isLE = true := by
  cases huv with
  | numbers hu hv =>
    cases hvw with
    | numbers hv' hw =>
      obtain rfl := Option.some.inj (hv.symm.trans hv')
      exact ⟨_, .numbers hu hw, Std.TransOrd.isLE_trans ho hp⟩
    | dates hv' =>
      rw [double?_of_date? hv'] at hv
      cases hv
  | dates hu hv =>
    cases hvw with
    | numbers hv' =>
      rw [double?_of_date? hv] at hv'
      cases hv'
    | dates hv' hw =>
      obtain rfl := Option.some.inj (hv.symm.trans hv')
      exact ⟨_, .dates hu hw, Std.TransOrd.isLE_trans ho hp⟩

theorem looselyEqual_comm (v w : Json) : v.looselyEqual w = w.looselyEqual v := by
  have hshape : (v.isArray || v.isObject || w.isArray || w.isObject) =
      (w.isArray || w.isObject || v.isArray || v.isObject) := by ac_rfl
  unfold looselyEqual
  rw [BEq.comm (a := v), BEq.comm (a := v.plain), hshape]
  cases v.double? <;> cases w.double? <;> simp only [Binary64.equal_symm]

theorem equal_of_beq {v w : Json} {x y : Binary64} (h : (v == w) = true) (hx : v.double? = some x)
    (hy : w.double? = some y) : x.equal y = true := by
  have h : v.equal w = true := h
  cases v with
  | num m =>
    cases w with
    | num n =>
      obtain rfl := Option.some.inj hx
      obtain rfl := Option.some.inj hy
      exact Number.equal_toBinary64 h
    | _ => cases h
  | str s =>
    cases w with
    | str t =>
      obtain rfl : s = t := eq_of_beq h
      obtain rfl := Option.some.inj (hx.symm.trans hy)
      exact x.equal_refl
    | _ => cases h
  | _ => cases hx

theorem looselyEqual_of_double? {v w : Json} {x y : Binary64} (hx : v.double? = some x)
    (hy : w.double? = some y) : v.looselyEqual w = x.equal y := by
  rw [looselyEqual, hx, hy]
  split
  · rename_i h
    rw [equal_of_beq h hx hy]
  · rfl

theorem exists_str_of_date? {v : Json} {d : Date} (h : v.date? = some d) : ∃ s, v = .str s := by
  cases v with
  | str s => exact ⟨s, rfl⟩
  | _ => cases h

/-- Texts, not both numerals, are equal as they stand. -/
theorem looselyEqual_str {s t : String} (h : (str s).double? = none) :
    (str s).looselyEqual (str t) = true ↔ s = t := by
  rw [looselyEqual, h]
  split
  · rename_i heq
    exact iff_of_true rfl (eq_of_beq heq)
  · simp [isArray, isObject, plain]

/-- Different texts that begin with the same date. -/
inductive DifferWithinDay : Json → Json → Prop
  | intro {s t : String} {d : Date} (ne : s ≠ t) (left : (str s).date? = some d)
    (right : (str t).date? = some d) : DifferWithinDay (.str s) (.str t)

theorem DifferWithinDay.ordered {v w : Json} (h : DifferWithinDay v w) : Ordered v w .eq := by
  obtain @⟨s, t, d, -, left, right⟩ := h
  have hself : compare d.day d.day = .eq := Std.ReflOrd.compare_self
  exact hself ▸ .dates left right

/-- Of values that are in order those are equal that neither precedes, but for different texts that
begin with the same date. -/
theorem Ordered.looselyEqual_iff {v w : Json} {o : Ordering} (h : Ordered v w o) :
    v.looselyEqual w = true ↔ o = .eq ∧ ¬ DifferWithinDay v w := by
  cases h with
  | numbers left right =>
    rw [looselyEqual_of_double? left right, Binary64.order_eq_iff]
    refine ⟨fun h => ⟨h, fun hd => ?_⟩, And.left⟩
    obtain ⟨-, hd, -⟩ := hd
    rw [double?_of_date? hd] at left
    cases left
  | @dates d e left right =>
    -- Dates are texts, so that those of one day can still differ as they stand.
    obtain ⟨s, rfl⟩ := exists_str_of_date? left
    obtain ⟨t, rfl⟩ := exists_str_of_date? right
    rw [looselyEqual_str (double?_of_date? left), compare_eq_iff_eq]
    constructor
    · rintro rfl
      rw [left, Option.some.injEq] at right
      exact ⟨congrArg Date.day right, fun ⟨ne, _, _⟩ => ne rfl⟩
    · rintro ⟨hday, hsame⟩
      obtain rfl : d = e := by
        cases d
        cases e
        cases hday
        rfl
      by_contra hne
      exact hsame (.intro hne left right)

end Json

end Bylaw
