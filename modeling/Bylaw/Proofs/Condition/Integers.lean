import Bylaw.Proofs.Condition.Order
import Bylaw.Proofs.Number.Monotone

/-! Comparisons of whole numbers. Main statement: they are those of the nearest doubles, and so all
six are exact unless two different numbers have the same nearest double, which takes more than 53
bits in both. -/

namespace Bylaw

namespace Comparator

/-- The relation of whole numbers that a comparison asks for. -/
def Relates (op : Comparator) (a b : Int) : Prop :=
  match op with
  | .eq => a = b
  | .ne => a ≠ b
  | .gt => a > b
  | .ge => a ≥ b
  | .lt => a < b
  | .le => a ≤ b

instance (op : Comparator) (a b : Int) : Decidable (op.Relates a b) :=
  match op with
  | .eq => inferInstanceAs (Decidable (a = b))
  | .ne => inferInstanceAs (Decidable (a ≠ b))
  | .gt => inferInstanceAs (Decidable (a > b))
  | .ge => inferInstanceAs (Decidable (a ≥ b))
  | .lt => inferInstanceAs (Decidable (a < b))
  | .le => inferInstanceAs (Decidable (a ≤ b))

theorem accepts_compare (op : Comparator) (a b : Int) :
    op.accepts (Ord.compare a b) = true ↔ op.Relates a b := by
  cases op <;> simp [accepts, Relates, compare_lt_iff_lt, compare_gt_iff_gt]

theorem relates_congr {a b c d : Int} (hlt : a < b ↔ c < d) (heq : a = b ↔ c = d)
    (op : Comparator) : op.Relates a b ↔ op.Relates c d := by
  cases op <;> simp only [Relates] <;> omega

end Comparator

namespace Clause

open Binary64 (ofInt)

variable {scope : Scope} {path : FieldPath}

/-- Numbers and numerals are compared as the doubles that they denote. -/
theorem compareValues_of_doubles {v w : Json} {x y : Binary64} (hx : v.double? = some x)
    (hy : w.double? = some y) (op : Comparator) :
    compareValues op v w = .ok (decide (op.Relates x.key y.key)) := by
  have hequal : v.looselyEqual w = Comparator.eq.accepts (x.order y) := by
    rw [Json.looselyEqual_of_double? hx hy, Bool.eq_iff_iff, ← Binary64.order_eq_iff,
      Comparator.accepts, beq_iff_eq]
  have hdecide : decide (op.Relates x.key y.key) = op.accepts (x.order y) := by
    rw [Bool.eq_iff_iff, decide_eq_true_eq, Binary64.order, Comparator.accepts_compare]
  rw [hdecide]
  cases hop : op.asksOrder with
  | true => exact (compareValues_eq_ok_iff hop).mpr ⟨_, .numbers hx hy, rfl⟩
  | false =>
    cases op with
    | eq => rw [compareValues, hequal]
    | ne => rw [compareValues, hequal, Comparator.accepts, Comparator.accepts, bne]
    | _ => cases hop

/-- The keys of the nearest doubles are in the order of the numbers, where they differ. -/
theorem relates_key_iff (op : Comparator) (a b : Int) :
    op.Relates (ofInt a).key (ofInt b).key ↔
      op.Relates a (if ofInt a = ofInt b then a else b) := by
  split
  · rename_i h
    rw [h]
    exact Comparator.relates_congr (by simp) (by simp) op
  · rename_i h
    have hkey := mt Binary64.ofInt_eq_iff.mpr h
    have hle := @Binary64.key_ofInt_mono a b
    have hge := @Binary64.key_ofInt_mono b a
    have hne : a ≠ b := fun hab => h (congrArg ofInt hab)
    exact Comparator.relates_congr (by omega) (by omega) op

theorem evaluate_integers {a b : WordInt}
    (h : path.lookup? scope.record = some (.num (.int a))) (op : Comparator) :
    (compare (.field path) op (.literal (.num (.int b)))).evaluate scope =
      .ok (decide (op.Relates a.val (if ofInt a.val = ofInt b.val then a.val else b.val))) := by
  have hleft : (Operand.field path).resolve scope = .ok (some (.num (.int a))) := by
    rw [Operand.resolve, Scope.resolve?, h]
  rw [evaluate_of_values hleft rfl, compareValues_of_doubles rfl rfl]
  simp only [Number.toBinary64, relates_key_iff]

/-- A whole number that a record has at a reference, and another. Every comparison of the two takes
them for equal if they have the same nearest double, and is that of the numbers if not. So all six
are exact if and only if it takes equal numbers to have the same nearest double, and this is so if
one of the two has 53 bits at most. -/
theorem compare_integers_exact (a b : WordInt)
    (h : path.lookup? scope.record = some (.num (.int a))) :
    (∀ op, (compare (.field path) op (.literal (.num (.int b)))).evaluate scope =
      .ok (decide (op.Relates a.val (if ofInt a.val = ofInt b.val then a.val else b.val)))) ∧
    ((∀ op, (compare (.field path) op (.literal (.num (.int b)))).holds scope = true ↔
        op.Relates a.val b.val) ↔
      (ofInt a.val = ofInt b.val → a.val = b.val)) ∧
    (a.val.natAbs < 2 ^ 53 ∨ b.val.natAbs < 2 ^ 53 → ofInt a.val = ofInt b.val →
      a.val = b.val) := by
  refine ⟨evaluate_integers h, ?_, fun hbits hsame => ?_⟩
  · simp only [holds_iff, evaluate_integers h, Except.ok.injEq, decide_eq_true_eq]
    constructor
    · intro hexact hsame
      have heq := hexact .eq
      rw [if_pos hsame] at heq
      exact heq.mp rfl
    · intro hsame op
      split
      · rename_i heq
        rw [hsame heq]
      · rfl
  · by_contra hne
    rcases hbits with hbits | hbits
    · exact absurd (Binary64.le_natAbs_of_ofInt_eq hsame hne) (by omega)
    · exact absurd (Binary64.le_natAbs_of_ofInt_eq hsame.symm (Ne.symm hne)) (by omega)

/-- A whole number that a record has at `x`. -/
def atX (a : WordInt) : Scope := ⟨.obj [("x", .num (.int a))], {}, leapDay⟩

/-- The largest number of 53 bits, and the next one. -/
theorem compare_integers_exact_next :
    let x : FieldPath := ⟨["x"], by decide, by decide⟩
    let a : WordInt := ⟨0x1FFFFFFFFFFFFF, by decide, by decide⟩
    let b : WordInt := ⟨0x20000000000000, by decide, by decide⟩
    x.lookup? (atX a).record = some (.num (.int a)) ∧
      ∀ op, (compare (.field x) op (.literal (.num (.int b)))).holds (atX a) = true ↔
        op.Relates a.val b.val := by
  intro x a b
  have hlookup : x.lookup? (atX a).record = some (.num (.int a)) := rfl
  obtain ⟨-, hexact, hbits⟩ := @compare_integers_exact (atX a) x a b hlookup
  exact ⟨hlookup, hexact.mpr (hbits (.inl (by decide)))⟩

/-- The least two numbers that have one nearest double: the larger is not above the other, and equal
to it. -/
theorem neighbours_taken_for_equal :
    let x : FieldPath := ⟨["x"], by decide, by decide⟩
    let a : WordInt := ⟨0x20000000000001, by decide, by decide⟩
    let b : WordInt := ⟨0x20000000000000, by decide, by decide⟩
    x.lookup? (atX a).record = some (.num (.int a)) ∧
      ¬((compare (.field x) .gt (.literal (.num (.int b)))).holds (atX a) = true ↔
        a.val > b.val) ∧
      ¬((compare (.field x) .eq (.literal (.num (.int b)))).holds (atX a) = true ↔
        a.val = b.val) := by
  intro x a b
  have hgt : (compare (.field x) .gt (.literal (.num (.int b)))).holds (atX a) = false := by
    decide +kernel
  have heq : (compare (.field x) .eq (.literal (.num (.int b)))).holds (atX a) = true := by
    decide +kernel
  rw [hgt, heq]
  exact ⟨rfl, by decide, by decide⟩

end Clause

end Bylaw
