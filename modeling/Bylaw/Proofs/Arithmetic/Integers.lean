import Bylaw.Evaluation
import Bylaw.Proofs.Number.Range
import Bylaw.Proofs.Text.Numeral

/-! Arithmetic on whole numbers. Main statement: the result is exact where it is a whole number that
fits a signed word, and a finite double otherwise, and only a division by zero fails. -/

namespace Bylaw

namespace Binary64

theorem rank_eq_of_equal {x y : Binary64} (h : x.equal y = true) : x.rank = y.rank := by
  have habs (z : Binary64) : z.key.natAbs = z.rank := by
    unfold key
    split <;> simp
  rw [← habs x, ← habs y, eq_of_beq h]

theorem value_eq_of_equal {x y : Binary64} (h : x.equal y = true) : x.value = y.value :=
  le_antisymm (value_mono (rank_eq_of_equal h).le) (value_mono (rank_eq_of_equal h).ge)

end Binary64

namespace Json

/-- What denotes a whole number that fits a signed word denotes the nearest double, but that zero
may have either sign. -/
theorem double?_of_int64? {v : Json} {i : Int} (h : v.int64? = some i) :
    fitsInt64 i = true ∧ ∃ x, v.double? = some x ∧ x.equal (Binary64.ofInt i) = true := by
  cases v with
  | num n =>
    cases n with
    | int j =>
      obtain ⟨hlt, rfl⟩ : j.val < 0x8000000000000000 ∧ j.val = i := by
        simpa [int64?, Number.int64?] using h
      have hlower := j.lower
      exact ⟨by simp [fitsInt64, hlt, hlower], _, rfl, Binary64.equal_refl _⟩
    | real x => cases h
  | str s => exact Text.double?_of_int64? h
  | _ => cases h

end Json

namespace ArithOp

open Binary64 (ofInt)

/-- The result of an operation on two whole numbers is a whole number. A quotient is one if nothing
is left. -/
def Exact (op : ArithOp) (x y z : Int) : Prop :=
  match op with
  | .add => z = x + y
  | .sub => z = x - y
  | .mul => z = x * y
  | .div => y ≠ 0 ∧ z * y = x

theorem onInts?_eq_some_iff {op : ArithOp} {x y z : Int} :
    op.onInts? x y = some z ↔ op.Exact x y z ∧ fitsInt64 z = true := by
  have hdiv : (if y ≠ 0 ∧ x.tmod y = 0 then some (x.tdiv y) else none) = some z ↔
      y ≠ 0 ∧ z * y = x := by
    rw [Option.ite_none_right_eq_some, Option.some.injEq, and_assoc]
    refine and_congr_right fun hy => ?_
    constructor
    · rintro ⟨hmod, rfl⟩
      exact Int.tdiv_mul_cancel (Int.dvd_of_tmod_eq_zero hmod)
    · rintro rfl
      exact ⟨Int.mul_tmod_left z y, Int.mul_tdiv_cancel z hy⟩
  cases op with
  | div => simp only [onInts?, Option.filter_eq_some_iff, hdiv, Exact]
  | _ => simp only [onInts?, Option.filter_eq_some_iff, Option.some.injEq, Exact, @eq_comm _ _ z]

theorem exists_double? (op : ArithOp) {a b : Binary64} (ha : a.value ≤ 2 ^ 63)
    (hb : b.value ≤ 2 ^ 63) (hdiv : op = .div → 1 ≤ b.value) : ∃ d, op.double? a b = some d := by
  have hnonneg (x : Binary64) : 0 ≤ x.value := by
    unfold Binary64.value
    positivity
  -- Results of words stay below a bound that is far from the end of the range.
  cases op with
  | add =>
    refine Binary64.exists_add ?_
    calc a.value + b.value ≤ 2 ^ 63 + 2 ^ 63 := by gcongr
      _ ≤ 2 ^ 200 := by norm_num
  | sub =>
    refine Binary64.exists_add ?_
    calc a.value + b.neg.value = a.value + b.value := rfl
      _ ≤ 2 ^ 63 + 2 ^ 63 := by gcongr
      _ ≤ 2 ^ 200 := by norm_num
  | mul =>
    refine Binary64.exists_mul ?_
    calc a.value * b.value ≤ 2 ^ 63 * 2 ^ 63 := mul_le_mul ha hb (hnonneg b) (by positivity)
      _ ≤ 2 ^ 200 := by norm_num
  | div =>
    have hone := hdiv rfl
    refine Binary64.exists_div (zero_lt_one.trans_le hone) ?_
    calc a.value / b.value ≤ a.value := div_le_self (hnonneg a) hone
      _ ≤ 2 ^ 63 := ha
      _ ≤ 2 ^ 200 := by norm_num

variable {v w : Json} {x y : Int}

/-- The result on doubles, for whole numbers that have no exact one. -/
theorem inexact_int64 (hv : v.int64? = some x) (hw : w.int64? = some y) {op : ArithOp}
    (hz : ¬(op = .div ∧ y = 0)) :
    ∃ a b d, a.equal (ofInt x) = true ∧ b.equal (ofInt y) = true ∧ op.double? a b = some d ∧
      op.inexact v w = .ok (.num (.real d)) := by
  obtain ⟨hx, a, hva, hax⟩ := Json.double?_of_int64? hv
  obtain ⟨hy, b, hwb, hby⟩ := Json.double?_of_int64? hw
  simp only [fitsInt64, Bool.and_eq_true, decide_eq_true_eq] at hx hy
  have ha : a.value ≤ 2 ^ 63 :=
    (Binary64.value_eq_of_equal hax).trans_le (Binary64.value_ofInt_le (by omega))
  have hb : b.value ≤ 2 ^ 63 :=
    (Binary64.value_eq_of_equal hby).trans_le (Binary64.value_ofInt_le (by omega))
  have hne (hop : op = .div) : y ≠ 0 := fun hy => hz ⟨hop, hy⟩
  have hone (hop : op = .div) : 1 ≤ b.value :=
    (Binary64.one_le_value_ofInt (hne hop)).trans_eq (Binary64.value_eq_of_equal hby).symm
  obtain ⟨d, hd⟩ := exists_double? op ha hb hone
  have hzero : ¬(op = .div ∧ b.isZero = true) := by
    rintro ⟨hop, hb⟩
    have hpos := Binary64.rank_ofInt_pos (hne hop)
    rw [← Binary64.rank_eq_of_equal hby, eq_of_beq hb] at hpos
    exact lt_irrefl 0 hpos
  refine ⟨a, b, d, hax, hby, hd, ?_⟩
  simp only [inexact, hva, hwb, onDoubles, if_neg hzero, hd]

/-- Two values that denote whole numbers which fit a signed word. If the operation has a whole
number for a result that fits one too, it gives that number; it fails just for a division by zero;
and otherwise it gives the double that the operation gives on the nearest doubles, which is
finite. -/
theorem apply_int64_exact (hv : v.int64? = some x) (hw : w.int64? = some y) (op : ArithOp) :
    (∀ z, op.Exact x y z → fitsInt64 z = true → op.apply v w = .ok (.num (.ofInt z))) ∧
    (op.apply v w = .error .divisionByZero ↔ op = .div ∧ y = 0) ∧
    (¬(op = .div ∧ y = 0) → (∀ z, op.Exact x y z → fitsInt64 z = false) →
      ∃ a b d, a.equal (ofInt x) = true ∧ b.equal (ofInt y) = true ∧ op.double? a b = some d ∧
        op.apply v w = .ok (.num (.real d))) := by
  by_cases hz : op = .div ∧ y = 0
  · obtain ⟨rfl, rfl⟩ := hz
    refine ⟨fun z hexact _ => absurd rfl hexact.1, ?_, fun hz => absurd ⟨rfl, rfl⟩ hz⟩
    simp [apply, hv, hw]
  · cases hints : op.onInts? x y with
    | some i =>
      have happly : op.apply v w = .ok (.num (.ofInt i)) := by
        simp only [apply, hv, hw, if_neg hz, hints]
      obtain ⟨hexact, hfits⟩ := onInts?_eq_some_iff.mp hints
      rw [happly]
      refine ⟨fun z hz' hfits' => ?_, by simp [hz], fun _ hnone => ?_⟩
      · obtain rfl := Option.some.inj (hints.symm.trans (onInts?_eq_some_iff.mpr ⟨hz', hfits'⟩))
        rfl
      · rw [hnone i hexact] at hfits
        cases hfits
    | none =>
      obtain ⟨a, b, d, ha, hb, hd, hresult⟩ := inexact_int64 hv hw hz
      have happly : op.apply v w = op.inexact v w := by
        simp only [apply, hv, hw, if_neg hz, hints]
      rw [happly]
      refine ⟨fun z hz' hfits' => ?_, by simp [hresult, hz],
        fun _ _ => ⟨a, b, d, ha, hb, hd, hresult⟩⟩
      have := onInts?_eq_some_iff.mpr ⟨hz', hfits'⟩
      rw [hints] at this
      cases this

/-- The least number that fits a signed word, divided by minus one. -/
theorem apply_int64_exact_least :
    let least : Json := .num (.ofInt (-0x8000000000000000))
    let minusOne : Json := .str " -1 "
    least.int64? = some (-0x8000000000000000) ∧ minusOne.int64? = some (-1) ∧
      ∃ d, ArithOp.div.apply least minusOne = .ok (.num (.real d)) := by
  intro least minusOne
  have hleast : least.int64? = some (-0x8000000000000000) := by decide +kernel
  have hminusOne : minusOne.int64? = some (-1) := by decide +kernel
  obtain ⟨-, -, hinexact⟩ := apply_int64_exact hleast hminusOne .div
  have hnone : ∀ z, ArithOp.div.Exact (-0x8000000000000000) (-1) z → fitsInt64 z = false := by
    rintro z ⟨-, hz⟩
    obtain rfl : z = 0x8000000000000000 := by omega
    decide
  obtain ⟨-, -, d, -, -, -, hd⟩ := hinexact (by decide) hnone
  exact ⟨hleast, hminusOne, d, hd⟩

end ArithOp

end Bylaw
