import Bylaw.Proofs.Arithmetic.Integers
import Bylaw.Proofs.Calendar.Writing
import Bylaw.Proofs.Condition.Order

/-! Arithmetic on dates. Main statement: days are added to a date by going through the calendar, the
days are taken back and found again, and more days lead to a later date. -/

namespace Bylaw

open Date (Civil)

/-- The string of a day. -/
def Date.Civil.value (c : Civil) : Json := .str (.ofList c.text)

namespace Json

theorem date?_value {c : Civil} (h : c.IsWritten) : c.value.date? = some (c.date h) := by
  rw [Civil.value, date?, String.toList_ofList, Civil.readLeading?_text h]

theorem ofDate_date {c : Civil} (h : c.IsWritten) : ofDate (c.date h) = c.value := by
  rw [ofDate, Civil.text_date h, Civil.value]

theorem int64?_of_date? {v : Json} {d : Date} (h : v.date? = some d) : v.int64? = none := by
  cases hi : v.int64? with
  | none => rfl
  | some i =>
    obtain ⟨-, x, hx, -⟩ := double?_of_int64? hi
    rw [double?_of_date? h] at hx
    cases hx

end Json

/-- Days that lead to a day of the years 0 to 9999 lead to its date. -/
theorem shiftDate_number {c c' : Civil} (h : c.IsWritten) (h' : c'.IsWritten) {days : Int}
    (hdays : c'.number = c.number + days) :
    (shiftDate (c.date h) days).map Json.ofDate = .ok c'.value := by
  have hshift : (c.date h).shift? days = some (c'.date h') := by
    rw [← Civil.ofDay?_number h', hdays]
    rfl
  rw [shiftDate, hshift]
  exact congrArg Except.ok (Json.ofDate_date h')

namespace ArithOp

theorem apply_of_date {v w : Json} {d : Date} (h : v.date? = some d) (op : ArithOp) :
    op.apply v w =
      match op.onDate? d w with
      | some result => result
      | none => op.onTexts v w := by
  have hinexact : op.inexact v w =
      match op.onDate? d w with
      | some result => result
      | none => op.onTexts v w := by
    rw [inexact, Json.double?_of_date? h, h]
    rfl
  rw [apply, Json.int64?_of_date? h]
  exact hinexact

variable {c c' : Civil} {w : Json} {n : Int}

theorem add_days (h : c.IsWritten) (h' : c'.IsWritten) (hw : w.int64? = some n)
    (hn : c'.number = c.number + n) : ArithOp.add.apply c.value w = .ok c'.value := by
  have hdays : ArithOp.add.onDate? (c.date h) w =
      some ((shiftDate (c.date h) n).map Json.ofDate) := by
    simp only [onDate?, hw]
  rw [apply_of_date (Json.date?_value h), hdays]
  exact shiftDate_number h h' hn

theorem sub_days (h : c.IsWritten) (h' : c'.IsWritten) (hw : w.int64? = some n)
    (hn : c'.number = c.number - n) : ArithOp.sub.apply c.value w = .ok c'.value := by
  have hfits : fitsInt64 (-n) = true := by
    have := h.number_bounds
    have := h'.number_bounds
    simp only [fitsInt64, Bool.and_eq_true, decide_eq_true_eq]
    omega
  have hdays : ArithOp.sub.onDate? (c.date h) w =
      some ((shiftDate (c.date h) (-n)).map Json.ofDate) := by
    simp only [onDate?, hw, hfits, if_true]
  rw [apply_of_date (Json.date?_value h), hdays]
  exact shiftDate_number h h' (by omega)

theorem sub_dates (h : c.IsWritten) (h' : c'.IsWritten) :
    ArithOp.sub.apply c.value c'.value = .ok (.num (.ofInt (c.number - c'.number))) := by
  have hdate := Json.date?_value h'
  have hdays : ArithOp.sub.onDate? (c.date h) c'.value =
      some (.ok (.num (.ofInt (c.number - c'.number)))) := by
    simp only [onDate?, Json.int64?_of_date? hdate, hdate, Civil.date]
  rw [apply_of_date (Json.date?_value h), hdays]

end ArithOp

namespace Clause

/-- Days are compared by their numbers. -/
theorem holds_lt_days {c c' : Civil} (h : c.IsWritten) (h' : c'.IsWritten)
    (hlt : c.number < c'.number) {scope : Scope} {l r : Operand}
    (hl : l.resolve scope = .ok (some c.value)) (hr : r.resolve scope = .ok (some c'.value)) :
    (compare l .lt r).holds scope = true := by
  have hordered := Json.Ordered.dates (Json.date?_value h) (Json.date?_value h')
  rw [holds_of_ordered hl hr hordered .lt rfl]
  exact beq_iff_eq.mpr (compare_lt_iff_lt.mpr hlt)

end Clause

namespace ArithOp

open Date.Civil (FourDigits)

/-- A day of the years 0 to 9999, and a number of days that leads to such a year through the
calendar. Added to the date they give the date of the day that they lead to, from which they can be
taken back, and which the date can be taken from to find them; and if more days lead to such a year
too, they lead to a later date. -/
theorem apply_days_invertible {c : Civil} (h : c.IsWritten) {w : Json} {n : Int}
    (hw : w.int64? = some n) (hn : FourDigits (c.shifted n).year) :
    ArithOp.add.apply c.value w = .ok (c.shifted n).value ∧
    ArithOp.sub.apply (c.shifted n).value w = .ok c.value ∧
    ArithOp.sub.apply (c.shifted n).value c.value = .ok (.num (.ofInt n)) ∧
    ∀ m, n < m → FourDigits (c.shifted m).year → ∀ scope l r,
      l.resolve scope = .ok (some (c.shifted n).value) →
      r.resolve scope = .ok (some (c.shifted m).value) →
      (Clause.compare l .lt r).holds scope = true := by
  have hshifted (days : Int) (hyear : FourDigits (c.shifted days).year) :
      (c.shifted days).IsWritten := ⟨(h.toIsDay.shifted days).1, hyear⟩
  have hnumber := (h.toIsDay.shifted n).2
  refine ⟨add_days h (hshifted n hn) hw hnumber, sub_days (hshifted n hn) h hw (by omega), ?_, ?_⟩
  · rw [sub_dates (hshifted n hn) h, hnumber, add_sub_cancel_left]
  · intro m hlt hm scope l r hl hr
    refine Clause.holds_lt_days (hshifted n hn) (hshifted m hm) ?_ hl hr
    rw [hnumber, (h.toIsDay.shifted m).2]
    omega

/-- The last of February of a century year that is a leap year, and the day after. -/
theorem apply_days_invertible_leap :
    let c : Civil := ⟨2000, 2, 29⟩
    let one : Json := .num (.ofInt 1)
    c.IsWritten ∧ one.int64? = some 1 ∧ FourDigits (c.shifted 1).year ∧ c.shifted 1 = ⟨2000, 3, 1⟩ ∧
      ArithOp.add.apply c.value one = .ok (c.shifted 1).value ∧
      ArithOp.sub.apply (c.shifted 1).value one = .ok c.value ∧
      ArithOp.sub.apply (c.shifted 1).value c.value = .ok (.num (.ofInt 1)) ∧
      (Clause.compare (.literal (c.shifted 1).value) .lt (.literal (c.shifted 366).value)).holds
        ⟨.null, {}, Clause.leapDay⟩ = true := by
  intro c one
  have hc : c.IsWritten := ⟨⟨by decide, by decide, by decide, by decide⟩, by decide, by decide⟩
  have hone : one.int64? = some 1 := by decide
  have hyear : FourDigits (c.shifted 1).year := ⟨by decide, by decide⟩
  have hlater : FourDigits (c.shifted 366).year := ⟨by decide +kernel, by decide +kernel⟩
  obtain ⟨hadd, hsub, hdifference, hlt⟩ := apply_days_invertible hc hone hyear
  exact ⟨hc, hone, hyear, by decide, hadd, hsub, hdifference,
    hlt 366 (by decide) hlater _ _ _ rfl rfl⟩

end ArithOp

end Bylaw
