import Bylaw.Proofs.Arithmetic.Dates
import Bylaw.Proofs.Calendar.Order

/-! Comparisons with today's date, moved by a number of days. Main statement: a date in a record is
compared with it in the order of the calendar if the year that the days lead to has four digits; if
it has not, no such comparison holds. -/

namespace Bylaw

open Date (Civil)
open Date.Civil (FourDigits)

theorem day_of_shiftDate {today shifted : Date} {days : Int}
    (h : shiftDate today days = .ok shifted) : shifted.day = today.day + days := by
  unfold shiftDate Date.shift? Date.ofDay? at h
  split at h
  · rename_i heq
    split at heq
    · rw [← Except.ok.inj h, ← Option.some.inj heq]
    · cases heq
  · cases h

/-- Today moved by days is the day of the calendar that they lead to. -/
theorem civil_of_shiftDate {today : Civil} (ht : today.IsWritten) {shifted : Date} {days : Int}
    (h : shiftDate (today.date ht) days = .ok shifted) : shifted.civil = today.shifted days := by
  obtain ⟨hday, hnumber⟩ := ht.toIsDay.shifted days
  exact Date.civil_of_day hday ((day_of_shiftDate h).trans hnumber.symm)

namespace Json

/-- The string of a date is that date if its year has four digits, and no date otherwise. -/
theorem date?_ofDate (d : Date) :
    (ofDate d).date? = if FourDigits d.civil.year then some d else none := by
  rw [ofDate, date?, String.toList_ofList, Date.readLeading?_text]

theorem not_ordered_ofDate {v : Json} {c d : Date} (hv : v.date? = some c)
    (hd : ¬FourDigits d.civil.year) (o : Ordering) : ¬Ordered v (ofDate d) o := by
  intro h
  cases h with
  | numbers left _ =>
    rw [double?_of_date? hv] at left
    cases left
  | dates _ right =>
    rw [date?_ofDate, if_neg hd] at right
    cases right

end Json

namespace Clause

variable {scope : Scope} {l : Operand} {op : Comparator} {c : Civil} {n : Int} {shifted : Date}

/-- A day is compared with a date by their numbers, if the year of the date has four digits. -/
theorem holds_today_iff (hl : l.resolve scope = .ok (some c.value)) (hc : c.IsWritten)
    (hn : shiftDate scope.today n = .ok shifted) (hop : op.asksOrder = true) :
    (compare l op (.today n)).holds scope = true ↔
      FourDigits shifted.civil.year ∧ op.accepts (Ord.compare c.number shifted.day) = true := by
  have hr : (Operand.today n).resolve scope = .ok (some (.ofDate shifted)) := by
    rw [Operand.resolve, hn]
  have hdate := Json.date?_value hc
  by_cases hyear : FourDigits shifted.civil.year
  · have hread : (Json.ofDate shifted).date? = some shifted := by
      rw [Json.date?_ofDate, if_pos hyear]
    rw [holds_of_ordered hl hr (.dates hdate hread) op hop, and_iff_right hyear]
    rfl
  · refine iff_of_false (fun h => ?_) fun h => hyear h.1
    rw [holds_iff, evaluate_of_values hl hr, compareValues_eq_ok_iff hop] at h
    obtain ⟨o, ho, -⟩ := h
    exact Json.not_ordered_ofDate hdate hyear o ho

/-- A day of the years 0 to 9999 in a record, and a number of days that today, a day of these years
too, can be moved by. The days lead to a day through the calendar. If its year has four digits, the
record's day is below it exactly if it comes before it, and at least it exactly if it does not; and
if its year has not, it is neither. -/
theorem compare_today_exact {today : Civil} (ht : today.IsWritten)
    (hs : scope.today = today.date ht) (hn : shiftDate scope.today n = .ok shifted)
    (hc : c.IsWritten) {f : FieldPath} (hf : f.lookup? scope.record = some c.value) :
    shifted.civil = today.shifted n ∧
      ((compare (.field f) .lt (.today n)).holds scope = true ↔
        FourDigits (today.shifted n).year ∧ c.Before (today.shifted n)) ∧
      ((compare (.field f) .ge (.today n)).holds scope = true ↔
        FourDigits (today.shifted n).year ∧ ¬c.Before (today.shifted n)) := by
  have hl : (Operand.field f).resolve scope = .ok (some c.value) := by
    rw [Operand.resolve, Scope.resolve?, hf]
  obtain ⟨hday, hnumber⟩ := ht.toIsDay.shifted n
  have hcivil : shifted.civil = today.shifted n := civil_of_shiftDate ht (hs ▸ hn)
  have hshifted : shifted.day = (today.shifted n).number := by
    rw [day_of_shiftDate hn, hs, hnumber]
    rfl
  refine ⟨hcivil, ?_, ?_⟩
  · rw [holds_today_iff hl hc hn rfl, hcivil, hshifted, ← hc.toIsDay.number_lt_iff hday,
      Comparator.accepts, beq_iff_eq, compare_lt_iff_lt]
  · rw [holds_today_iff hl hc hn rfl, hcivil, hshifted, ← hc.toIsDay.number_lt_iff hday,
      Comparator.accepts, bne_iff_ne, ne_eq, compare_lt_iff_lt]

/-- The field with the last day of a record. -/
def expiresAt : FieldPath := ⟨["expires"], by decide, by decide⟩

/-- The first of March, on the last of February, and moved by a day and by none. -/
theorem compare_today_exact_leap :
    let today : Civil := ⟨2024, 2, 29⟩
    let expires : Civil := ⟨2024, 3, 1⟩
    let scope : Scope := ⟨.obj [("expires", expires.value)], {}, leapDay⟩
    today.shifted 0 = today ∧ today.shifted 1 = expires ∧
      (compare (.field expiresAt) .ge (.today 0)).holds scope = true ∧
      (compare (.field expiresAt) .ge (.today 1)).holds scope = true ∧
      (compare (.field expiresAt) .lt (.today 2)).holds scope = true := by
  intro today expires scope
  have ht : today.IsWritten := ⟨⟨by decide, by decide, by decide, by decide⟩, by decide⟩
  have hexpires : expires.IsWritten := ⟨⟨by decide, by decide, by decide, by decide⟩, by decide⟩
  have hs : scope.today = today.date ht := rfl
  have hf : expiresAt.lookup? scope.record = some expires.value := rfl
  obtain ⟨-, -, hzero⟩ := compare_today_exact (n := 0) ht hs rfl hexpires hf
  obtain ⟨-, -, hone⟩ := compare_today_exact (n := 1) ht hs rfl hexpires hf
  obtain ⟨-, htwo, -⟩ := compare_today_exact (n := 2) ht hs rfl hexpires hf
  exact ⟨by decide, by decide, hzero.mpr (by decide), hone.mpr (by decide), htwo.mpr (by decide)⟩

/-- The last day of the year 9999. -/
def lastDay : Date := ⟨2932896, by decide, by decide⟩

/-- The last day of the year 9999 comes before the day after it, and is not below it. -/
theorem not_lt_of_five_digits :
    let today : Civil := ⟨9999, 12, 31⟩
    let scope : Scope := ⟨.obj [("expires", today.value)], {}, lastDay⟩
    today.IsWritten ∧ lastDay.civil = today ∧ expiresAt.lookup? scope.record = some today.value ∧
      (∃ shifted, shiftDate lastDay 1 = .ok shifted ∧ today.Before shifted.civil) ∧
      ¬(compare (.field expiresAt) .lt (.today 1)).holds scope = true := by
  intro today scope
  have htoday : today.IsWritten := ⟨⟨by decide, by decide, by decide, by decide⟩, by decide⟩
  have hf : expiresAt.lookup? scope.record = some today.value := rfl
  have hn : shiftDate lastDay 1 = .ok ⟨2932897, by decide, by decide⟩ := rfl
  refine ⟨htoday, by decide +kernel, hf, ⟨_, hn, by decide +kernel⟩, fun h => ?_⟩
  have hl : (Operand.field expiresAt).resolve scope = .ok (some today.value) := by
    rw [Operand.resolve, Scope.resolve?, hf]
  obtain ⟨hyear, -⟩ := (@holds_today_iff scope _ _ _ _ _ hl htoday hn rfl).mp h
  exact absurd hyear (by decide +kernel)

end Clause

end Bylaw
