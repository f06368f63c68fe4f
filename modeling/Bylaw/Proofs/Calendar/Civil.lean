import Bylaw.Calendar
import Mathlib.Tactic.Common
import Mathlib.Tactic.IntervalCases
import Mathlib.Tactic.Ring

/-! The civil calendar, day by day. Main statements: day numbers and the days of the calendar stand
for each other, and the number of the next day is the next number. -/

namespace Bylaw.Date

/-- The number of the first of March of a year, but for the start of the count. -/
def yearStart (year : Int) : Int := 365 * year + year / 4 - year / 100 + year / 400

/-- The last day of a leap year that ends with February is the last of its 366 days. -/
theorem yearStart_succ (year : Int) :
    yearStart (year + 1) = yearStart year + if isLeapYear (year + 1) then 366 else 365 := by
  unfold yearStart isLeapYear
  simp only [Bool.and_eq_true, Bool.or_eq_true, beq_iff_eq, bne_iff_ne]
  split <;> omega

theorem yearStart_lt {y y' : Int} (h : y < y') : yearStart (y + 1) ≤ yearStart y' := by
  unfold yearStart
  omega

/-- Months but February, counted from March, have the days that lie between them and the next. -/
theorem daysInMonth_eq (year : Int) {month : Int} (hpos : 1 ≤ month) (hle : month ≤ 12)
    (hm : month ≠ 2) :
    daysInMonth year month = daysBefore ((month + 9) % 12 + 1) - daysBefore ((month + 9) % 12) := by
  interval_cases month
  case «2» => exact absurd rfl hm
  all_goals rfl

theorem dayOfCivil_eq (year month day : Int) :
    dayOfCivil year month day = yearStart (if month ≤ 2 then year - 1 else year) +
      (daysBefore ((month + 9) % 12) + day - 1) - epochShift := by
  unfold dayOfCivil yearStart
  simp only
  omega

theorem dayOfCivil_month (year : Int) {month : Int} (hpos : 1 ≤ month) (hlt : month < 12) :
    dayOfCivil year (month + 1) 1 = dayOfCivil year month (daysInMonth year month) + 1 := by
  rw [dayOfCivil_eq, dayOfCivil_eq]
  by_cases hm : month = 2
  · subst hm
    have hsucc := yearStart_succ (year - 1)
    rw [Int.sub_add_cancel] at hsucc
    unfold daysInMonth daysBefore
    simp only [if_true]
    split_ifs at hsucc ⊢ <;> omega
  · rw [daysInMonth_eq year hpos hlt.le hm]
    have hnext : (month + 1 + 9) % 12 = (month + 9) % 12 + 1 := by omega
    rw [hnext]
    split_ifs <;> omega

theorem dayOfCivil_year (year : Int) : dayOfCivil (year + 1) 1 1 = dayOfCivil year 12 31 + 1 := by
  unfold dayOfCivil daysBefore
  simp only
  omega

namespace Civil

/-- A day that the calendar has. -/
structure IsDay (c : Civil) : Prop where
  month_pos : 1 ≤ c.month
  month_le : c.month ≤ 12
  day_pos : 1 ≤ c.day
  day_le : c.day ≤ daysInMonth c.year c.month

def number (c : Civil) : Int := dayOfCivil c.year c.month c.day

/-- The year of the calculation, which begins in March. -/
def marchYear (c : Civil) : Int := if c.month ≤ 2 then c.year - 1 else c.year

/-- The months since March. -/
def fromMarch (c : Civil) : Int := (c.month + 9) % 12

/-- The days since the first of March. -/
def ofYear (c : Civil) : Int := daysBefore c.fromMarch + c.day - 1

theorem number_eq (c : Civil) : c.number = yearStart c.marchYear + c.ofYear - epochShift := by
  rw [number, dayOfCivil_eq]
  rfl

section

variable {c c' : Civil}

theorem IsDay.fromMarch_bounds (h : c.IsDay) : 0 ≤ c.fromMarch ∧ c.fromMarch ≤ 11 ∧
    (c.month = 2 ↔ c.fromMarch = 11) := by
  have := h.month_pos
  have := h.month_le
  unfold fromMarch
  omega

/-- The days of a month lie before those of the next, and those of February are the last. -/
theorem IsDay.ofYear_bounds (h : c.IsDay) :
    daysBefore c.fromMarch ≤ c.ofYear ∧ c.ofYear < daysBefore (c.fromMarch + 1) ∧
      yearStart c.marchYear + c.ofYear < yearStart (c.marchYear + 1) := by
  obtain ⟨hlow, hhigh, hfebruary⟩ := h.fromMarch_bounds
  have hpos := h.day_pos
  have hle := h.day_le
  have hsucc := yearStart_succ c.marchYear
  by_cases hm : c.month = 2
  · have hyear : c.marchYear + 1 = c.year := by
      unfold marchYear
      omega
    rw [daysInMonth, if_pos hm, ← hyear] at hle
    unfold ofYear daysBefore
    split_ifs at hle hsucc <;> omega
  · have hlength := daysInMonth_eq c.year h.month_pos h.month_le hm
    rw [hlength, ← fromMarch.eq_1] at hle
    unfold ofYear daysBefore at *
    split_ifs at hsucc <;> omega

theorem marchYear_unique {y y' k k' : Int} (hk : 0 ≤ k) (hk' : 0 ≤ k')
    (h : yearStart y + k < yearStart (y + 1)) (h' : yearStart y' + k' < yearStart (y' + 1))
    (heq : yearStart y + k = yearStart y' + k') : y = y' := by
  rcases Int.lt_trichotomy y y' with hlt | rfl | hgt
  · have := yearStart_lt hlt
    omega
  · rfl
  · have := yearStart_lt hgt
    omega

theorem IsDay.eq_of_number (h : c.IsDay) (h' : c'.IsDay) (heq : c.number = c'.number) : c = c' := by
  obtain ⟨hlow, hhigh, hyear⟩ := h.ofYear_bounds
  obtain ⟨hlow', hhigh', hyear'⟩ := h'.ofYear_bounds
  obtain ⟨hzero, -, -⟩ := h.fromMarch_bounds
  obtain ⟨hzero', -, -⟩ := h'.fromMarch_bounds
  rw [number_eq, number_eq] at heq
  -- Year, then day of the year, then month, then day of the month are told one from the other.
  have hy : c.marchYear = c'.marchYear := by
    refine marchYear_unique ?_ ?_ hyear hyear' (by omega)
    · unfold daysBefore at *
      omega
    · unfold daysBefore at *
      omega
  have hk : c.ofYear = c'.ofYear := by
    rw [hy] at heq
    omega
  have hf : c.fromMarch = c'.fromMarch := by
    unfold daysBefore at *
    omega
  have hm : c.month = c'.month := by
    have := h.month_pos
    have := h.month_le
    have := h'.month_pos
    have := h'.month_le
    unfold fromMarch at hf
    omega
  have hd : c.day = c'.day := by
    unfold ofYear at hk
    rw [hf] at hk
    omega
  have hyears : c.year = c'.year := by
    unfold marchYear at hy
    rw [hm] at hy
    split_ifs at hy <;> omega
  cases c
  cases c'
  simp_all

end

/-- The next day of the calendar. -/
def next (c : Civil) : Civil :=
  if c.day < daysInMonth c.year c.month then ⟨c.year, c.month, c.day + 1⟩
  else if c.month < 12 then ⟨c.year, c.month + 1, 1⟩
  else ⟨c.year + 1, 1, 1⟩

/-- The day of the calendar before. -/
def previous (c : Civil) : Civil :=
  if 1 < c.day then ⟨c.year, c.month, c.day - 1⟩
  else if 1 < c.month then ⟨c.year, c.month - 1, daysInMonth c.year (c.month - 1)⟩
  else ⟨c.year - 1, 12, 31⟩

/-- The day of the calendar that a number of days leads to, one day after the other. -/
def shifted (c : Civil) : Int → Civil
  | .ofNat n => next^[n] c
  | .negSucc n => previous^[n + 1] c

theorem one_le_daysInMonth (year month : Int) : 1 ≤ daysInMonth year month := by
  unfold daysInMonth
  split_ifs <;> omega

theorem daysInMonth_december (year : Int) : daysInMonth year 12 = 31 := rfl

theorem IsDay.next {c : Civil} (h : c.IsDay) : c.next.IsDay ∧ c.next.number = c.number + 1 := by
  obtain ⟨hmonth, hmonth', hday, hday'⟩ := h
  unfold Civil.next number
  split_ifs with hlt hlt'
  · exact ⟨⟨hmonth, hmonth', by simp only; omega, hlt⟩, by simp only [dayOfCivil_eq]; omega⟩
  · have hlast : c.day = daysInMonth c.year c.month := by omega
    refine ⟨⟨by simp only; omega, by simp only; omega, le_refl 1, one_le_daysInMonth _ _⟩, ?_⟩
    rw [hlast]
    exact dayOfCivil_month c.year hmonth hlt'
  · have hdecember : c.month = 12 := by omega
    have hlast : c.day = 31 := by
      rw [hdecember, daysInMonth_december] at hday' hlt
      omega
    refine ⟨⟨le_refl 1, by simp only; omega, le_refl 1, one_le_daysInMonth _ _⟩, ?_⟩
    rw [hdecember, hlast]
    exact dayOfCivil_year c.year

theorem IsDay.previous {c : Civil} (h : c.IsDay) :
    c.previous.IsDay ∧ c.previous.number = c.number - 1 := by
  obtain ⟨hmonth, hmonth', hday, hday'⟩ := h
  unfold Civil.previous number
  split_ifs with hlt hlt'
  · refine ⟨⟨hmonth, hmonth', by simp only; omega, by simp only; omega⟩, ?_⟩
    simp only [dayOfCivil_eq]
    omega
  · have hfirst : c.day = 1 := by omega
    refine ⟨⟨by simp only; omega, by simp only; omega, one_le_daysInMonth _ _, le_refl _⟩, ?_⟩
    have hstep := @dayOfCivil_month c.year (c.month - 1) (by omega) (by omega)
    rw [Int.sub_add_cancel] at hstep
    rw [hfirst, hstep, Int.add_sub_cancel]
  · have hjanuary : c.month = 1 := by omega
    have hfirst : c.day = 1 := by omega
    refine ⟨⟨by simp only; omega, le_refl 12, by simp only; omega, le_refl 31⟩, ?_⟩
    have hstep := dayOfCivil_year (c.year - 1)
    rw [Int.sub_add_cancel] at hstep
    rw [hjanuary, hfirst, hstep, Int.add_sub_cancel]

theorem IsDay.iterate {step : Civil → Civil} {days : Int}
    (hstep : ∀ c : Civil, c.IsDay → (step c).IsDay ∧ (step c).number = c.number + days)
    {c : Civil} (h : c.IsDay) (n : Nat) :
    (step^[n] c).IsDay ∧ (step^[n] c).number = c.number + n * days := by
  induction n with
  | zero => exact ⟨h, by simp⟩
  | succ n ih =>
    obtain ⟨hday, hnumber⟩ := hstep _ ih.1
    rw [Function.iterate_succ_apply']
    refine ⟨hday, ?_⟩
    rw [hnumber, ih.2]
    push_cast
    ring

/-- A day that is some days away has the number that is as far away. -/
theorem IsDay.shifted {c : Civil} (h : c.IsDay) (days : Int) :
    (c.shifted days).IsDay ∧ (c.shifted days).number = c.number + days := by
  cases days with
  | ofNat n =>
    obtain ⟨hday, hnumber⟩ := IsDay.iterate (fun _ => IsDay.next) h n
    exact ⟨hday, hnumber.trans (by simp)⟩
  | negSucc n =>
    obtain ⟨hday, hnumber⟩ := IsDay.iterate (fun _ => IsDay.previous) h (n + 1)
    refine ⟨hday, hnumber.trans ?_⟩
    rw [Int.negSucc_eq]
    push_cast
    ring

end Civil

open Civil

/-- Where a year begins that is told by its era, century, span of four years and place in it. -/
theorem yearStart_parts {era century span single : Int} (hc : 0 ≤ century ∧ century ≤ 3)
    (hs : 0 ≤ span ∧ span ≤ 24) (hi : 0 ≤ single ∧ single ≤ 3) :
    yearStart (era * 400 + century * 100 + span * 4 + single) =
      era * 146097 + century * 36524 + span * 1461 + single * 365 := by
  have hfour : (era * 400 + century * 100 + span * 4 + single) / 4 =
      era * 100 + century * 25 + span := by omega
  have hhundred : (era * 400 + century * 100 + span * 4 + single) / 100 = era * 4 + century := by
    omega
  have hall : (era * 400 + century * 100 + span * 4 + single) / 400 = era := by omega
  rw [yearStart, hfour, hhundred, hall]
  ring

/-- The parts of a day of an era. Only the last century and the last year of a span have one day
more. -/
structure EraParts (ofEra century span single ofYear : Int) : Prop where
  century_bounds : 0 ≤ century ∧ century ≤ 3
  span_bounds : 0 ≤ span ∧ span ≤ 24
  single_bounds : 0 ≤ single ∧ single ≤ 3
  ofYear_bounds : 0 ≤ ofYear ∧ ofYear ≤ 365
  sum : ofEra = century * 36524 + span * 1461 + single * 365 + ofYear
  leap : ofYear = 365 → single = 3 ∧ (span = 24 → century = 3)

theorem eraParts {ofEra : Int} (h : 0 ≤ ofEra) (h' : ofEra < 146097) {century ofCentury : Int}
    (hcentury : century = min 3 (ofEra / 36524)) (hofCentury : ofCentury = ofEra - century * 36524)
    {single : Int} (hsingle : single = min 3 (ofCentury % 1461 / 365)) :
    EraParts ofEra century (ofCentury / 1461) single (ofCentury % 1461 - single * 365) := by
  have hc : 0 ≤ century ∧ century ≤ 3 ∧ 0 ≤ ofCentury ∧ ofCentury ≤ 36524 ∧
      (ofCentury = 36524 → century = 3) := by omega
  have hspan : 0 ≤ ofCentury / 1461 ∧ ofCentury / 1461 ≤ 24 := by omega
  have hsplit := Int.mul_ediv_add_emod ofCentury 1461
  have hmod : 0 ≤ ofCentury % 1461 ∧ ofCentury % 1461 < 1461 := by omega
  generalize ofCentury / 1461 = span at hspan hsplit ⊢
  generalize ofCentury % 1461 = ofSpan at hsplit hmod hsingle ⊢
  have hi : 0 ≤ single ∧ single ≤ 3 := by omega
  constructor <;> omega

theorem EraParts.succ {era ofEra century span single ofYear : Int}
    (h : EraParts ofEra century span single ofYear) :
    yearStart (era * 400 + century * 100 + span * 4 + single) + ofYear <
      yearStart (era * 400 + century * 100 + span * 4 + single + 1) := by
  obtain ⟨hc, hs, hi, hk, -, hleap⟩ := h
  rw [yearStart_succ]
  split
  · omega
  · rename_i hnot
    simp only [isLeapYear, Bool.and_eq_true, Bool.or_eq_true, beq_iff_eq, bne_iff_ne] at hnot
    omega

/-- A day number is that of a day since the first of March of a year. -/
theorem civilOfDay_parts (day : Int) :
    ∃ year ofYear : Int, day + epochShift = yearStart year + ofYear ∧ 0 ≤ ofYear ∧
      yearStart year + ofYear < yearStart (year + 1) ∧
      civilOfDay day =
        ⟨if (if (5 * ofYear + 2) / 153 < 10 then (5 * ofYear + 2) / 153 + 3
            else (5 * ofYear + 2) / 153 - 9) ≤ 2 then year + 1 else year,
          if (5 * ofYear + 2) / 153 < 10 then (5 * ofYear + 2) / 153 + 3
          else (5 * ofYear + 2) / 153 - 9,
          ofYear - daysBefore ((5 * ofYear + 2) / 153) + 1⟩ := by
  have hparts := eraParts (Int.emod_nonneg (day + epochShift) (by decide))
    (Int.emod_lt_of_pos (day + epochShift) (by decide)) rfl rfl rfl
  refine ⟨_, _, ?_, hparts.ofYear_bounds.1, hparts.succ, rfl⟩
  rw [yearStart_parts hparts.century_bounds hparts.span_bounds hparts.single_bounds]
  have hsum := hparts.sum
  omega

theorem civilOfDay_isDay (day : Int) : (civilOfDay day).IsDay ∧ (civilOfDay day).number = day := by
  obtain ⟨year, ofYear, hday, hpos, hlt, hcivil⟩ := civilOfDay_parts day
  have hsucc := yearStart_succ year
  have hmonths : 0 ≤ (5 * ofYear + 2) / 153 ∧ (5 * ofYear + 2) / 153 ≤ 11 := by
    split at hsucc <;> omega
  have hlow : daysBefore ((5 * ofYear + 2) / 153) ≤ ofYear := by
    unfold daysBefore
    omega
  have hhigh : ofYear < daysBefore ((5 * ofYear + 2) / 153 + 1) := by
    unfold daysBefore
    omega
  -- From here on only the bounds of the month count, and not how it was found.
  generalize (5 * ofYear + 2) / 153 = months at hcivil hmonths hlow hhigh
  generalize hmonth : (if months < 10 then months + 3 else months - 9) = month at hcivil
  have hback : (month + 9) % 12 = months := by omega
  have hmonth_bounds : 1 ≤ month ∧ month ≤ 12 := by omega
  have hmarch : (if month ≤ 2 then (if month ≤ 2 then year + 1 else year) - 1
      else if month ≤ 2 then year + 1 else year) = year := by
    split_ifs <;> omega
  rw [hcivil]
  refine ⟨⟨hmonth_bounds.1, hmonth_bounds.2, by simp only; omega, ?_⟩, ?_⟩
  · simp only
    -- February is the last month of these years, and ends with them.
    by_cases hfebruary : month = 2
    · obtain rfl : months = 11 := by omega
      rw [daysInMonth, if_pos hfebruary, if_pos (show month ≤ 2 by omega)]
      unfold daysBefore
      split_ifs at hsucc ⊢ <;> omega
    · rw [daysInMonth_eq _ hmonth_bounds.1 hmonth_bounds.2 hfebruary, hback]
      omega
  · rw [number, dayOfCivil_eq]
    simp only [hmarch, hback]
    omega

theorem civilOfDay_number {c : Civil} (h : c.IsDay) : civilOfDay c.number = c :=
  have hday := civilOfDay_isDay c.number
  hday.1.eq_of_number h hday.2

end Bylaw.Date
