import Bylaw.Evaluation
import Bylaw.Proofs.Calendar.Civil
import Bylaw.Proofs.Text.Numeral
import Mathlib.Data.List.TakeWhile

/-! Days written as dates. Main statement: a day of the years 0 to 9999 that is written in digits is
read as the date of its number, and that date is written as the day. -/

namespace Bylaw.Date

open Decimal (digitChars ofDigitChars)

section

variable {width n : Nat}

theorem length_digitChars_le (hw : 0 < width) (hn : n < 10 ^ width) :
    (digitChars n).length ≤ width :=
  (Nat.length_toDigits_le_iff (by decide) hw).mpr hn

theorem length_padded (hw : 0 < width) (hn : n < 10 ^ width) : (padded width n).length = width := by
  have := length_digitChars_le hw hn
  rw [padded, List.length_append, List.length_replicate]
  omega

theorem isDigit_of_mem_padded {c : Char} (h : c ∈ padded width n) : c.isDigit = true := by
  rcases List.mem_append.mp h with h | h
  · rw [List.eq_of_mem_replicate h]
    rfl
  · exact Decimal.isDigit_of_mem_digitChars h

theorem ofDigitChars_padded : ofDigitChars (padded width n) = n := by
  rw [padded, Decimal.ofDigitChars_zeros_append, Decimal.ofDigitChars_digitChars]

/-- A number that is padded to a width is read back from as many digits. -/
theorem digitsUpTo_padded (hw : 0 < width) (hn : n < 10 ^ width) (rest : List Char) :
    digitsUpTo width (padded width n ++ rest) = some (n, rest) := by
  have hlength := length_padded hw hn
  have htake : (padded width n ++ rest).take width = padded width n := List.take_left' hlength
  have hdigits : (padded width n).takeWhile Char.isDigit = padded width n :=
    List.takeWhile_eq_self_iff.mpr fun c hc => isDigit_of_mem_padded hc
  have hne : (padded width n).isEmpty = false := by
    rw [List.isEmpty_eq_false_iff, ← List.length_pos_iff]
    omega
  rw [digitsUpTo, htake, hdigits]
  simp [hne, ofDigitChars_padded]

theorem exists_cons_padded (hw : 0 < width) (hn : n < 10 ^ width) :
    ∃ c cs, padded width n = c :: cs ∧ c.isDigit = true := by
  have hlength := length_padded hw hn
  obtain ⟨c, cs, hcs⟩ := List.exists_cons_of_length_pos (l := padded width n) (by omega)
  exact ⟨c, cs, hcs, isDigit_of_mem_padded (hcs ▸ List.mem_cons_self)⟩

theorem trimStart_padded (hw : 0 < width) (hn : n < 10 ^ width) (rest : List Char) :
    Text.trimStart (padded width n ++ rest) = padded width n ++ rest := by
  obtain ⟨c, cs, hcs, hc⟩ := exists_cons_padded hw hn
  have hblank := Text.isBlank_of_isNumberPart (Decimal.isNumberPart_of_isDigit hc)
  rw [hcs, List.cons_append, Text.trimStart, List.dropWhile_cons_of_neg (by simp [hblank])]

theorem partAt_padded (hn : n < 10 ^ 2) (rest : List Char) :
    partAt ('-' :: (padded 2 n ++ rest)) = some ((n : Int), rest) := by
  simp only [partAt, trimStart_padded (by decide) hn, digitsUpTo_padded (by decide) hn,
    Option.map_some]

theorem yearAt_padded (hn : n < 10 ^ 4) (rest : List Char) :
    yearAt (padded 4 n ++ rest) = some ((n : Int), rest) := by
  obtain ⟨c, cs, hcs, hc⟩ := @exists_cons_padded 4 n (by decide) hn
  have hread := digitsUpTo_padded (by decide) hn rest
  unfold yearAt
  rw [trimStart_padded (by decide) hn]
  rw [hcs, List.cons_append] at hread ⊢
  split
  -- A digit is no sign.
  · rename_i heq
    obtain ⟨rfl, -⟩ := List.cons.inj heq
    cases hc
  · rename_i heq
    obtain ⟨rfl, -⟩ := List.cons.inj heq
    cases hc
  · rw [hread, Option.map_some]

end

theorem splitBytes_ascii {cs : List Char} (h : ∀ c ∈ cs, c.utf8Size = 1) (rest : List Char) :
    splitBytes cs.length (cs ++ rest) = some (cs, rest) := by
  induction cs with
  | nil => simp [splitBytes]
  | cons c cs ih =>
    obtain ⟨hc, hcs⟩ := List.forall_mem_cons.mp h
    rw [List.length_cons, List.cons_append, splitBytes, hc]
    simp [ih hcs]

theorem utf8Size_of_isDigit {c : Char} (h : c.isDigit = true) : c.utf8Size = 1 := by
  simp only [Char.isDigit, Bool.and_eq_true, decide_eq_true_eq] at h
  exact Char.utf8Size_eq_one_iff.mpr (UInt32.le_trans h.2 (by decide))

namespace Civil

/-- A year that is written in four digits. -/
def FourDigits (year : Int) : Prop := 0 ≤ year ∧ year ≤ 9999

/-- A day of the years 0 to 9999. -/
structure IsWritten (c : Civil) : Prop extends c.IsDay where
  year_fourDigits : FourDigits c.year

/-- Four digits for the year, and two each for the month and the day. -/
def text (c : Civil) : List Char :=
  padded 4 c.year.toNat ++ '-' :: (padded 2 c.month.toNat ++ '-' :: padded 2 c.day.toNat)

section

variable {c : Civil}

theorem IsDay.day_le_31 (h : c.IsDay) : c.day ≤ 31 := by
  have := h.day_le
  unfold daysInMonth at this
  split_ifs at this <;> omega

theorem read?_text (h : c.IsWritten) : read? c.text = ofDay? c.number := by
  obtain ⟨hyear, hyear'⟩ := h.year_fourDigits
  have hmonth := h.month_pos
  have hmonth' := h.month_le
  have hday := h.day_pos
  have hday' := h.day_le_31
  have hlast := partAt_padded (n := c.day.toNat) (by omega) []
  rw [List.append_nil] at hlast
  have hvalid : 1 ≤ c.month ∧ c.month ≤ 12 ∧ 1 ≤ c.day ∧ c.day ≤ daysInMonth c.year c.month :=
    ⟨hmonth, hmonth', hday, h.day_le⟩
  have hyears : (c.year.toNat : Int) = c.year := by omega
  have hmonths : (c.month.toNat : Int) = c.month := by omega
  have hdays : (c.day.toNat : Int) = c.day := by omega
  simp only [read?, text, yearAt_padded (n := c.year.toNat) (by omega), Option.bind_eq_bind,
    Option.bind_some, partAt_padded (n := c.month.toNat) (by omega), hlast, List.isEmpty_nil,
    if_true, ofCivil?, hyears, hmonths, hdays, if_pos hvalid]
  rfl

theorem length_text (h : c.IsWritten) : c.text.length = 10 := by
  have hyear := h.year_fourDigits.2
  have hmonth := h.month_le
  have hday := h.day_le_31
  rw [text, List.length_append, List.length_cons, List.length_append, List.length_cons,
    length_padded (by decide) (by omega), length_padded (by decide) (by omega),
    length_padded (by decide) (by omega)]

theorem utf8Size_of_mem_text {x : Char} (hx : x ∈ c.text) : x.utf8Size = 1 := by
  have hpart : x.isDigit = true ∨ x = '-' := by
    simp only [text, List.mem_append, List.mem_cons] at hx
    rcases hx with hyear | hhyphen | hmonth | hhyphen | hday
    · exact .inl (isDigit_of_mem_padded hyear)
    · exact .inr hhyphen
    · exact .inl (isDigit_of_mem_padded hmonth)
    · exact .inr hhyphen
    · exact .inl (isDigit_of_mem_padded hday)
  rcases hpart with hdigit | rfl
  · exact utf8Size_of_isDigit hdigit
  · rfl

/-- These days are far inside the range of dates. -/
theorem IsWritten.number_bounds (h : c.IsWritten) : -1000000 ≤ c.number ∧ c.number ≤ 3000000 := by
  obtain ⟨hlow, hhigh, hlt⟩ := h.toIsDay.ofYear_bounds
  obtain ⟨hmonths, hmonths', -⟩ := h.toIsDay.fromMarch_bounds
  have hyear : -1 ≤ c.marchYear ∧ c.marchYear ≤ 9999 := by
    obtain ⟨hyear, hyear'⟩ := h.year_fourDigits
    unfold marchYear
    split <;> omega
  rw [number_eq]
  unfold yearStart daysBefore epochShift at *
  omega

/-- The date of a day. -/
def date (c : Civil) (h : c.IsWritten) : Date :=
  ⟨c.number, by have := h.number_bounds; omega, by have := h.number_bounds; omega⟩

theorem ofDay?_number (h : c.IsWritten) : ofDay? c.number = some (c.date h) := by
  obtain ⟨hlow, hhigh⟩ := h.number_bounds
  rw [ofDay?, dif_pos ⟨by omega, by omega⟩]
  rfl

theorem readLeading?_text (h : c.IsWritten) : readLeading? c.text = some (c.date h) := by
  have hsplit := splitBytes_ascii (fun x (hx : x ∈ c.text) => utf8Size_of_mem_text hx) []
  rw [length_text h, List.append_nil] at hsplit
  rw [readLeading?, hsplit]
  exact (read?_text h).trans (ofDay?_number h)

theorem text_date (h : c.IsWritten) : (c.date h).text = c.text := by
  have hcivil : (c.date h).civil = c := civilOfDay_number h.toIsDay
  rw [Date.text, hcivil, yearText, if_pos (show 0 ≤ c.year ∧ c.year ≤ 9999 from h.year_fourDigits)]
  rfl

end

end Civil

end Bylaw.Date
