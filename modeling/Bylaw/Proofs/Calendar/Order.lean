import Bylaw.Proofs.Calendar.Writing

/-! Days in the order of the calendar. Main statements: a day comes before another exactly if its
number is smaller, and the text of a date is read as that date if its year has four digits, and not
at all if it has not. -/

namespace Bylaw.Date

namespace Civil

/-- An earlier day: of an earlier year, or of an earlier month of the same year, or earlier in the
same month. -/
def Before (c c' : Civil) : Prop :=
  c.year < c'.year ∨
    c.year = c'.year ∧ (c.month < c'.month ∨ c.month = c'.month ∧ c.day < c'.day)

instance (c c' : Civil) : Decidable (c.Before c') :=
  inferInstanceAs (Decidable (_ ∨ _))

instance (year : Int) : Decidable (FourDigits year) :=
  inferInstanceAs (Decidable (0 ≤ year ∧ year ≤ 9999))

theorem before_trichotomy (c c' : Civil) : c.Before c' ∨ c = c' ∨ c'.Before c := by
  cases c
  cases c'
  simp only [Before, mk.injEq]
  omega

section

variable {c c' : Civil}

theorem IsDay.number_lt_of_marchYear (h : c.IsDay) (h' : c'.IsDay)
    (hy : c.marchYear < c'.marchYear) : c.number < c'.number := by
  obtain ⟨-, -, hend⟩ := h.ofYear_bounds
  obtain ⟨hstart, -, -⟩ := h'.ofYear_bounds
  obtain ⟨hpos, -, -⟩ := h'.fromMarch_bounds
  have hyears := yearStart_lt hy
  have hnonneg : 0 ≤ daysBefore c'.fromMarch := by
    unfold daysBefore
    omega
  rw [number_eq, number_eq]
  omega

theorem IsDay.number_lt_of_fromMarch (h : c.IsDay) (h' : c'.IsDay)
    (hy : c.marchYear = c'.marchYear) (hm : c.fromMarch < c'.fromMarch) :
    c.number < c'.number := by
  obtain ⟨-, hend, -⟩ := h.ofYear_bounds
  obtain ⟨hstart, -, -⟩ := h'.ofYear_bounds
  have hmonths : daysBefore (c.fromMarch + 1) ≤ daysBefore c'.fromMarch := by
    unfold daysBefore
    omega
  rw [number_eq, number_eq, hy]
  omega

theorem IsDay.number_lt_of_before (h : c.IsDay) (h' : c'.IsDay) (hb : c.Before c') :
    c.number < c'.number := by
  have hmonth := h.month_pos
  have hmonth' := h'.month_le
  by_cases hy : c.marchYear < c'.marchYear
  · exact h.number_lt_of_marchYear h' hy
  rcases hb with hyear | ⟨hyear, hearlier | ⟨hsame, hday⟩⟩
  · -- The later day is one of January or February, the last months of the calculation.
    have hlast : c.marchYear = c'.marchYear ∧ 2 < c.month ∧ c'.month ≤ 2 := by
      unfold marchYear at *
      split_ifs at * <;> omega
    have := h.month_le
    have := h'.month_pos
    refine h.number_lt_of_fromMarch h' hlast.1 ?_
    unfold fromMarch
    omega
  · have hmarch : c.marchYear = c'.marchYear ∧ (c.month ≤ 2 ↔ c'.month ≤ 2) := by
      unfold marchYear at *
      split_ifs at * <;> omega
    refine h.number_lt_of_fromMarch h' hmarch.1 ?_
    unfold fromMarch
    omega
  · rw [number, number, dayOfCivil_eq, dayOfCivil_eq, hyear, hsame]
    omega

theorem IsDay.number_lt_iff (h : c.IsDay) (h' : c'.IsDay) :
    c.number < c'.number ↔ c.Before c' := by
  refine ⟨fun hlt => ?_, h.number_lt_of_before h'⟩
  rcases before_trichotomy c c' with hb | rfl | hb
  · exact hb
  · exact absurd hlt (lt_irrefl _)
  · exact absurd hlt (h'.number_lt_of_before h hb).not_gt

end

end Civil

open Civil (FourDigits)

theorem isWritten_civil {d : Date} (h : FourDigits d.civil.year) : d.civil.IsWritten :=
  ⟨(civilOfDay_isDay d.day).1, h⟩

theorem date_civil {d : Date} (h : d.civil.IsWritten) : d.civil.date h = d := by
  obtain ⟨day, lower, upper⟩ := d
  simp only [Civil.date, mk.injEq]
  exact (civilOfDay_isDay day).2

/-- The days of the calendar are counted as dates are. -/
theorem civil_of_day {d : Date} {c : Civil} (hc : c.IsDay) (h : d.day = c.number) :
    d.civil = c := by
  rw [civil, h, civilOfDay_number hc]

theorem le_length_padded (width n : Nat) : width ≤ (padded width n).length := by
  rw [padded, List.length_append, List.length_replicate]
  omega

theorem mem_text {d : Date} {x : Char} (hx : x ∈ d.text) :
    x.isDigit = true ∨ x = '-' ∨ x = '+' := by
  have hyear {year : Int} (hx : x ∈ yearText year) : x.isDigit = true ∨ x = '-' ∨ x = '+' := by
    unfold yearText at hx
    split_ifs at hx
    · exact .inl (isDigit_of_mem_padded hx)
    · rcases List.mem_cons.mp hx with rfl | hx
      · exact .inr (.inl rfl)
      · exact .inl (isDigit_of_mem_padded hx)
    · rcases List.mem_cons.mp hx with rfl | hx
      · exact .inr (.inr rfl)
      · exact .inl (isDigit_of_mem_padded hx)
  simp only [text, List.mem_append, List.mem_cons] at hx
  rcases hx with hx | rfl | hx | rfl | hx
  · exact hyear hx
  · exact .inr (.inl rfl)
  · exact .inl (isDigit_of_mem_padded hx)
  · exact .inr (.inl rfl)
  · exact .inl (isDigit_of_mem_padded hx)

theorem length_text_of_not_fourDigits {d : Date} (h : ¬FourDigits d.civil.year) :
    10 < d.text.length := by
  have hyear := le_length_padded 4 d.civil.year.natAbs
  have hmonth := le_length_padded 2 d.civil.month.toNat
  have hday := le_length_padded 2 d.civil.day.toNat
  rw [text, yearText, if_neg (show ¬(0 ≤ d.civil.year ∧ d.civil.year ≤ 9999) from h)]
  simp only [List.length_append, List.length_cons]
  omega

/-- After ten characters of one byte there must be a time of day. -/
theorem readLeading?_of_long {cs : List Char} (hlength : 10 < cs.length)
    (h : ∀ c ∈ cs, c.utf8Size = 1 ∧ c ≠ 'T' ∧ c ≠ ' ') : readLeading? cs = none := by
  have hhead : (cs.take 10).length = 10 := List.length_take_of_le hlength.le
  obtain ⟨c, rest, hrest⟩ := List.exists_cons_of_length_pos (l := cs.drop 10)
    (by rw [List.length_drop]; omega)
  have hsplit := splitBytes_ascii (fun x (hx : x ∈ cs.take 10) => (h x (List.mem_of_mem_take hx)).1)
    (cs.drop 10)
  rw [hhead, List.take_append_drop, hrest] at hsplit
  obtain ⟨-, hT, hblank⟩ := h c (List.mem_of_mem_drop (hrest ▸ List.mem_cons_self))
  rw [readLeading?, hsplit]
  exact if_neg (not_or.mpr ⟨hT, hblank⟩)

/-- The text of a date is read as the date if its year has four digits, and otherwise not at all. -/
theorem readLeading?_text (d : Date) :
    readLeading? d.text = if FourDigits d.civil.year then some d else none := by
  split_ifs with h
  · have hw := isWritten_civil h
    have hread := Civil.readLeading?_text hw
    rwa [← Civil.text_date hw, date_civil hw] at hread
  · refine readLeading?_of_long (length_text_of_not_fourDigits h) fun c hc => ?_
    rcases mem_text hc with hdigit | rfl | rfl
    · refine ⟨utf8Size_of_isDigit hdigit, ?_, ?_⟩ <;> rintro rfl <;> cases hdigit
    · decide
    · decide

/-- The last day of the year 9999 and the day after. -/
example :
    (⟨2932896, by decide, by decide⟩ : Date).text = "9999-12-31".toList ∧
      (⟨2932897, by decide, by decide⟩ : Date).text = "+10000-01-01".toList ∧
      readLeading? "+10000-01-01".toList = none := by
  decide +kernel

end Bylaw.Date
