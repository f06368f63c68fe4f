import Bylaw.Calendar
import Bylaw.Text.Numeral
import Bylaw.Proofs.Number.Numeral

/-! What a text that begins with a date looks like. Main statement: it is no numeral, so that no
text is both a number and a date. -/

namespace Bylaw

open Numeral (IsDigits)

/-- A text begins with a year and a hyphen: with digits, before which there may be a sign. -/
def BeginsWithYear (cs : List Char) : Prop :=
  ∃ sign digits rest : List Char, sign ∈ [[], ['-'], ['+']] ∧ IsDigits digits ∧
    cs = sign ++ digits ++ '-' :: rest

theorem BeginsWithYear.append {cs : List Char} (h : BeginsWithYear cs) (more : List Char) :
    BeginsWithYear (cs ++ more) := by
  obtain ⟨sign, digits, rest, hsign, hdigits, rfl⟩ := h
  exact ⟨sign, digits, rest ++ more, hsign, hdigits, by simp⟩

theorem BeginsWithYear.ne_nil {cs : List Char} (h : BeginsWithYear cs) : cs ≠ [] := by
  obtain ⟨sign, digits, rest, -, -, rfl⟩ := h
  simp

namespace Text

theorem dropWhile_append_cons {α : Type} {p : α → Bool} {x : α} (hx : p x = false)
    (front rest : List α) :
    ∃ kept, (front ++ x :: rest).dropWhile p = kept ++ x :: rest := by
  induction front with
  | nil => exact ⟨[], by simp [hx]⟩
  | cons c front ih =>
    by_cases hc : p c
    · obtain ⟨kept, hkept⟩ := ih
      exact ⟨kept, by simp [hc, hkept]⟩
    · exact ⟨c :: front, by simp [hc]⟩

theorem trimStart_append {cs : List Char} (h : trimStart cs ≠ []) (more : List Char) :
    trimStart (cs ++ more) = trimStart cs ++ more := by
  rw [trimStart] at h
  rw [trimStart, trimStart, List.dropWhile_append, if_neg (by simpa using h)]

/-- The hyphen after the year is not lost with the blanks at the end. -/
theorem beginsWithYear_trim {cs : List Char} (h : BeginsWithYear (trimStart cs)) :
    BeginsWithYear (trim cs) := by
  obtain ⟨sign, digits, rest, hsign, hdigits, hcs⟩ := h
  obtain ⟨kept, hkept⟩ := dropWhile_append_cons (p := isBlank) (x := '-') (by decide) rest.reverse
    (sign ++ digits).reverse
  refine ⟨sign, digits, kept.reverse, hsign, hdigits, ?_⟩
  have hreverse : (sign ++ digits ++ '-' :: rest).reverse =
      rest.reverse ++ '-' :: (sign ++ digits).reverse := by simp
  rw [trim, hcs, trimStart, hreverse, hkept]
  simp

/-- A numeral has no hyphen right after the digits that it begins with. -/
theorem decimalParts?_of_hyphen {digits : List Char} (hd : IsDigits digits) (rest : List Char) :
    decimalParts? (digits ++ '-' :: rest) = none := by
  have htake : (digits ++ '-' :: rest).takeWhile Char.isDigit = digits := by
    rw [List.takeWhile_append_of_pos hd.isDigit]
    simp
  have hdrop : (digits ++ '-' :: rest).dropWhile Char.isDigit = '-' :: rest := by
    rw [List.dropWhile_append_of_pos hd.isDigit]
    simp
  rw [decimalParts?, htake, hdrop]
  simp [hd.ne_nil]

theorem double?_of_beginsWithYear {cs : List Char} (h : BeginsWithYear cs) : double? cs = none := by
  obtain ⟨sign, digits, rest, hsign, hdigits, rfl⟩ := h
  have hparts := decimalParts?_of_hyphen hdigits rest
  simp only [List.mem_cons, List.not_mem_nil, or_false] at hsign
  rcases hsign with rfl | rfl | rfl
  · obtain ⟨c, digits, rfl⟩ := List.exists_cons_of_ne_nil hdigits.ne_nil
    have hc := hdigits.isDigit c List.mem_cons_self
    unfold double?
    split
    rename_i negative body hbody
    split at hbody
    -- A digit is no sign.
    · rename_i heq
      obtain ⟨rfl, -⟩ := List.cons.inj heq
      cases hc
    · rename_i heq
      obtain ⟨rfl, -⟩ := List.cons.inj heq
      cases hc
    · obtain ⟨-, rfl⟩ := Prod.mk.inj hbody
      rw [List.nil_append, hparts, Option.bind_none]
  all_goals simp [double?, hparts]

end Text

namespace Date

theorem splitBytes_eq_some {count : Nat} {cs head rest : List Char}
    (h : splitBytes count cs = some (head, rest)) : cs = head ++ rest := by
  fun_induction splitBytes count cs generalizing head with
  | case1 cs =>
    obtain ⟨rfl, rfl⟩ := Prod.mk.inj (Option.some.inj h)
    rfl
  | case2 => cases h
  | case3 count c cs _ ih =>
    obtain ⟨⟨front, rest⟩, hfront, heq⟩ := Option.map_eq_some_iff.mp h
    obtain ⟨rfl, rfl⟩ := Prod.mk.inj heq
    rw [ih hfront, List.cons_append]
  | case4 => cases h

theorem digitsUpTo_eq_some {width n : Nat} {cs rest : List Char}
    (h : digitsUpTo width cs = some (n, rest)) :
    ∃ digits, IsDigits digits ∧ cs = digits ++ rest := by
  unfold digitsUpTo at h
  simp only at h
  split at h
  · cases h
  · rename_i hne
    obtain ⟨-, rfl⟩ := Prod.mk.inj (Option.some.inj h)
    have hprefix : (cs.take width).takeWhile Char.isDigit <+: cs :=
      (List.takeWhile_prefix _).trans (List.take_prefix _ _)
    exact ⟨_, ⟨by simpa using hne, List.all_eq_true.mp List.all_takeWhile⟩,
      (List.prefix_iff_eq_append.mp hprefix).symm⟩

theorem yearAt_eq_some {year : Int} {cs rest : List Char} (h : yearAt cs = some (year, rest)) :
    ∃ sign digits : List Char, sign ∈ [[], ['-'], ['+']] ∧ IsDigits digits ∧
      Text.trimStart cs = sign ++ digits ++ rest := by
  unfold yearAt at h
  split at h
  all_goals
    rename_i hstart
    obtain ⟨⟨n, rest⟩, hread, heq⟩ := Option.map_eq_some_iff.mp h
    obtain ⟨-, rfl⟩ := Prod.mk.inj heq
    obtain ⟨digits, hdigits, hrest⟩ := digitsUpTo_eq_some hread
  · exact ⟨['-'], digits, by simp, hdigits, by rw [hstart, hrest]; rfl⟩
  · exact ⟨['+'], digits, by simp, hdigits, by rw [hstart, hrest]; rfl⟩
  · exact ⟨[], digits, by simp, hdigits, hrest⟩

theorem beginsWithYear_of_read? {cs : List Char} {date : Date} (h : read? cs = some date) :
    BeginsWithYear (Text.trimStart cs) := by
  obtain ⟨⟨year, rest⟩, hyear, hmore⟩ := Option.bind_eq_some_iff.mp h
  obtain ⟨⟨month, after⟩, hmonth, -⟩ := Option.bind_eq_some_iff.mp hmore
  obtain ⟨sign, digits, hsign, hdigits, hcs⟩ := yearAt_eq_some hyear
  unfold partAt at hmonth
  split at hmonth
  · exact ⟨sign, digits, _, hsign, hdigits, hcs⟩
  · cases hmonth

theorem beginsWithYear_of_readLeading? {cs : List Char} {date : Date}
    (h : readLeading? cs = some date) : BeginsWithYear (Text.trimStart cs) := by
  have hfront {head rest : List Char} (hsplit : splitBytes 10 cs = some (head, rest))
      (hread : read? head = some date) : BeginsWithYear (Text.trimStart cs) := by
    have hhead := beginsWithYear_of_read? hread
    rw [splitBytes_eq_some hsplit, Text.trimStart_append hhead.ne_nil]
    exact hhead.append rest
  unfold readLeading? at h
  split at h
  · rename_i hsplit
    exact hfront hsplit h
  · rename_i hsplit
    split at h
    · exact hfront hsplit h
    · cases h
  · cases h

theorem double?_of_readLeading? {cs : List Char} {date : Date} (h : readLeading? cs = some date) :
    Text.double? (Text.trim cs) = none :=
  Text.double?_of_beginsWithYear (Text.beginsWithYear_trim (beginsWithYear_of_readLeading? h))

end Date

end Bylaw
