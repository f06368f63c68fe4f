import Bylaw.Json.Reader
import Bylaw.Proofs.Number.Decimal
import Bylaw.Proofs.Text.Reading

/-! The numerals that numbers are written with, and how a JSON text with one in front is read. Main
statement: the text of a number is read to its end, whatever follows that is no part of a number,
and a whole number is read as itself. -/

namespace Bylaw

/-- The parts of a numeral: its sign, the digits before and after the point, and the sign and the
digits of a power of ten. -/
structure Numeral where
  negative : Bool
  whole : List Char
  fraction? : Option (List Char) := none
  power? : Option (Bool × List Char) := none

namespace Numeral

def signText (negative : Bool) : List Char := if negative then ['-'] else []

def fractionText : Option (List Char) → List Char
  | some digits => '.' :: digits
  | none => []

def powerText : Option (Bool × List Char) → List Char
  | some (negative, digits) => 'e' :: (if negative then '-' else '+') :: digits
  | none => []

def text (n : Numeral) : List Char :=
  signText n.negative ++ (n.whole ++ (fractionText n.fraction? ++ powerText n.power?))

def powerValue : Bool × List Char → Int
  | (negative, digits) =>
    let n : Int := Decimal.ofDigitChars digits
    if negative then -n else n

/-- The number that a JSON text with these parts denotes, if there is one. -/
def number? (n : Numeral) : Option Number :=
  match n.fraction?, n.power? with
  | none, none => Number.ofDigits n.negative n.whole
  | fraction?, power? =>
    Number.ofParts n.negative n.whole (fraction?.getD []) ((power?.map powerValue).getD 0)

/-- A numeral is rounded to the double that a decimal is rounded to. -/
def Denotes (n : Numeral) (t : Decimal) : Prop :=
  ∀ negative, Binary64.ofDecimal negative (Decimal.ofDigitChars (n.whole ++ n.fraction?.getD []))
    ((n.power?.map powerValue).getD 0 - (n.fraction?.getD []).length) =
      Binary64.ofDecimal negative t.digits t.exponent

/-- Digits, at least one. -/
structure IsDigits (cs : List Char) : Prop where
  ne_nil : cs ≠ []
  isDigit : ∀ c ∈ cs, c.isDigit

/-- A numeral as JSON texts have them: there are digits wherever there can be some, and the first of
several before the point is not zero. -/
structure IsProper (n : Numeral) : Prop where
  whole : IsDigits n.whole
  leading : n.whole.head? = some '0' → n.whole.length = 1
  fraction : ∀ digits, n.fraction? = some digits → IsDigits digits
  power : ∀ negative digits, n.power? = some (negative, digits) → IsDigits digits

end Numeral

/-- A text that does not go on with a number. -/
def EndsNumber (rest : List Char) : Prop :=
  ∀ c ∈ rest.head?, c.isDigit = false ∧ c ≠ '.' ∧ c ≠ 'e' ∧ c ≠ 'E'

theorem EndsNumber.nil : EndsNumber [] := nofun

namespace Json

open Numeral

theorem splitDigits_append {ds rest : List Char} (hd : ∀ c ∈ ds, c.isDigit)
    (hr : ∀ c ∈ rest.head?, c.isDigit = false) : splitDigits (ds ++ rest) = (ds, rest) := by
  have hrest : rest.takeWhile Char.isDigit = [] ∧ rest.dropWhile Char.isDigit = rest := by
    cases rest with
    | nil => exact ⟨rfl, rfl⟩
    | cons c cs =>
      have hc := hr c rfl
      simp [hc]
  rw [splitDigits, List.takeWhile_append_of_pos hd, List.dropWhile_append_of_pos hd, hrest.1,
    hrest.2, List.append_nil]

theorem exponentPart_powerText {power? : Option (Bool × List Char)} {rest : List Char}
    (hp : ∀ negative digits, power? = some (negative, digits) → IsDigits digits)
    (hr : EndsNumber rest) :
    exponentPart (powerText power? ++ rest) = .ok (power?.map powerValue, rest) := by
  cases power? with
  | none =>
    cases rest with
    | nil => rfl
    | cons c cs =>
      have hc := hr c rfl
      simp [powerText, exponentPart, hc]
  | some power =>
    obtain ⟨negative, digits⟩ := power
    have hd := hp negative digits rfl
    have hsplit := splitDigits_append hd.isDigit fun c hc => (hr c hc).1
    cases negative <;>
      simp [powerText, exponentPart, hsplit, hd.ne_nil, powerValue]

/-- What comes after the fraction of a numeral is neither a digit nor a point. -/
theorem head?_powerText {power? : Option (Bool × List Char)} {rest : List Char}
    (hr : EndsNumber rest) :
    ∀ c ∈ (powerText power? ++ rest).head?, c.isDigit = false ∧ c ≠ '.' := by
  cases power? with
  | none => exact fun c hc => ⟨(hr c hc).1, (hr c hc).2.1⟩
  | some power =>
    intro c hc
    obtain rfl := Option.some.inj hc
    decide

theorem fractionPart_fractionText {fraction? : Option (List Char)} {rest : List Char}
    (hf : ∀ digits, fraction? = some digits → IsDigits digits)
    (hr : ∀ c ∈ rest.head?, c.isDigit = false ∧ c ≠ '.') :
    fractionPart (fractionText fraction? ++ rest) = .ok (fraction?, rest) := by
  cases fraction? with
  | none =>
    unfold fractionPart
    split
    · rename_i cs heq
      rw [fractionText, List.nil_append] at heq
      exact absurd rfl (hr '.' (by rw [heq]; rfl)).2
    · rfl
  | some digits =>
    have hd := hf digits rfl
    have hsplit := splitDigits_append hd.isDigit fun c hc => (hr c hc).1
    simp [fractionText, fractionPart, hsplit, hd.ne_nil]

theorem numberAt_signText (negative : Bool) {body : List Char} (hb : body.head? ≠ some '-') :
    numberAt (signText negative ++ body) = numberAfterSign negative body := by
  cases negative with
  | true => rfl
  | false =>
    simp only [signText, Bool.false_eq_true, if_false, List.nil_append]
    unfold numberAt
    split
    · exact absurd rfl hb
    · rfl

/-- A numeral is read to its end, if no number follows. -/
theorem numberAt_numeral {n : Numeral} (h : n.IsProper) {rest : List Char} (hr : EndsNumber rest) :
    numberAt (n.text ++ rest) =
      match n.number? with
      | some m => .ok (m, rest)
      | none => .error .outOfRange := by
  obtain ⟨negative, whole, fraction?, power?⟩ := n
  have hwhole : IsDigits whole := h.whole
  have hfraction := fractionPart_fractionText h.fraction (@head?_powerText power? rest hr)
  have hexponent := exponentPart_powerText h.power hr
  simp only [Numeral.text, List.append_assoc]
  simp only at hfraction hexponent
  have hsplit : splitDigits (whole ++ (fractionText fraction? ++ (powerText power? ++ rest))) =
      (whole, fractionText fraction? ++ (powerText power? ++ rest)) := by
    refine splitDigits_append hwhole.isDigit fun c hc => ?_
    cases fraction? with
    | none => exact (head?_powerText hr c hc).1
    | some digits =>
      obtain rfl := Option.some.inj hc
      decide
  have hbody : (whole ++ (fractionText fraction? ++ (powerText power? ++ rest))).head? ≠
      some '-' := by
    intro heq
    obtain ⟨c, cs, rfl⟩ := List.exists_cons_of_ne_nil hwhole.ne_nil
    obtain rfl := Option.some.inj heq
    exact absurd (hwhole.isDigit '-' List.mem_cons_self) (by decide)
  -- The digits before the point are there, and begin with zero only if that is all.
  have hguard : (whole.isEmpty || (whole.head? == some '0' && 1 < whole.length)) = false := by
    simp only [Bool.or_eq_false_iff, List.isEmpty_eq_false_iff, Bool.and_eq_false_imp, beq_iff_eq,
      decide_eq_false_iff_not]
    exact ⟨hwhole.ne_nil, fun h0 => by rw [h.leading h0]; decide⟩
  rw [numberAt_signText negative hbody]
  simp only [numberAfterSign, hsplit, hguard, Bool.false_eq_true, if_false, hfraction, hexponent,
    ok_bind]
  cases fraction? <;> cases power? <;> rfl

end Json

namespace Decimal

open Numeral

/-- The first digit of a number is zero only if the number is. -/
theorem head?_digitChars {n : Nat} (h : (digitChars n).head? = some '0') : n = 0 := by
  induction n using Nat.strongRecOn with
  | ind n ih =>
    by_cases hlt : n < 10
    · have hdigit : ∀ m < 10, Nat.digitChar m = '0' → m = 0 := by decide
      rw [digitChars, Nat.toDigits_of_lt_base hlt] at h
      exact hdigit n hlt (Option.some.inj h)
    · rw [digitChars, Nat.toDigits_of_base_le (by decide) (by omega),
        List.head?_append_of_ne_nil _ Nat.toDigits_ne_nil] at h
      have := ih (n / 10) (by omega) h
      omega

theorem isDigits_digitChars (n : Nat) : IsDigits (digitChars n) :=
  ⟨digitChars_ne_nil n, fun _ => isDigit_of_mem_digitChars⟩

/-- What is left of the digits of a number other than zero when the zeros at its end are taken off
begins with another digit than zero. -/
theorem isDigits_trimZeros {n : Nat} (h : n ≠ 0) :
    IsDigits (trimZeros (digitChars n)).1 ∧ (trimZeros (digitChars n)).1.head? ≠ some '0' := by
  refine ⟨⟨trimZeros_ne_nil h, fun _ => isDigit_of_mem_trimZeros⟩, fun hzero => ?_⟩
  rw [← List.head?_append_of_ne_nil _ (trimZeros_ne_nil h), trimZeros_append] at hzero
  exact h (head?_digitChars hzero)

/-- Positional notation begins with zero only in front of the point. -/
theorem leading_positional {ds whole fraction : List Char} (hd : IsDigits ds)
    (h0 : ds.head? ≠ some '0') {place : ℤ} {t : Decimal}
    (h : IsNumeral (positional ds place) t whole fraction) (hw : whole.head? = some '0') :
    whole.length = 1 := by
  have htext := h.text
  unfold positional at htext
  obtain ⟨w, ws, rfl⟩ := List.exists_cons_of_ne_nil h.whole_ne
  obtain rfl : w = '0' := Option.some.inj hw
  split at htext
  · cases ws with
    | nil => rfl
    | cons c cs =>
      obtain rfl : '.' = c := (List.cons.inj (List.cons.inj htext).2).1
      exact absurd (h.digits '.' (by simp)) (by decide)
  · obtain ⟨d, rest, rfl⟩ := List.exists_cons_of_ne_nil hd.ne_nil
    refine absurd ?_ h0
    simp only at htext
    split at htext
    · exact congrArg some (List.cons.inj htext).1
    · rw [List.take_succ_cons] at htext
      exact congrArg some (List.cons.inj htext).1

theorem positional_numeral {ds : List Char} (hd : IsDigits ds) (h0 : ds.head? ≠ some '0')
    (place : ℤ) : ∃ n : Numeral, n.IsProper ∧ n.negative = false ∧
      n.text = positional ds place ∧ n.Denotes ⟨ofDigitChars ds, place + 1 - ds.length⟩ := by
  obtain ⟨whole, fraction, h⟩ := positional_isNumeral hd.ne_nil hd.isDigit place
  refine ⟨⟨false, whole, some fraction, none⟩, ⟨?_, ?_, ?_, ?_⟩, rfl, ?_, fun negative => ?_⟩
  · exact ⟨h.whole_ne, fun c hc => h.digits c (List.mem_append_left _ hc)⟩
  · exact leading_positional hd h0 h
  · rintro digits ⟨⟩
    exact ⟨h.fraction_ne, fun c hc => h.digits c (List.mem_append_right _ hc)⟩
  · rintro negative digits ⟨⟩
  · simp [Numeral.text, signText, fractionText, powerText, h.text]
  · rw [← h.reads]
    simp

theorem powerValue_place (place : ℤ) :
    powerValue (decide (place < 0), digitChars place.natAbs) = place := by
  simp only [powerValue, ofDigitChars_digitChars, decide_eq_true_eq]
  omega

theorem scientific_numeral {ds : List Char} (hd : IsDigits ds) (place : ℤ) :
    ∃ n : Numeral, n.IsProper ∧ n.negative = false ∧ n.text = scientific ds place ∧
      n.Denotes ⟨ofDigitChars ds, place + 1 - ds.length⟩ := by
  obtain ⟨c, rest, rfl⟩ := List.exists_cons_of_ne_nil hd.ne_nil
  have hc : IsDigits [c] := ⟨by simp, fun x hx => hd.isDigit x (by simp_all)⟩
  have hpower : ∀ negative digits, some (decide (place < 0), digitChars place.natAbs) =
      some (negative, digits) → IsDigits digits := by
    rintro negative digits ⟨⟩
    exact isDigits_digitChars _
  cases rest with
  | nil =>
    refine ⟨⟨false, [c], none, some (place < 0, digitChars place.natAbs)⟩,
      ⟨hc, fun _ => rfl, nofun, hpower⟩, rfl, ?_, fun negative => ?_⟩
    · simp [Numeral.text, signText, fractionText, powerText, scientific]
    · simp [powerValue_place]
  | cons d ds =>
    refine ⟨⟨false, [c], some (d :: ds), some (place < 0, digitChars place.natAbs)⟩,
      ⟨hc, fun _ => rfl, ?_, hpower⟩, rfl, ?_, fun negative => ?_⟩
    · rintro digits ⟨⟩
      exact ⟨by simp, fun x hx => hd.isDigit x (List.mem_cons_of_mem c hx)⟩
    · simp [Numeral.text, signText, fractionText, powerText, scientific]
    · simp [powerValue_place]

theorem text_numeral (layout : Layout) (t : Decimal) :
    ∃ n : Numeral, n.IsProper ∧ n.negative = false ∧ n.text = t.text layout ∧ n.Denotes t := by
  unfold text
  split
  · rename_i hz
    refine ⟨⟨false, ['0'], some ['0'], none⟩, ⟨⟨by simp, by simp⟩, by simp, ?_, ?_⟩, rfl, rfl,
      fun negative => ?_⟩
    · rintro digits ⟨⟩
      exact ⟨by simp, by simp⟩
    · rintro negative digits ⟨⟩
    · rw [hz]
      rfl
  · rename_i hz
    obtain ⟨hd, h0⟩ := isDigits_trimZeros hz
    simp only
    split
    · obtain ⟨n, hn, hs, ht, hdenotes⟩ := positional_numeral hd h0
        (t.exponent + (digitChars t.digits).length - 1)
      exact ⟨n, hn, hs, ht, fun sign => (hdenotes sign).trans (ofDecimal_trimZeros sign t)⟩
    · obtain ⟨n, hn, hs, ht, hdenotes⟩ := scientific_numeral hd
        (t.exponent + (digitChars t.digits).length - 1)
      exact ⟨n, hn, hs, ht, fun sign => (hdenotes sign).trans (ofDecimal_trimZeros sign t)⟩

end Decimal

namespace Numeral

theorem IsProper.withSign {n : Numeral} (h : n.IsProper) (negative : Bool) :
    IsProper { n with negative } :=
  ⟨h.whole, h.leading, h.fraction, h.power⟩

theorem text_withSign {n : Numeral} (h : n.negative = false) (negative : Bool) :
    text { n with negative } = signText negative ++ n.text := by
  rw [text, text, h]
  rfl

/-- The numeral of a whole number. -/
def ofInt (i : Int) : Numeral := ⟨decide (i < 0), Decimal.digitChars i.natAbs, none, none⟩

theorem ofInt_isProper (i : Int) : (ofInt i).IsProper := by
  refine ⟨Decimal.isDigits_digitChars _, fun h => ?_, nofun, nofun⟩
  rw [ofInt, Decimal.head?_digitChars h]
  rfl

theorem text_ofInt (i : Int) : (ofInt i).text = Number.intText i := by
  simp [ofInt, text, signText, fractionText, powerText, Number.intText]

theorem number?_ofInt (i : WordInt) : (ofInt i.val).number? = some (.int i) := by
  obtain ⟨i, hlower, hupper⟩ := i
  simp only [ofInt, number?, Number.ofDigits, Decimal.ofDigitChars_digitChars]
  rw [if_neg (by omega)]
  by_cases hneg : i < 0
  · have habs : -(i.natAbs : Int) = i := by omega
    rw [if_pos (by simpa using hneg), if_neg (by omega), habs, Number.ofInt,
      dif_pos ⟨hlower, hupper⟩]
  · have habs : (i.natAbs : Int) = i := by omega
    rw [if_neg (by simpa using hneg), Number.ofNat, habs, Number.ofInt, dif_pos ⟨hlower, hupper⟩]

end Numeral

namespace Number

open Numeral

theorem exists_numeral (n : Number) : ∃ m : Numeral, m.IsProper ∧ m.text = n.text := by
  cases n with
  | int i => exact ⟨Numeral.ofInt i.val, ofInt_isProper i.val, text_ofInt i.val⟩
  | real x =>
    obtain ⟨m, hm, hs, ht, -⟩ := Decimal.text_numeral .plain (Decimal.shortest x)
    refine ⟨{ m with negative := x.negative }, hm.withSign _, ?_⟩
    rw [text_withSign hs, ht]
    rfl

theorem exists_cons_text (n : Number) :
    ∃ c cs, n.text = c :: cs ∧ (c = '-' ∨ c.isDigit = true) := by
  obtain ⟨⟨negative, whole, fraction?, power?⟩, hm, ht⟩ := n.exists_numeral
  obtain ⟨c, cs, rfl⟩ := List.exists_cons_of_ne_nil hm.whole.ne_nil
  cases negative with
  | true => exact ⟨'-', _, ht.symm, .inl rfl⟩
  | false => exact ⟨c, _, ht.symm, .inr (hm.whole.isDigit c List.mem_cons_self)⟩

/-- The number that the text of a number denotes, if it denotes one. -/
def reread? (n : Number) : Option Number := (Json.numberAt n.text).toOption.map Prod.fst

/-- The text of a number is read to its end, if no number follows. -/
theorem numberAt_text (n : Number) {rest : List Char} (hr : EndsNumber rest) :
    Json.numberAt (n.text ++ rest) =
      match n.reread? with
      | some m => .ok (m, rest)
      | none => .error .outOfRange := by
  obtain ⟨m, hm, ht⟩ := n.exists_numeral
  have hself := Json.numberAt_numeral hm EndsNumber.nil
  rw [List.append_nil, ht] at hself
  rw [← ht, Json.numberAt_numeral hm hr, reread?, hself]
  cases m.number? <;> rfl

theorem reread?_int (i : WordInt) : reread? (.int i) = some (.int i) := by
  have hself := Json.numberAt_numeral (ofInt_isProper i.val) EndsNumber.nil
  rw [List.append_nil, text_ofInt, number?_ofInt] at hself
  rw [reread?, text, hself]
  rfl

end Number

end Bylaw
