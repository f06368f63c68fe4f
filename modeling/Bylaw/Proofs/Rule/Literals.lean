import Bylaw.Proofs.Number.Numeral
import Bylaw.Proofs.Rule.Absorption
import Bylaw.Proofs.Rule.RoundTrip

/-! Numbers in conditions, in the parentheses of an action and in expressions. Main statement: the
number that a text denotes is read in all three places, and it is read again from its own text if
and only if that has no power of ten. -/

namespace Bylaw

open Token (EndsDigits tokens)

namespace Numeral

/-- Digits with or without a sign and a fraction. -/
structure IsPlain (m : Numeral) : Prop where
  whole : IsDigits m.whole
  fraction : ∀ digits, m.fraction? = some digits → IsDigits digits
  power : m.power? = none

theorem not_mem_text {m : Numeral} (hm : m.IsPlain) : 'e' ∉ m.text := by
  intro he
  rw [text, hm.power, powerText, List.append_nil, List.mem_append, List.mem_append] at he
  obtain hsign | hwhole | hfraction := he
  · cases hs : m.negative <;> simp [hs, signText] at hsign
  · exact absurd (hm.whole.isDigit 'e' hwhole) (by decide)
  · cases hf : m.fraction? with
    | none => simp [hf, fractionText] at hfraction
    | some digits =>
      rw [hf, fractionText, List.mem_cons] at hfraction
      obtain hpoint | hdigit := hfraction
      · exact absurd hpoint (by decide)
      · exact absurd ((hm.fraction digits hf).isDigit 'e' hdigit) (by decide)

/-- The number that the digits denote as a token. -/
def magnitude? (m : Numeral) : Option Number :=
  match m.fraction? with
  | some fraction => Token.fractionalNumber? m.whole fraction
  | none => Token.wholeNumber? m.whole

theorem endsDigits_powerText (power? : Option (Bool × List Char)) :
    EndsDigits (powerText power?) := by
  have h := @Json.head?_powerText power? [] EndsNumber.nil
  rwa [List.append_nil] at h

theorem splitNumber_fractionText {ds rest : List Char} {fraction? : Option (List Char)}
    (hd : ∀ c ∈ ds, c.isDigit) (hf : ∀ digits, fraction? = some digits → IsDigits digits)
    (h : EndsDigits rest) :
    Token.splitNumber (ds ++ (fractionText fraction? ++ rest)) = (ds, fraction?, rest) := by
  cases fraction? with
  | none => exact Token.splitNumber_whole hd h
  | some fraction =>
    have hfraction := hf fraction rfl
    exact Token.splitNumber_fraction hd hfraction.isDigit hfraction.ne_nil h.endsWhole.head

theorem tokens_magnitude {m : Numeral} (hw : IsDigits m.whole)
    (hf : ∀ digits, m.fraction? = some digits → IsDigits digits) {ts : List Token}
    (h : tokens false (m.whole ++ (fractionText m.fraction? ++ powerText m.power?)) = .ok ts) :
    ∃ n us, m.magnitude? = some n ∧ tokens false (powerText m.power?) = .ok us ∧
      ts = .number n :: us := by
  obtain ⟨negative, whole, fraction?, power?⟩ := m
  obtain ⟨c, cs, rfl⟩ := List.exists_cons_of_ne_nil hw.ne_nil
  have hc : c.isDigit := hw.isDigit c List.mem_cons_self
  have hsplit := splitNumber_fractionText (fun d hd => hw.isDigit d (List.mem_cons_of_mem c hd)) hf
    (endsDigits_powerText power?)
  simp only [List.cons_append] at h
  rw [Token.tokens_of_skipTrivia (Token.skipTrivia_of_isDigit hc _), Token.scan_of_isDigit hc] at h
  simp only [Token.scanNumber, hsplit] at h
  cases hn : magnitude? ⟨negative, c :: cs, fraction?, power?⟩ with
  | none =>
    simp only [magnitude?] at hn
    cases fraction? <;> simp_all
  | some n =>
    simp only [magnitude?] at hn
    cases fraction? <;>
    · simp only [hn] at h
      obtain ⟨us, hus, rfl⟩ := map_eq_ok.mp h
      exact ⟨n, us, rfl, hus, rfl⟩

end Numeral

namespace Rule

/-- A number with or without the other sign. -/
def signed (negative : Bool) (n : Number) : Number := if negative then negate n else n

def signedTokens (negative : Bool) (n : Number) : List Token :=
  if negative then [.symbol .minus, .number n] else [.number n]

end Rule

open Rule (signed signedTokens)

theorem Numeral.tokens_text {m : Numeral} (hw : IsDigits m.whole)
    (hf : ∀ digits, m.fraction? = some digits → IsDigits digits) {ts : List Token}
    (h : tokens false m.text = .ok ts) :
    ∃ n us, m.magnitude? = some n ∧ tokens false (powerText m.power?) = .ok us ∧
      ts = signedTokens m.negative n ++ us := by
  cases hs : m.negative with
  | false =>
    rw [text, hs] at h
    exact tokens_magnitude hw hf h
  | true =>
    rw [text, hs] at h
    have hsign := Token.Spells.minus (m.whole ++ (fractionText m.fraction? ++ powerText m.power?))
    rw [signText, if_pos rfl, hsign] at h
    obtain ⟨vs, hvs, rfl⟩ := map_eq_ok.mp h
    obtain ⟨n, us, hn, hus, rfl⟩ := tokens_magnitude hw hf hvs
    exact ⟨n, us, hn, hus, rfl⟩

theorem Numeral.tokens_powerText {negative : Bool} {digits : List Char} {us : List Token}
    (h : tokens false (powerText (some (negative, digits))) = .ok us) :
    ∃ more, us = .word "e" :: more := by
  have hstops : Token.Stops ((if negative then '-' else '+') :: digits) :=
    Token.stops_cons _ (by cases negative <;> rfl)
  have hword := Token.tokens_word (w := "e") rfl hstops false
  have htext : powerText (some (negative, digits)) =
      "e".toList ++ (if negative then '-' else '+') :: digits := rfl
  rw [htext, hword] at h
  obtain ⟨more, -, rfl⟩ := map_eq_ok.mp h
  exact ⟨more, rfl⟩

/-- A number that is written with a power of ten has the tokens of another number and of the word
`e`. -/
theorem Number.tokens_text_power {n : Number} (he : 'e' ∈ n.text) {ts : List Token}
    (h : tokens false n.text = .ok ts) :
    ∃ negative k more, ts = signedTokens negative k ++ .word "e" :: more := by
  obtain ⟨m, hm, htext⟩ := n.exists_numeral
  rw [← htext] at he h
  obtain ⟨k, us, -, hus, rfl⟩ := Numeral.tokens_text hm.whole hm.fraction h
  cases hpower : m.power? with
  | none => exact absurd he (Numeral.not_mem_text ⟨hm.whole, hm.fraction, hpower⟩)
  | some power =>
    obtain ⟨negative, digits⟩ := power
    rw [hpower] at hus
    obtain ⟨more, rfl⟩ := Numeral.tokens_powerText hus
    exact ⟨m.negative, k, more, rfl⟩

/-- Where a number can stand: in a comparison, among the arguments of an action, and in an
expression. -/
inductive NumberPlace where
  | operand
  | argument
  | value
  deriving DecidableEq

namespace NumberPlace

/-- How a number is written. -/
def text : NumberPlace → Number → String
  | .operand, n => (Operand.literal (.num n)).text
  | .argument, n => (Json.num n).compact
  | .value, n => (Expr.literal (.num n)).text

/-- Whether a number is what is read of all the tokens; those of an argument are followed by a
closing parenthesis. -/
def Reads (place : NumberPlace) (ts : List Token) (n : Number) : Prop :=
  match place with
  | .operand => Rule.operandAt ts = .ok (.literal (.num n), [])
  | .argument => Rule.literals (ts ++ [.symbol .closeParen]) = .ok ([.num n], [])
  | .value => Yields (Rule.sum ts) (.literal (.num n)) []

theorem toList_text (place : NumberPlace) (n : Number) : (place.text n).toList = n.text := by
  cases place <;> exact String.toList_ofList

end NumberPlace

namespace Rule

theorem literal?_signedTokens (negative : Bool) (n : Number) (us : List Token) :
    ∃ h, literal? (signedTokens negative n ++ us) = some ⟨.num (signed negative n), us, h⟩ := by
  cases negative with
  | true => exact ⟨_, rfl⟩
  | false => exact ⟨_, rfl⟩

theorem operandAt_signedTokens (negative : Bool) (n : Number) (us : List Token) :
    operandAt (signedTokens negative n ++ us) =
      .ok (.literal (.num (signed negative n)), us) := by
  obtain ⟨h, hliteral⟩ := literal?_signedTokens negative n us
  simp only [operandAt, hliteral]

theorem yields_sum_signedTokens (negative : Bool) (n : Number) {us : List Token}
    (hus : EndsExpr us) :
    Yields (sum (signedTokens negative n ++ us)) (.literal (.num (signed negative n))) us := by
  refine hus.sum ?_
  cases negative with
  | true => exact yields_factor_minus_number.mpr ⟨rfl, rfl⟩
  | false => exact yields_factor_number.mpr ⟨rfl, rfl⟩

end Rule

namespace NumberPlace

open Rule

theorem reads_signedTokens (place : NumberPlace) (negative : Bool) (n : Number) :
    place.Reads (signedTokens negative n) (signed negative n) := by
  cases place with
  | operand =>
    have h := operandAt_signedTokens negative n []
    rwa [List.append_nil] at h
  | argument => exact literals_closeParen (literal?_signedTokens negative n [.symbol .closeParen])
  | value =>
    have h := yields_sum_signedTokens negative n endsExpr_nil
    rwa [List.append_nil] at h

/-- Before a word, it is not all that is read. -/
theorem not_reads_word (place : NumberPlace) (negative : Bool) (k n : Number) (w : String)
    (more : List Token) : ¬place.Reads (signedTokens negative k ++ .word w :: more) n := by
  intro h
  cases place with
  | operand =>
    have hrest := (operandAt_signedTokens negative k (.word w :: more)).symm.trans h
    cases hrest
  | argument =>
    obtain ⟨hlt, hliteral⟩ :=
      literal?_signedTokens negative k (.word w :: (more ++ [.symbol .closeParen]))
    simp only [Reads, List.append_assoc, List.cons_append] at h
    rw [literals, hliteral] at h
    cases h
  | value =>
    have hword : EndsExpr (.word w :: more) := endsExpr_cons _ rfl rfl (by simp)
    cases ((yields_sum_signedTokens negative k hword).unique h).2

/-- The text of a number, read in the same place, gives the number. -/
def ReadsBack (place : NumberPlace) (n : Number) : Prop :=
  ∃ us, tokens false (place.text n).toList = .ok us ∧ place.Reads us n

/-- A number that is written without a power of ten is read back. -/
theorem readsBack (place : NumberPlace) {n : Number} (hn : Token.FitsWord n) (he : 'e' ∉ n.text) :
    place.ReadsBack n := by
  have hwritable := Token.isWritable_of_fitsWord hn he
  refine ⟨Token.numberTokens n, ?_, ?_⟩
  · rw [toList_text]
    exact (Token.Spells.number hwritable Token.stops_nil).tokens_eq
  · obtain ⟨-, htokens⟩ | ⟨-, m, htokens, rfl⟩ := numberTokens_cases hwritable
    · rw [htokens]
      exact place.reads_signedTokens false n
    · rw [htokens]
      exact place.reads_signedTokens true m

/-- A number that is written with a power of ten is not. -/
theorem not_readsBack (place : NumberPlace) {n : Number} (he : 'e' ∈ n.text) :
    ¬place.ReadsBack n := by
  rintro ⟨us, hus, hread⟩
  rw [place.toList_text] at hus
  obtain ⟨negative, k, more, rfl⟩ := Number.tokens_text_power he hus
  exact place.not_reads_word negative k n "e" more hread

end NumberPlace

/-- Digits with or without a sign and a fraction that are tokens are the number they denote in every
place where one can stand. It is read back from its own text if and only if that has no power of
ten. -/
theorem number_readsBack_iff {m : Numeral} (hm : m.IsPlain) {ts : List Token}
    (h : tokens false m.text = .ok ts) :
    ∃ k, m.magnitude? = some k ∧ ∀ place : NumberPlace, place.Reads ts (signed m.negative k) ∧
      (place.ReadsBack (signed m.negative k) ↔ 'e' ∉ (signed m.negative k).text) := by
  have hsound := Token.isSound_of_tokens h
  obtain ⟨k, us, hk, hus, rfl⟩ := Numeral.tokens_text hm.whole hm.fraction h
  rw [hm.power] at hus
  obtain rfl : us = [] := by
    have hnil : tokens false [] = .ok [] := Token.tokens_of_skipTrivia_nil Token.skipTrivia.eq_1
    exact Except.ok.inj (hus.symm.trans hnil)
  rw [List.append_nil] at hsound ⊢
  have hfits : Token.FitsWord (signed m.negative k) := by
    cases hs : m.negative with
    | true => exact Rule.fitsWord_negate (hsound (.number k) (by simp [signedTokens, hs]))
    | false => exact hsound (.number k) (by simp [signedTokens, hs])
  refine ⟨k, hk, fun place => ⟨place.reads_signedTokens m.negative k, ?_⟩⟩
  constructor
  · intro hback he
    exact place.not_readsBack he hback
  · exact place.readsBack hfits

/-- The digits of `-2.5`. -/
theorem number_readsBack_iff_half :
    let m : Numeral := ⟨true, ['2'], some ['5'], none⟩
    let half := Number.real ⟨false, 0x4004000000000000, by decide⟩
    m.text = "-2.5".toList ∧ m.magnitude? = some half ∧
      ∀ place : NumberPlace, place.Reads [.symbol .minus, .number half] (signed true half) ∧
        place.ReadsBack (signed true half) := by
  intro m half
  have hm : m.IsPlain := by
    refine ⟨⟨by simp [m], by simp [m]⟩, ?_, rfl⟩
    rintro digits ⟨⟩
    exact ⟨by simp, by simp⟩
  have hhalf : m.magnitude? = some half := by decide +kernel
  have htokens : tokens false m.text = .ok [.symbol .minus, .number half] := by
    decide +kernel
  obtain ⟨k, hk, hplaces⟩ := number_readsBack_iff hm htokens
  obtain rfl := Option.some.inj (hhalf.symm.trans hk)
  have he : 'e' ∉ (signed true half).text := by decide +kernel
  exact ⟨rfl, hhalf, fun place => ⟨(hplaces place).1, (hplaces place).2.mpr he⟩⟩

/-- The digits of ten to the power of 22, which is written with a power of ten. -/
theorem number_not_readsBack :
    let m : Numeral := ⟨false, "10000000000000000000000".toList, none, none⟩
    let n := Number.real ⟨false, 0x4480F0CF064DD592, by decide⟩
    m.IsPlain ∧ tokens false m.text = .ok [.number n] ∧ n.text = "1e+22".toList ∧
      ∀ place : NumberPlace, place.Reads [.number n] n ∧ ¬place.ReadsBack n := by
  intro m n
  have htext : n.text = "1e+22".toList := by decide +kernel
  refine ⟨⟨⟨by simp [m], by simp [m]⟩, nofun, rfl⟩, by decide +kernel, htext, ?_⟩
  intro place
  have he : 'e' ∈ n.text := by
    rw [htext]
    decide
  exact ⟨place.reads_signedTokens false n, place.not_readsBack he⟩

end Bylaw
