import Bylaw.Text.Blank
import Bylaw.Text.Numeral
import Bylaw.Proofs.Number.Monotone
import Bylaw.Proofs.Number.Numeral

/-! The doubles that texts denote. Main statements: the text of a number denotes the double nearest
to it, and so does every text of a whole number that fits a signed word, but that zero may have
either sign. -/

namespace Bylaw

open Numeral

namespace Binary64

/-- A word is rounded to the nearest double, which is finite, whatever its sign. -/
theorem ofDecimal_word {n : ℕ} (h : n ≤ 2 ^ 64) (negative : Bool) :
    ofDecimal negative n 0 = some { ofInt n with negative := negative } := by
  rcases Nat.eq_zero_or_pos n with rfl | hn
  · rw [ofDecimal, if_pos rfl]
    rfl
  have hlength : (Decimal.digitChars n).length ≤ 20 :=
    (Nat.length_toDigits_le_iff (by decide) (by decide)).mpr (h.trans_lt (by decide))
  have hrank : roundRank n 1 < rankCount :=
    (roundRank_mono_whole h).trans_lt (by decide +kernel)
  have hratio : decimalRatio n 0 = (n, 1) := by simp [decimalRatio]
  rw [ofDecimal_eq, if_neg hn.ne', if_neg (by omega), if_neg (by omega), hratio, ofRatio]
  simp only [rankCount] at hrank
  simp only [hrank, dif_pos, ofInt, Int.natAbs_natCast, Option.some.injEq, Binary64.mk.injEq,
    true_and]
  omega

theorem ofDecimal_int {i : ℤ} (h : i.natAbs ≤ 2 ^ 64) :
    ofDecimal (decide (i < 0)) i.natAbs 0 = some (ofInt i) := by
  rw [ofDecimal_word h]
  rfl

end Binary64

namespace Text

theorem digits?_eq_some_iff {cs : List Char} {n : ℕ} :
    digits? cs = some n ↔ IsDigits cs ∧ Decimal.ofDigitChars cs = n := by
  have hdigits : IsDigits cs ↔ (cs.isEmpty || !cs.all Char.isDigit) = false := by
    rw [Bool.or_eq_false_iff, List.isEmpty_eq_false_iff, Bool.not_eq_false', List.all_eq_true]
    exact ⟨fun h => ⟨h.ne_nil, h.isDigit⟩, fun h => ⟨h.1, h.2⟩⟩
  unfold digits?
  split
  · rename_i h
    simp [hdigits, h]
  · rename_i h
    simp [hdigits, h]

theorem digits?_of_isDigits {cs : List Char} (h : IsDigits cs) :
    digits? cs = some (Decimal.ofDigitChars cs) :=
  digits?_eq_some_iff.mpr ⟨h, rfl⟩

theorem takeWhile_digits {ds rest : List Char} (hd : IsDigits ds)
    (hr : ∀ c ∈ rest.head?, c.isDigit = false) :
    (ds ++ rest).takeWhile Char.isDigit = ds ∧ (ds ++ rest).dropWhile Char.isDigit = rest :=
  Prod.mk.inj (Json.splitDigits_append hd.isDigit hr)

section

variable {whole : List Char} {fraction? : Option (List Char)} {power? : Option (Bool × List Char)}

theorem exponent?_power {negative : Bool} {digits : List Char} (h : IsDigits digits) :
    exponent? ((if negative then '-' else '+') :: digits) =
      some (powerValue (negative, digits)) := by
  cases negative <;> simp [exponent?, digits?_of_isDigits h, powerValue]

theorem decimalParts?_parts (hw : IsDigits whole)
    (hf : ∀ digits, fraction? = some digits → IsDigits digits)
    (hp : ∀ negative digits, power? = some (negative, digits) → IsDigits digits) :
    decimalParts? (whole ++ (fractionText fraction? ++ powerText power?)) =
      some (whole, fraction?.getD [], (power?.map powerValue).getD 0) := by
  have hpower : ∀ c ∈ (powerText power?).head?, c.isDigit = false ∧ c ≠ '.' := by
    have := @Json.head?_powerText power? [] EndsNumber.nil
    rwa [List.append_nil] at this
  cases fraction? with
  | none =>
    obtain ⟨htake, hdrop⟩ := takeWhile_digits hw fun c hc => (hpower c hc).1
    rw [fractionText, List.nil_append, decimalParts?, htake, hdrop]
    cases power? with
    | none => simp [powerText, hw.ne_nil]
    | some power => simp [powerText, hw.ne_nil, exponent?_power (hp power.1 power.2 rfl)]
  | some digits =>
    obtain ⟨htake, hdrop⟩ := @takeWhile_digits whole ('.' :: (digits ++ powerText power?)) hw
      (by simp)
    obtain ⟨htake', hdrop'⟩ := takeWhile_digits (hf digits rfl) fun c hc => (hpower c hc).1
    rw [fractionText, List.cons_append, decimalParts?, htake, hdrop]
    simp only [htake', hdrop']
    cases power? with
    | none => simp [powerText, hw.ne_nil]
    | some power => simp [powerText, hw.ne_nil, exponent?_power (hp power.1 power.2 rfl)]

end

theorem double?_of_head? {body : List Char} (h : ∀ c ∈ body.head?, c.isDigit = true) :
    double? body = (decimalParts? body).bind fun (whole, fraction, exponent) =>
      Binary64.ofDecimal false (Decimal.ofDigitChars (whole ++ fraction))
        (exponent - fraction.length) := by
  unfold double?
  split
  rename_i negative body' hbody
  split at hbody
  -- A digit is no sign.
  · exact absurd (h '-' rfl) (by decide)
  · exact absurd (h '+' rfl) (by decide)
  · obtain ⟨rfl, rfl⟩ := Prod.mk.inj hbody
    rfl

theorem head?_append_digits {whole rest : List Char} (hw : IsDigits whole) :
    ∀ c ∈ (whole ++ rest).head?, c.isDigit = true := by
  intro c hc
  rw [List.head?_append_of_ne_nil _ hw.ne_nil] at hc
  exact hw.isDigit c (List.mem_of_mem_head? hc)

/-- A proper numeral denotes the double that its decimal is rounded to. -/
theorem double?_numeral {n : Numeral} (h : n.IsProper) {t : Decimal} (ht : n.Denotes t) :
    double? n.text = Binary64.ofDecimal n.negative t.digits t.exponent := by
  have hparts := decimalParts?_parts h.whole h.fraction h.power
  rw [← ht n.negative, text]
  cases hsign : n.negative with
  | true => simp [signText, double?, hparts]
  | false =>
    simp only [signText, Bool.false_eq_true, if_false, List.nil_append]
    rw [double?_of_head? (head?_append_digits h.whole), hparts, Option.bind_some]

/-- Digits after a sign, which may be missing. -/
inductive SignedDigits : List Char → Bool → List Char → Prop
  | bare {digits : List Char} (isDigits : IsDigits digits) : SignedDigits digits false digits
  | plus {digits : List Char} (isDigits : IsDigits digits) :
    SignedDigits ('+' :: digits) false digits
  | minus {digits : List Char} (isDigits : IsDigits digits) :
    SignedDigits ('-' :: digits) true digits

theorem int64?_eq_some {cs : List Char} {i : Int} (h : int64? cs = some i) :
    ∃ negative digits, SignedDigits cs negative digits ∧ fitsInt64 i = true ∧
      i = if negative then -(Decimal.ofDigitChars digits : Int)
        else Decimal.ofDigitChars digits := by
  obtain ⟨hvalue, hfits⟩ := Option.filter_eq_some_iff.mp h
  split at hvalue
  all_goals
    rename_i digits
    obtain ⟨_, hread, rfl⟩ := Option.map_eq_some_iff.mp hvalue
    obtain ⟨n, hn, hcast⟩ := Option.bind_eq_some_iff.mp hread
    obtain rfl := Option.some.inj hcast
    obtain ⟨hdigits, rfl⟩ := digits?_eq_some_iff.mp hn
  · exact ⟨true, digits, .minus hdigits, hfits, rfl⟩
  · exact ⟨false, digits, .plus hdigits, hfits, rfl⟩
  · exact ⟨false, _, .bare hdigits, hfits, rfl⟩

theorem double?_of_signedDigits {cs digits : List Char} {negative : Bool}
    (h : SignedDigits cs negative digits) :
    double? cs = Binary64.ofDecimal negative (Decimal.ofDigitChars digits) 0 := by
  have hparts (hd : IsDigits digits) : decimalParts? digits = some (digits, [], 0) := by
    simpa [fractionText, powerText] using
      @decimalParts?_parts digits none none hd (by simp) (by simp)
  cases h with
  | bare hd =>
    have hhead := @head?_append_digits cs [] hd
    rw [List.append_nil] at hhead
    simp [double?_of_head? hhead, hparts hd]
  | plus hd => simp [double?, hparts hd]
  | minus hd => simp [double?, hparts hd]

/-- A text of a whole number that fits a signed word denotes the nearest double, but that zero may
have either sign. -/
theorem double?_of_int64? {cs : List Char} {i : Int} (h : int64? cs = some i) :
    fitsInt64 i = true ∧ ∃ x, double? cs = some x ∧ x.equal (Binary64.ofInt i) = true := by
  obtain ⟨negative, digits, hcs, hfits, rfl⟩ := int64?_eq_some h
  refine ⟨hfits, ?_⟩
  simp only [fitsInt64, Bool.and_eq_true, decide_eq_true_eq] at hfits
  have hword : Decimal.ofDigitChars digits ≤ 2 ^ 64 := by
    cases negative <;> simp at hfits <;> omega
  refine ⟨_, (double?_of_signedDigits hcs).trans (Binary64.ofDecimal_word hword negative), ?_⟩
  generalize Decimal.ofDigitChars digits = n
  cases negative with
  | true =>
    rcases Nat.eq_zero_or_pos n with rfl | hn
    · rfl
    · simp [Binary64.equal, Binary64.key, Binary64.ofInt, hn]
  | false => simp [Binary64.equal, Binary64.key, Binary64.ofInt]

theorem isBlank_of_isNumberPart {c : Char} (h : Decimal.isNumberPart c = true) :
    isBlank c = false := by
  simp only [Decimal.isNumberPart, Bool.or_eq_true, beq_iff_eq] at h
  rcases h with (((h | rfl) | rfl) | rfl) | rfl
  · simp only [Char.isDigit, Bool.and_eq_true, decide_eq_true_eq, ge_iff_le] at h
    have hlow : 48 ≤ c.toNat := h.1
    have hhigh : c.toNat ≤ 57 := h.2
    simp [isBlank]
    omega
  all_goals rfl

theorem trim_of_isBlank {cs : List Char} (h : ∀ c ∈ cs, isBlank c = false) : trim cs = cs := by
  have hstart {ds : List Char} (hd : ∀ c ∈ ds, isBlank c = false) : trimStart ds = ds := by
    cases ds with
    | nil => rfl
    | cons c ds => rw [trimStart, List.dropWhile_cons_of_neg (by simp [hd c List.mem_cons_self])]
  rw [trim, hstart h, hstart fun c hc => h c (List.mem_reverse.mp hc), List.reverse_reverse]

end Text

namespace Number

theorem trim_text (n : Number) : Text.trim n.text = n.text :=
  Text.trim_of_isBlank fun c hc => Text.isBlank_of_isNumberPart (n.isNumberPart_text c hc)

/-- The text of a number denotes the double nearest to it. -/
theorem double?_text (n : Number) : Text.double? n.text = some n.toBinary64 := by
  cases n with
  | int i =>
    have hword : i.val.natAbs ≤ 2 ^ 64 := by
      have := i.lower
      have := i.upper
      omega
    have hdenotes : (Numeral.ofInt i.val).Denotes ⟨i.val.natAbs, 0⟩ := by
      intro negative
      simp [Numeral.ofInt, Decimal.ofDigitChars_digitChars]
    rw [text, ← text_ofInt, Text.double?_numeral (ofInt_isProper _) hdenotes]
    exact Binary64.ofDecimal_int hword
  | real x =>
    obtain ⟨m, hm, hs, ht, hdenotes⟩ := Decimal.text_numeral .plain (Decimal.shortest x)
    have htext : Numeral.text { m with negative := x.negative } = (Number.real x).text := by
      rw [text_withSign hs, ht]
      rfl
    have hdouble := Text.double?_numeral (n := { m with negative := x.negative }) (hm.withSign _)
      hdenotes
    rw [← htext, hdouble]
    exact Decimal.shortest_readsBack x

end Number

end Bylaw
