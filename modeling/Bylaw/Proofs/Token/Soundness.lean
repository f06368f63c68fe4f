import Bylaw.Proofs.Token.Quoting

/-! What the tokens of a text are. Main statement: words are words, numbers fit a signed word if
they are whole, and the source of a pattern can stand between slashes. -/

namespace Bylaw.Token

/-- Whether a number is a double, or whole with a magnitude that fits a signed word. -/
def FitsWord (n : Number) : Prop := ∀ i, n = .int i → i.val.natAbs < 0x8000000000000000

theorem fitsWord_real (x : Binary64) : FitsWord (.real x) := by
  intro i h
  cases h

/-- The tokens that a text can have. -/
def IsSound : Token → Prop
  | .word w => isWord w = true
  | .number n => FitsWord n
  | .pattern source => Slashed source.toList
  | .str _ | .block _ | .symbol _ => True

theorem ofNat_eq {n : Nat} (h : n < 0x8000000000000000) :
    ∃ i : WordInt, Number.ofNat n = .int i ∧ i.val = n := by
  have hn : -0x8000000000000000 ≤ (n : Int) ∧ (n : Int) < 0x10000000000000000 := by omega
  refine ⟨⟨n, hn.1, hn.2⟩, ?_, rfl⟩
  rw [Number.ofNat, Number.ofInt, dif_pos hn]

theorem fitsWord_ofNat {n : Nat} (h : n < 0x8000000000000000) : FitsWord (.ofNat n) := by
  obtain ⟨i, hi, hval⟩ := ofNat_eq h
  intro j hj
  obtain rfl := Number.int.inj (hi.symm.trans hj)
  omega

theorem fitsWord_wholeNumber? {digits : List Char} {n : Number} (h : wholeNumber? digits = some n) :
    FitsWord n := by
  by_cases hlt : Decimal.ofDigitChars digits < 0x8000000000000000
  · rw [wholeNumber?, if_pos hlt] at h
    rw [← Option.some.inj h]
    exact fitsWord_ofNat hlt
  · rw [wholeNumber?, if_neg hlt] at h
    obtain ⟨x, -, rfl⟩ := Option.map_eq_some_iff.mp h
    exact fitsWord_real x

theorem fitsWord_fractionalNumber? {whole fraction : List Char} {n : Number}
    (h : fractionalNumber? whole fraction = some n) : FitsWord n := by
  obtain ⟨x, -, rfl⟩ := Option.map_eq_some_iff.mp h
  exact fitsWord_real x

section

variable {c : Char} {rest after : List Char} {t : Token}

theorem isSound_of_scanNumber (h : Yields (scanNumber c rest) t after) : t.IsSound := by
  unfold scanNumber at h
  simp only at h
  split at h
  · rename_i n hn
    obtain ⟨rfl, -⟩ := yields_ok.mp h
    split at hn
    · exact fitsWord_fractionalNumber? hn
    · exact fitsWord_wholeNumber? hn
  · exact absurd h yields_error

theorem isSound_of_scanSymbol (h : Yields (scanSymbol c rest) t after) : t.IsSound := by
  unfold scanSymbol at h
  split at h <;>
  first
    | (obtain ⟨rfl, -⟩ := yields_ok.mp h; exact trivial)
    | exact absurd h yields_error

theorem isSound_scanWord (hc : isWordStart c = true) : (scanWord c rest).value.IsSound := by
  refine isWord_iff.mpr ⟨c, rest.takeWhile isWordPart, String.toList_ofList, hc, ?_⟩
  exact fun d hd => List.all_eq_true.mp List.all_takeWhile d hd

theorem isSound_of_scan {afterMatches : Bool} (h : Yields (scan afterMatches c rest) t after) :
    t.IsSound := by
  unfold scan at h
  split at h
  · cases hp : patternBody rest with
    | error fault => simp [hp] at h
    | ok r =>
      simp only [hp, yields_ok, Reading.map, Reading.behind] at h
      obtain ⟨rfl, -⟩ := h
      show Slashed (String.ofList r.value).toList
      rw [String.toList_ofList]
      exact slashed_of_patternBody ⟨r.shorter, hp⟩
  split at h
  · cases hq : quotedBody c rest with
    | error fault => simp [hq] at h
    | ok r =>
      simp only [hq, yields_ok, Reading.map, Reading.behind] at h
      obtain ⟨rfl, -⟩ := h
      exact trivial
  split at h
  · cases hb : blockBody 0 .outside rest with
    | error fault => simp [hb] at h
    | ok r =>
      simp only [hb, yields_ok, Reading.map, Reading.behind] at h
      obtain ⟨rfl, -⟩ := h
      exact trivial
  split at h
  · exact isSound_of_scanNumber h
  split at h
  · rename_i hc
    obtain ⟨rfl, -⟩ := yields_ok.mp h
    exact isSound_scanWord hc
  · exact isSound_of_scanSymbol h

end

theorem isSound_of_tokens {afterMatches : Bool} {cs : List Char} {ts : List Token}
    (h : tokens afterMatches cs = .ok ts) : ∀ t ∈ ts, t.IsSound := by
  -- Each token takes up a character at least, so the induction is on their number.
  induction hn : cs.length using Nat.strong_induction_on generalizing afterMatches cs ts with
  | _ n ih =>
    cases hs : skipTrivia cs with
    | nil =>
      rw [tokens_of_skipTrivia_nil hs] at h
      obtain rfl := Except.ok.inj h
      intro t ht
      cases ht
    | cons c rest =>
      rw [tokens_of_skipTrivia hs] at h
      cases hr : scan afterMatches c rest with
      | error fault =>
        rw [hr] at h
        cases h
      | ok r =>
        simp only [hr] at h
        cases hmore : tokens (allowsPattern r.value) r.rest with
        | error fault =>
          rw [hmore] at h
          cases h
        | ok more =>
          rw [hmore] at h
          obtain rfl := Except.ok.inj h
          intro t ht
          rcases List.mem_cons.mp ht with rfl | ht
          · exact isSound_of_scan ⟨r.shorter, hr⟩
          · exact ih r.rest.length (hn ▸ length_rest_lt hs r) hmore rfl t ht

end Bylaw.Token
