import Bylaw.Proofs.Token.Stream
import Bylaw.Proofs.Number.Decimal

/-! Words, symbols and numbers in front of other text. A word or a number ends where no letter,
digit, underscore or point follows; a symbol that is written in one character ends by itself. -/

namespace Bylaw.Token

/-- Whether a text ends a word or a number before it. -/
def Stops (rest : List Char) : Prop := ∀ c ∈ rest.head?, isWordPart c = false

theorem stops_nil : Stops [] := by
  intro c hc
  cases hc

theorem stops_cons {c : Char} (rest : List Char) (h : isWordPart c = false) :
    Stops (c :: rest) := by
  intro d hd
  obtain rfl := Option.some.inj hd
  exact h

/-- Whether a text is one word. -/
def isWord (w : String) : Bool :=
  match w.toList with
  | [] => false
  | c :: rest => isWordStart c && rest.all isWordPart

theorem isWord_iff {w : String} :
    isWord w = true ↔
      ∃ c rest, w.toList = c :: rest ∧ isWordStart c = true ∧ ∀ d ∈ rest, isWordPart d = true := by
  unfold isWord
  cases w.toList with
  | nil => simp
  | cons c rest => simp

theorem isWordPart_of_isWordStart {c : Char} (h : isWordStart c) : isWordPart c := by
  simp only [isWordStart, isWordPart, Char.isAlphanum, Bool.or_eq_true] at *
  rcases h with h | h
  · exact .inl (.inl (.inl h))
  · exact .inl (.inr h)

/-- Words begin with no character that begins another token. -/
theorem isDigit_of_isWordStart {c : Char} (h : isWordStart c) : c.isDigit = false := by
  simp only [isWordStart, Bool.or_eq_true, beq_iff_eq] at h
  rcases h with h | rfl
  · have hupper : c.isUpper = decide (65 ≤ c.val ∧ c.val ≤ 90) := rfl
    have hlower : c.isLower = (decide (97 ≤ c.val) && decide (c.val ≤ 122)) := rfl
    have halpha : c.isAlpha = (c.isUpper || c.isLower) := rfl
    have hdigit : c.isDigit = (decide (48 ≤ c.val) && decide (c.val ≤ 57)) := rfl
    rw [halpha, hupper, hlower] at h
    rw [hdigit]
    grind
  · rfl

theorem ne_of_isWordStart {c d : Char} (h : isWordStart c) (hd : isWordStart d = false) :
    c ≠ d := by
  rintro rfl
  rw [h] at hd
  cases hd

theorem ne_of_isDigit {c d : Char} (h : c.isDigit) (hd : d.isDigit = false) : c ≠ d := by
  rintro rfl
  rw [h] at hd
  cases hd

theorem isWordPart_of_isDigit {c : Char} (h : c.isDigit) : isWordPart c := by
  simp [isWordPart, Char.isAlphanum, h]

theorem isBlank_of_ne {c : Char} (h : c ≠ ' ') (ht : c ≠ '\t') (hr : c ≠ '\r') (hn : c ≠ '\n') :
    isBlank c = false := by
  simp [isBlank, h, ht, hr, hn]

theorem skipTrivia_of_isWordStart {c : Char} (h : isWordStart c) (rest : List Char) :
    skipTrivia (c :: rest) = c :: rest := by
  apply skipTrivia_of_ne
  · exact isBlank_of_ne (ne_of_isWordStart h rfl) (ne_of_isWordStart h rfl)
      (ne_of_isWordStart h rfl) (ne_of_isWordStart h rfl)
  · exact ne_of_isWordStart h rfl
  · intro hc
    exact absurd hc (ne_of_isWordStart h rfl)

theorem skipTrivia_of_isDigit {c : Char} (h : c.isDigit) (rest : List Char) :
    skipTrivia (c :: rest) = c :: rest := by
  apply skipTrivia_of_ne
  · exact isBlank_of_ne (ne_of_isDigit h rfl) (ne_of_isDigit h rfl)
      (ne_of_isDigit h rfl) (ne_of_isDigit h rfl)
  · exact ne_of_isDigit h rfl
  · intro hc
    exact absurd hc (ne_of_isDigit h rfl)

theorem span_append {p : Char → Bool} {cs rest : List Char} (hcs : ∀ c ∈ cs, p c)
    (h : ∀ c ∈ rest.head?, p c = false) :
    (cs ++ rest).takeWhile p = cs ∧ (cs ++ rest).dropWhile p = rest := by
  rw [List.takeWhile_append_of_pos hcs, List.dropWhile_append_of_pos hcs]
  cases rest with
  | nil => simp
  | cons c rest => simp [h c rfl]

theorem scan_word {c : Char} {cs rest : List Char} (hc : isWordStart c)
    (hcs : ∀ d ∈ cs, isWordPart d) (h : Stops rest) :
    ∃ hlt, scan false c (cs ++ rest) = .ok ⟨.word (.ofList (c :: cs)), rest, hlt⟩ := by
  obtain ⟨htake, hdrop⟩ := span_append hcs h
  have hlt : rest.length < (c :: (cs ++ rest)).length := by
    simp only [List.length_cons, List.length_append]
    omega
  refine ⟨hlt, ?_⟩
  have hq : (c == '"' || c == '\'') = false := by
    simp [ne_of_isWordStart hc (d := '"') rfl, ne_of_isWordStart hc (d := '\'') rfl]
  have hb : (c == '\x7b') = false := by simp [ne_of_isWordStart hc (d := '\x7b') rfl]
  simp only [scan, Bool.false_and, hq, hb, isDigit_of_isWordStart hc, hc, scanWord, htake, hdrop]
  simp

theorem tokens_word {w : String} {rest : List Char} (hw : isWord w) (h : Stops rest)
    (afterMatches : Bool) :
    tokens afterMatches (w.toList ++ rest) =
      (tokens (allowsPattern (.word w)) rest).map (.word w :: ·) := by
  obtain ⟨c, cs, hcs, hc, hpart⟩ := isWord_iff.mp hw
  obtain ⟨hlt, hs⟩ := scan_word hc hpart h
  have ham : scan afterMatches c (cs ++ rest) = scan false c (cs ++ rest) := by
    simp [scan, ne_of_isWordStart hc (d := '/') rfl]
  rw [hcs, List.cons_append, tokens_of_skipTrivia (skipTrivia_of_isWordStart hc _), ham, hs]
  simp only [← hcs, String.ofList_toList]

theorem Spells.word {w : String} {rest : List Char} (hw : isWord w) (hm : w ≠ "MATCHES")
    (h : Stops rest) : Spells w.toList [.word w] rest := by
  have ha : allowsPattern (.word w) = false := by simp [allowsPattern, hm]
  rw [Spells, tokens_word hw h, ha]
  rfl

/-- The symbols that are no beginning of another one, and that begin no comment. -/
def endsItself : Symbol → Bool
  | .plus | .minus | .star | .openParen | .closeParen | .comma | .semicolon | .pipe => true
  | _ => false

/-- A symbol ends where a blank follows, if it does not end by itself. -/
theorem Spells.symbol {s : Symbol} {rest : List Char}
    (h : endsItself s = true ∨ rest.head? = some ' ') :
    Spells s.text.toList [.symbol s] rest := by
  -- A symbol of one character, and one of two, that begin neither a blank nor a comment.
  have hone (c : Char) (hb : isBlank c = false) (hh : c ≠ '#') (hd : c ≠ '/')
      (hs : ∃ hlt, scan false c rest = .ok ⟨.symbol s, rest, hlt⟩) :
      Spells [c] [.symbol s] rest := by
    apply Spells.of_scan
    · exact skipTrivia_of_ne hb hh fun hc => absurd hc hd
    · exact hs
    · rfl
  have htwo (c d : Char) (hb : isBlank c = false) (hh : c ≠ '#') (hd : c ≠ '/')
      (hs : ∃ hlt, scan false c ([d] ++ rest) = .ok ⟨.symbol s, rest, hlt⟩) :
      Spells [c, d] [.symbol s] rest := by
    apply Spells.of_scan
    · exact skipTrivia_of_ne hb hh fun hc => absurd hc hd
    · exact hs
    · rfl
  -- Symbols that could go on are followed by a blank.
  have hblank : endsItself s = false → ∃ more, rest = ' ' :: more := by
    intro hs
    rcases h with h | h
    · rw [h] at hs
      cases hs
    · exact List.head?_eq_some_iff.mp h
  cases s with
  | plus | minus | star | openParen | closeParen | comma | semicolon | pipe =>
    exact hone _ rfl (by decide) (by decide) ⟨_, rfl⟩
  | equal | greater | less =>
    obtain ⟨more, rfl⟩ := hblank rfl
    exact hone _ rfl (by decide) (by decide) ⟨_, rfl⟩
  | notEqual | greaterOrEqual | lessOrEqual =>
    exact htwo _ _ rfl (by decide) (by decide) ⟨_, rfl⟩
  -- A slash alone is one only because no second one follows.
  | slash =>
    obtain ⟨more, rfl⟩ := hblank rfl
    show Spells ['/'] [.symbol .slash] (' ' :: more)
    apply Spells.of_scan
    · exact skipTrivia_of_ne rfl (by decide) fun _ => by simp
    · exact ⟨_, rfl⟩
    · rfl

/-- The tokens of a number: its magnitude, after a sign if it is below zero. -/
def numberTokens : Number → List Token
  | .int i =>
    if i.val < 0 then [.symbol .minus, .number (.ofNat i.val.natAbs)]
    else [.number (.ofNat i.val.natAbs)]
  | .real x =>
    if x.negative then [.symbol .minus, .number (.real { x with negative := false })]
    else [.number (.real { x with negative := false })]

/-- The numbers that a text of rules can hold: whole ones whose magnitude fits a signed word, and
doubles that are written without a power of ten. -/
def isWritable : Number → Prop
  | .int i => i.val.natAbs < 0x8000000000000000
  | .real x => 'e' ∉ x.text

/-- Whether a text goes on with neither the digits nor the fraction of a number. -/
def EndsDigits (rest : List Char) : Prop := ∀ c ∈ rest.head?, c.isDigit = false ∧ c ≠ '.'

theorem Stops.endsDigits {rest : List Char} (h : Stops rest) : EndsDigits rest := by
  intro c hc
  have hpart := h c hc
  constructor
  · by_contra hd
    rw [isWordPart_of_isDigit (by simpa using hd)] at hpart
    cases hpart
  · rintro rfl
    cases hpart

/-- Whether a text goes on neither with digits nor with a point and digits. -/
structure EndsWhole (rest : List Char) : Prop where
  head : ∀ c ∈ rest.head?, c.isDigit = false
  point : ∀ more, rest = '.' :: more → ∀ c ∈ more.head?, c.isDigit = false

theorem EndsDigits.endsWhole {rest : List Char} (h : EndsDigits rest) : EndsWhole rest where
  head c hc := (h c hc).1
  point := by
    rintro more rfl
    exact absurd rfl (h '.' rfl).2

theorem splitNumber_of_endsWhole {ds rest : List Char} (hd : ∀ c ∈ ds, c.isDigit)
    (h : EndsWhole rest) : splitNumber (ds ++ rest) = (ds, none, rest) := by
  obtain ⟨htake, hdrop⟩ := span_append hd h.head
  unfold splitNumber
  rw [htake, hdrop]
  split
  · rename_i after
    have hnodigit : ∀ c ∈ ([] : List Char), c.isDigit = true := by simp
    have hnone : after.takeWhile Char.isDigit = [] := (span_append hnodigit (h.point after rfl)).1
    simp [hnone]
  · rfl

theorem splitNumber_whole {ds rest : List Char} (hd : ∀ c ∈ ds, c.isDigit) (h : EndsDigits rest) :
    splitNumber (ds ++ rest) = (ds, none, rest) :=
  splitNumber_of_endsWhole hd h.endsWhole

theorem splitNumber_fraction {ds fs rest : List Char} (hd : ∀ c ∈ ds, c.isDigit)
    (hf : ∀ c ∈ fs, c.isDigit) (hne : fs ≠ []) (h : ∀ c ∈ rest.head?, c.isDigit = false) :
    splitNumber (ds ++ '.' :: (fs ++ rest)) = (ds, some fs, rest) := by
  have hpoint : ∀ c ∈ ('.' :: (fs ++ rest)).head?, c.isDigit = false := by
    rintro c ⟨⟩
    rfl
  obtain ⟨htake, hdrop⟩ := span_append hd hpoint
  obtain ⟨htake', hdrop'⟩ := span_append hf h
  unfold splitNumber
  rw [htake, hdrop]
  simp only [htake', hdrop']
  rw [if_neg (by simpa using hne)]

theorem scan_of_isDigit {c : Char} (hc : c.isDigit) (rest : List Char) :
    scan false c rest = scanNumber c rest := by
  have hq : (c == '"' || c == '\'') = false := by
    simp [ne_of_isDigit hc (d := '"') rfl, ne_of_isDigit hc (d := '\'') rfl]
  have hb : (c == '\x7b') = false := by simp [ne_of_isDigit hc (d := '\x7b') rfl]
  simp only [scan, Bool.false_and, hq, hb, hc]
  simp

theorem Spells.of_scanNumber {c : Char} {cs rest : List Char} {n : Number} (hc : c.isDigit)
    (hs : ∃ hlt, scanNumber c (cs ++ rest) = .ok ⟨.number n, rest, hlt⟩) :
    Spells (c :: cs) [.number n] rest := by
  refine Spells.of_scan (skipTrivia_of_isDigit hc _) ?_ rfl
  rwa [scan_of_isDigit hc]

theorem Spells.whole {n : Nat} {rest : List Char} (hn : n < 0x8000000000000000)
    (h : Stops rest) : Spells (Decimal.digitChars n) [.number (.ofNat n)] rest := by
  have hdigits (c : Char) : c ∈ Decimal.digitChars n → c.isDigit :=
    Decimal.isDigit_of_mem_digitChars
  have hvalue := Decimal.ofDigitChars_digitChars n
  cases hcs : Decimal.digitChars n with
  | nil => exact absurd hcs (Decimal.digitChars_ne_nil n)
  | cons c cs =>
    rw [hcs] at hdigits hvalue
    apply Spells.of_scanNumber (hdigits c List.mem_cons_self)
    have hsplit :=
      splitNumber_whole (fun d hd => hdigits d (List.mem_cons_of_mem c hd)) h.endsDigits
    have hlt : rest.length < (c :: (cs ++ rest)).length := by
      simp only [List.length_cons, List.length_append]
      omega
    refine ⟨hlt, ?_⟩
    simp only [scanNumber, hsplit, wholeNumber?, hvalue]
    rw [if_pos hn]

theorem Spells.fractional {whole fraction rest : List Char} {x : Binary64}
    (hw : whole ≠ []) (hf : fraction ≠ []) (hd : ∀ c ∈ whole ++ fraction, c.isDigit)
    (hx : Binary64.ofDecimal false (Decimal.ofDigitChars (whole ++ fraction)) (-fraction.length) =
      some x) (h : Stops rest) :
    Spells (whole ++ '.' :: fraction) [.number (.real x)] rest := by
  cases whole with
  | nil => exact absurd rfl hw
  | cons c cs =>
    show Spells (c :: (cs ++ '.' :: fraction)) [.number (.real x)] rest
    apply Spells.of_scanNumber (hd c (by simp))
    have hsplit : splitNumber (cs ++ '.' :: fraction ++ rest) = (cs, some fraction, rest) := by
      rw [List.append_assoc, List.cons_append]
      exact splitNumber_fraction (fun d hcs => hd d (by simp [hcs]))
        (fun d hfs => hd d (by simp [hfs])) hf h.endsDigits.endsWhole.head
    have hlt : rest.length < (c :: (cs ++ '.' :: fraction ++ rest)).length := by
      simp only [List.length_cons, List.length_append]
      omega
    refine ⟨hlt, ?_⟩
    simp only [scanNumber, hsplit, fractionalNumber?, hx, Option.map_some]

theorem Spells.minus (rest : List Char) : Spells ['-'] [.symbol .minus] rest :=
  Spells.symbol (s := .minus) (.inl rfl)

theorem Spells.number {n : Number} {rest : List Char} (hn : isWritable n) (h : Stops rest) :
    Spells n.text (numberTokens n) rest := by
  cases n with
  | int i =>
    show Spells (Number.intText i.val) (numberTokens (.int i)) rest
    by_cases hi : i.val < 0
    · simp only [Number.intText, numberTokens, hi, ↓reduceIte]
      exact (Spells.minus _).append (Spells.whole hn h)
    · simp only [Number.intText, numberTokens, hi, ↓reduceIte]
      exact Spells.whole hn h
  | real x =>
    obtain ⟨whole, fraction, htext, hw, hf, hdigits, hvalue⟩ := x.text_isNumeral hn
    have hmagnitude := Spells.fractional hw hf hdigits (hvalue false) h
    show Spells x.text (numberTokens (.real x)) rest
    cases hx : x.negative with
    | true =>
      simp only [htext, numberTokens, hx, ↓reduceIte]
      exact (Spells.minus _).append hmagnitude
    | false =>
      simp only [htext, numberTokens, hx, Bool.false_eq_true, ↓reduceIte]
      exact hmagnitude

end Bylaw.Token
