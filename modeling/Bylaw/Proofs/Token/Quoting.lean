import Bylaw.Proofs.Token.Spelling
import Bylaw.Proofs.Text.Reading
import Bylaw.Rule.Printer

/-! Strings, objects and patterns in front of other text: each is read to the character that closes
it, whatever follows. -/

namespace Bylaw.Token

theorem escape_cases (c : Char) :
    (∃ e, Json.escape c = ['\\', e] ∧ e ≠ 'u' ∧ plainEscape e = c ∧ Json.simpleEscape? e = some c) ∨
    (Json.escape c =
        ['\\', 'u', '0', '0', Json.hexDigit (c.toNat / 16), Json.hexDigit (c.toNat % 16)] ∧
      c.toNat < 0x20) ∨
    (Json.escape c = [c] ∧ c ≠ '"' ∧ c ≠ '\\' ∧ 0x20 ≤ c.toNat) := by
  by_cases hs : c ∈ ['"', '\\', '\n', '\r', '\t', '\x08', '\x0c']
  · left
    simp only [List.mem_cons, List.not_mem_nil, or_false] at hs
    rcases hs with rfl | rfl | rfl | rfl | rfl | rfl | rfl <;>
      exact ⟨_, rfl, by decide, rfl, rfl⟩
  · right
    simp only [List.mem_cons, List.not_mem_nil, or_false, not_or] at hs
    obtain ⟨hq, hb, hn, hr, ht, h8, hc⟩ := hs
    by_cases hlt : c.toNat < 0x20
    · left
      simp [Json.escape, *]
    · right
      refine ⟨?_, hq, hb, by omega⟩
      simp only [Json.escape, *, if_false]

theorem escapedChar?_hexDigit :
    ∀ n < 0x20, escapedChar? ['0', '0', Json.hexDigit (n / 16), Json.hexDigit (n % 16)] =
      some (.ofNat n) := by
  decide

section

variable {quote : Char} {cs rest after : List Char}

theorem quotedBody_plain {c : Char} (hq : c ≠ quote) (hn : c ≠ '\n') (hb : c ≠ '\\')
    (h : Yields (quotedBody quote rest) cs after) :
    Yields (quotedBody quote (c :: rest)) (c :: cs) after := by
  obtain ⟨hlt, h⟩ := h
  refine ⟨Nat.lt_succ_of_lt hlt, ?_⟩
  rw [quotedBody.eq_def]
  simp only [hq, hn, hb, if_false, h]
  rfl

theorem quotedBody_escaped {e : Char} (hq : '\\' ≠ quote) (he : e ≠ 'u')
    (h : Yields (quotedBody quote rest) cs after) :
    Yields (quotedBody quote ('\\' :: e :: rest)) (plainEscape e :: cs) after := by
  obtain ⟨hlt, h⟩ := h
  refine ⟨Nat.lt_succ_of_lt (Nat.lt_succ_of_lt hlt), ?_⟩
  rw [quotedBody.eq_def]
  simp only [hq, Char.reduceEq, if_false, if_true, h]
  rfl

theorem quotedBody_numbered {a b d e ch : Char} (hq : '\\' ≠ quote)
    (he : escapedChar? [a, b, d, e] = some ch) (h : Yields (quotedBody quote rest) cs after) :
    Yields (quotedBody quote ('\\' :: 'u' :: a :: b :: d :: e :: rest)) (ch :: cs) after := by
  obtain ⟨hlt, h⟩ := h
  have hlt' : after.length < ('\\' :: 'u' :: a :: b :: d :: e :: rest).length := by
    simp only [List.length_cons]
    omega
  refine ⟨hlt', ?_⟩
  have hdrop : quotedBody quote ((a :: b :: d :: e :: rest).drop 4) = .ok ⟨cs, after, hlt⟩ := h
  rw [quotedBody.eq_def]
  simp only [hq, Char.reduceEq, if_false, if_true, List.take_succ_cons, List.take_zero, he]
  rw [hdrop]

theorem quotedBody_escape (c : Char) (h : Yields (quotedBody '"' rest) cs after) :
    Yields (quotedBody '"' (Json.escape c ++ rest)) (c :: cs) after := by
  obtain ⟨e, he, hu, rfl, -⟩ | ⟨he, hc⟩ | ⟨he, hq, hb, hc⟩ := escape_cases c
  · rw [he]
    exact quotedBody_escaped (by decide) hu h
  · have hnumber := escapedChar?_hexDigit c.toNat hc
    rw [Char.ofNat_toNat] at hnumber
    rw [he]
    exact quotedBody_numbered (by decide) hnumber h
  · rw [he]
    refine quotedBody_plain hq ?_ hb h
    rintro rfl
    exact absurd hc (by decide)

theorem quotedBody_quote (s : List Char) (rest : List Char) :
    Yields (quotedBody '"' (s.flatMap Json.escape ++ '"' :: rest)) s rest := by
  induction s with
  | nil =>
    rw [List.flatMap_nil, List.nil_append]
    refine ⟨Nat.lt_succ_self _, ?_⟩
    rw [quotedBody.eq_def]
    rfl
  | cons c s ih =>
    rw [List.flatMap_cons, List.append_assoc]
    exact quotedBody_escape c ih

end

/-- A token is the first thing read of a text, wherever the text stands, and leaves a rest. -/
def Fronts (cs : List Char) (t : Token) (rest : List Char) : Prop :=
  ∃ c more, cs = c :: more ∧ ∀ afterMatches, Yields (scan afterMatches c more) t rest

/-- A token in front of a text that is neither a blank nor the beginning of a comment. -/
theorem Fronts.spells {c : Char} {cs rest : List Char} {t : Token}
    (h : Fronts (c :: cs ++ rest) t rest) (hb : isBlank c = false) (hh : c ≠ '#') (hs : c ≠ '/')
    (ha : allowsPattern t = false) : Spells (c :: cs) [t] rest := by
  obtain ⟨d, more, heq, hscan⟩ := h
  obtain ⟨rfl, rfl⟩ := List.cons.inj heq
  exact Spells.of_scan (skipTrivia_of_ne hb hh fun h => absurd h hs) (hscan false) ha

theorem fronts_quote (s : String) (rest : List Char) :
    Fronts (Json.quote s ++ rest) (.str s) rest := by
  obtain ⟨hlt, h⟩ := quotedBody_quote s.toList rest
  refine ⟨'"', s.toList.flatMap Json.escape ++ '"' :: rest, by simp [Json.quote],
    fun afterMatches => ⟨Nat.lt_succ_of_lt hlt, ?_⟩⟩
  simp [scan, h, Reading.map, Reading.behind]

theorem Spells.quote (s : String) (rest : List Char) : Spells (Json.quote s) [.str s] rest :=
  (fronts_quote s rest).spells rfl (by decide) (by decide) rfl

/-- A text that takes the reading of a block from one mode to another, under any number of open
braces. -/
def Moves (mode mode' : BlockMode) (cs : List Char) : Prop :=
  ∀ (opened : Nat) (rest v after : List Char), Yields (blockBody opened mode' rest) v after →
    Yields (blockBody opened mode (cs ++ rest)) (cs ++ v) after

/-- A text that closes a block. -/
structure Closes (cs : List Char) : Prop where
  outer : ∀ rest, Yields (blockBody 0 .outside (cs ++ rest)) cs rest
  inner : ∀ (opened : Nat) (rest v after : List Char),
    Yields (blockBody opened .outside rest) v after →
      Yields (blockBody (opened + 1) .outside (cs ++ rest)) (cs ++ v) after

theorem Moves.nil (mode : BlockMode) : Moves mode mode [] := by
  intro opened rest v after h
  exact h

theorem Moves.append {mode mode' mode'' : BlockMode} {cs ds : List Char} (h : Moves mode mode' cs)
    (h' : Moves mode' mode'' ds) : Moves mode mode'' (cs ++ ds) := by
  intro opened rest v after hr
  rw [List.append_assoc, List.append_assoc]
  exact h opened _ _ _ (h' opened rest v after hr)

theorem Moves.cons {mode mode' mode'' : BlockMode} {c : Char} {cs : List Char}
    (h : Moves mode mode' [c]) (h' : Moves mode' mode'' cs) : Moves mode mode'' (c :: cs) :=
  Moves.append h h'

theorem Moves.closes {cs ds : List Char} (h : Moves .outside .outside cs) (h' : Closes ds) :
    Closes (cs ++ ds) := by
  constructor
  · intro rest
    rw [List.append_assoc]
    exact h 0 _ _ _ (h'.outer rest)
  · intro opened rest v after hr
    rw [List.append_assoc, List.append_assoc]
    exact h (opened + 1) _ _ _ (h'.inner opened rest v after hr)

theorem closes_brace : Closes ['\x7d'] := by
  constructor
  · intro rest
    refine ⟨Nat.lt_succ_self _, ?_⟩
    rw [blockBody.eq_def]
    rfl
  · intro opened rest v after h
    obtain ⟨hlt, h⟩ := h
    refine ⟨Nat.lt_succ_of_lt hlt, ?_⟩
    rw [blockBody.eq_def]
    simp [h, Reading.map, Reading.behind]

theorem Closes.moves {cs : List Char} (h : Closes cs) :
    Moves .outside .outside ('\x7b' :: cs) := by
  intro opened rest v after hr
  obtain ⟨hlt, hi⟩ := h.inner opened rest v after hr
  refine ⟨Nat.lt_succ_of_lt hlt, ?_⟩
  rw [blockBody.eq_def]
  simp [hi, Reading.map, Reading.behind]

theorem moves_plain {c : Char} (hq : c ≠ '"') (ho : c ≠ '\x7b') (hc : c ≠ '\x7d') :
    Moves .outside .outside [c] := by
  intro opened rest v after h
  obtain ⟨hlt, h⟩ := h
  refine ⟨Nat.lt_succ_of_lt hlt, ?_⟩
  rw [blockBody.eq_def]
  simp [hq, ho, hc, h, Reading.map, Reading.behind]

theorem moves_all {cs : List Char}
    (h : cs.all (fun c => c != '"' && c != '\x7b' && c != '\x7d') = true) :
    Moves .outside .outside cs := by
  induction cs with
  | nil => exact Moves.nil _
  | cons c cs ih =>
    simp only [List.all_cons, Bool.and_eq_true, bne_iff_ne] at h
    obtain ⟨⟨⟨hq, ho⟩, hc⟩, hall⟩ := h
    exact (moves_plain hq ho hc).cons (ih (by simpa using hall))

theorem moves_quoteMark : Moves .outside .inString ['"'] ∧ Moves .inString .outside ['"'] := by
  constructor <;>
  · intro opened rest v after h
    obtain ⟨hlt, h⟩ := h
    refine ⟨Nat.lt_succ_of_lt hlt, ?_⟩
    rw [blockBody.eq_def]
    simp [h, Reading.map, Reading.behind]

theorem moves_inString {c : Char} (hq : c ≠ '"') (hb : c ≠ '\\') :
    Moves .inString .inString [c] := by
  intro opened rest v after h
  obtain ⟨hlt, h⟩ := h
  refine ⟨Nat.lt_succ_of_lt hlt, ?_⟩
  rw [blockBody.eq_def]
  simp [hq, hb, h, Reading.map, Reading.behind]

theorem moves_escaped (e : Char) : Moves .inString .inString ['\\', e] := by
  have hfirst : Moves .inString .escaped ['\\'] := by
    intro opened rest v after h
    obtain ⟨hlt, h⟩ := h
    refine ⟨Nat.lt_succ_of_lt hlt, ?_⟩
    rw [blockBody.eq_def]
    simp [h, Reading.map, Reading.behind]
  have hsecond : Moves .escaped .inString [e] := by
    intro opened rest v after h
    obtain ⟨hlt, h⟩ := h
    refine ⟨Nat.lt_succ_of_lt hlt, ?_⟩
    rw [blockBody.eq_def]
    simp [h, Reading.map, Reading.behind]
  exact hfirst.cons hsecond

theorem hexDigit_ne : ∀ n < 0x20, Json.hexDigit (n / 16) ≠ '"' ∧ Json.hexDigit (n / 16) ≠ '\\' ∧
    Json.hexDigit (n % 16) ≠ '"' ∧ Json.hexDigit (n % 16) ≠ '\\' := by
  decide

theorem moves_escape (c : Char) : Moves .inString .inString (Json.escape c) := by
  obtain ⟨e, he, -⟩ | ⟨he, hc⟩ | ⟨he, hq, hb, -⟩ := escape_cases c
  · rw [he]
    exact moves_escaped e
  · obtain ⟨hq, hb, hq', hb'⟩ := hexDigit_ne c.toNat hc
    rw [he]
    exact (moves_escaped 'u').append ((moves_inString (by decide) (by decide)).cons
      ((moves_inString (by decide) (by decide)).cons
        ((moves_inString hq hb).cons (moves_inString hq' hb'))))
  · rw [he]
    exact moves_inString hq hb

/-- A block is read past a string in it. -/
theorem moves_quote (s : String) : Moves .outside .outside (Json.quote s) := by
  have hbody (cs : List Char) : Moves .inString .inString (cs.flatMap Json.escape) := by
    induction cs with
    | nil => exact Moves.nil _
    | cons c cs ih => exact (moves_escape c).append ih
  exact moves_quoteMark.1.cons ((hbody s.toList).append moves_quoteMark.2)

theorem ne_of_isNumberPart {c d : Char} (h : Decimal.isNumberPart c)
    (hd : Decimal.isNumberPart d = false) : c ≠ d := by
  rintro rfl
  rw [h] at hd
  cases hd

theorem closes_entry {k : String} {v : Json} {fs : List (String × Json)}
    (hv : Moves .outside .outside v.text) (hfs : Closes (Json.textFields fs)) :
    Closes (Json.quote k ++ ':' :: (v.text ++ Json.textFields fs)) := by
  have hcolon : Moves .outside .outside [':'] :=
    moves_plain (by decide) (by decide) (by decide)
  exact (moves_quote k).closes (hcolon.closes (hv.closes hfs))

mutual

theorem moves_json (v : Json) : Moves .outside .outside v.text := by
  -- No literal but a string has a quote or a brace in its text.
  match v with
  | .null => exact moves_all (by decide)
  | .bool true => exact moves_all (by decide)
  | .bool false => exact moves_all (by decide)
  | .num n =>
    refine moves_all (List.all_eq_true.mpr fun c hc => ?_)
    have hpart := n.isNumberPart_text c hc
    simp only [Bool.and_eq_true, bne_iff_ne]
    exact ⟨⟨ne_of_isNumberPart hpart rfl, ne_of_isNumberPart hpart rfl⟩,
      ne_of_isNumberPart hpart rfl⟩
  | .str s => exact moves_quote s
  | .arr [] => exact moves_all (by decide)
  | .arr (x :: xs) =>
    rw [Json.text]
    exact (moves_plain (by decide) (by decide) (by decide)).cons
      ((moves_json x).append (moves_items xs))
  | .obj [] =>
    rw [Json.text]
    exact closes_brace.moves
  | .obj ((k, v) :: fs) =>
    rw [Json.text]
    exact (closes_entry (moves_json v) (closes_fields fs)).moves

theorem moves_items (xs : List Json) : Moves .outside .outside (Json.textItems xs) := by
  match xs with
  | [] => exact moves_all (by decide)
  | x :: xs =>
    rw [Json.textItems]
    exact (moves_plain (by decide) (by decide) (by decide)).cons
      ((moves_json x).append (moves_items xs))

theorem closes_fields (fs : List (String × Json)) : Closes (Json.textFields fs) := by
  match fs with
  | [] => exact closes_brace
  | (k, v) :: fs =>
    rw [Json.textFields]
    have hcomma : Moves .outside .outside [','] :=
      moves_plain (by decide) (by decide) (by decide)
    exact hcomma.closes (closes_entry (moves_json v) (closes_fields fs))

end

theorem fronts_block {cs : List Char} (h : Closes cs) (rest : List Char) :
    Fronts ('\x7b' :: cs ++ rest) (.block (.ofList ('\x7b' :: cs))) rest := by
  obtain ⟨hlt, h⟩ := h.outer rest
  refine ⟨'\x7b', cs ++ rest, rfl, fun afterMatches => ⟨Nat.lt_succ_of_lt hlt, ?_⟩⟩
  simp [scan, h, Reading.map, Reading.behind]

/-- The text of an object is a brace and what closes it. -/
theorem exists_closes (fields : List (String × Json)) :
    ∃ cs, (Json.obj fields).text = '\x7b' :: cs ∧ Closes cs := by
  cases fields with
  | nil => exact ⟨_, by rw [Json.text], closes_brace⟩
  | cons field fields =>
    exact ⟨_, by rw [Json.text], closes_entry (moves_json field.2) (closes_fields fields)⟩

theorem fronts_object (fields : List (String × Json)) (rest : List Char) :
    Fronts ((Json.obj fields).text ++ rest) (.block (Json.obj fields).compact) rest := by
  obtain ⟨cs, htext, hcloses⟩ := exists_closes fields
  rw [Json.compact, htext]
  exact fronts_block hcloses rest

theorem Spells.object (fields : List (String × Json)) (rest : List Char) :
    Spells (Json.obj fields).text [.block (Json.obj fields).compact] rest := by
  have hfronts := fronts_object fields rest
  obtain ⟨cs, htext, -⟩ := exists_closes fields
  rw [htext] at hfronts ⊢
  exact hfronts.spells rfl (by decide) (by decide) rfl

/-- The text of a string is read as that string, and the text of an object as a block of just that
text, whatever follows: nothing of either is left, and nothing after it is taken. -/
theorem serialized_fronts :
    (∀ (s : String) (rest : List Char), Fronts ((Json.str s).text ++ rest) (.str s) rest) ∧
      ∀ (fields : List (String × Json)) (rest : List Char),
        Fronts ((Json.obj fields).text ++ rest) (.block (Json.obj fields).compact) rest :=
  ⟨fun s rest => by rw [Json.text]; exact fronts_quote s rest, fronts_object⟩

/-- The characters of a pattern as they stand between slashes. -/
def slashText (cs : List Char) : List Char :=
  cs.flatMap fun c => if c = '/' then ['\\', '/'] else [c]

/-- The sources of the patterns that can stand between slashes: those in which a backslash takes up
the next character, no slash is taken up, and every other character does not end the line. -/
inductive Slashed : List Char → Prop
  | nil : Slashed []
  | plain {c : Char} {cs : List Char} (hn : c ≠ '\n') (hb : c ≠ '\\') (h : Slashed cs) :
      Slashed (c :: cs)
  | escaped {e : Char} {cs : List Char} (he : e ≠ '/') (h : Slashed cs) :
      Slashed ('\\' :: e :: cs)

/-- What is read between slashes can stand between slashes. -/
theorem slashed_of_patternBody {cs v rest : List Char} (h : Yields (patternBody cs) v rest) :
    Slashed v := by
  obtain ⟨hlt, h⟩ := h
  fun_induction patternBody cs generalizing v rest with
  | case1 => cases h
  | case2 more =>
    cases h
    exact .nil
  | case3 => cases h
  | case4 => cases h
  | case5 e more r hr hs hn ih =>
    cases h
    simp only [Reading.map, Reading.behind]
    split
    · rename_i he
      exact .plain (by decide) (by decide) (ih _ hr)
    · rename_i he
      exact .escaped he (ih _ hr)
  | case6 => cases h
  | case7 c more hs hn hb r hr ih =>
    cases h
    exact .plain hn hb (ih _ hr)
  | case8 => cases h

theorem patternBody_plain {c : Char} {cs rest after : List Char} (hs : c ≠ '/') (hn : c ≠ '\n')
    (hb : c ≠ '\\') (h : Yields (patternBody rest) cs after) :
    Yields (patternBody (c :: rest)) (c :: cs) after := by
  obtain ⟨hlt, h⟩ := h
  refine ⟨Nat.lt_succ_of_lt hlt, ?_⟩
  rw [patternBody.eq_def]
  simp only [hs, hn, hb, if_false, h]
  rfl

theorem patternBody_escaped {cs rest after : List Char} (e : Char)
    (h : Yields (patternBody rest) cs after) :
    Yields (patternBody ('\\' :: e :: rest))
      (if e = '/' then '/' :: cs else '\\' :: e :: cs) after := by
  obtain ⟨hlt, h⟩ := h
  refine ⟨Nat.lt_succ_of_lt (Nat.lt_succ_of_lt hlt), ?_⟩
  rw [patternBody.eq_def]
  simp only [Char.reduceEq, if_false, if_true, h]
  rfl

theorem patternBody_slashText {cs : List Char} (hcs : Slashed cs) (rest : List Char) :
    Yields (patternBody (slashText cs ++ '/' :: rest)) cs rest := by
  induction hcs with
  | nil =>
    refine ⟨Nat.lt_succ_self _, ?_⟩
    rw [patternBody.eq_def]
    rfl
  | @plain c cs hn hb _ ih =>
    rw [slashText, List.flatMap_cons, List.append_assoc]
    by_cases hc : c = '/'
    · subst hc
      exact patternBody_escaped '/' ih
    · rw [if_neg hc]
      exact patternBody_plain hc hn hb ih
  | @escaped e cs he _ ih =>
    have htext : slashText ('\\' :: e :: cs) = '\\' :: e :: slashText cs := by
      simp [slashText, he]
    have hvalue := patternBody_escaped e ih
    rw [if_neg he] at hvalue
    rw [htext]
    exact hvalue

/-- The text between slashes begins no comment unless it is empty. -/
theorem head?_slashText {cs : List Char} (hne : cs ≠ []) (rest : List Char) :
    (slashText cs ++ rest).head? ≠ some '/' := by
  cases cs with
  | nil => exact absurd rfl hne
  | cons c cs =>
    rw [slashText, List.flatMap_cons]
    split
    · simp
    · rename_i hc
      simpa using hc

/-- Two slashes begin no comment on a line that a carriage return spoils. -/
theorem skipTrivia_slashes {rest : List Char} (h : dropLine rest = none) :
    skipTrivia ('/' :: '/' :: rest) = '/' :: '/' :: rest :=
  skipTrivia_of_token rfl h

/-- A pattern between slashes, after the word that calls for it. The slashes of an empty one must
not begin a comment. -/
theorem Spells.pattern {cs : List Char} (hcs : Slashed cs) {rest : List Char}
    (hempty : cs = [] → dropLine rest = none) :
    Spells ("MATCHES ".toList ++ ('/' :: (slashText cs ++ ['/'])))
      [.word "MATCHES", .pattern (.ofList cs)] rest := by
  obtain ⟨hlt, h⟩ := patternBody_slashText hcs rest
  have hskip : skipTrivia ('/' :: (slashText cs ++ '/' :: rest)) =
      '/' :: (slashText cs ++ '/' :: rest) := by
    by_cases hne : cs = []
    · subst hne
      exact skipTrivia_slashes (hempty rfl)
    · exact skipTrivia_of_ne rfl (by decide) fun _ => head?_slashText hne _
  have hslash : tokens true ('/' :: (slashText cs ++ '/' :: rest)) =
      (tokens false rest).map (.pattern (.ofList cs) :: ·) := by
    rw [tokens_of_skipTrivia hskip]
    simp [scan, h, Reading.map, Reading.behind, allowsPattern]
  have htext : "MATCHES ".toList ++ ('/' :: (slashText cs ++ ['/'])) ++ rest =
      "MATCHES".toList ++ ' ' :: '/' :: (slashText cs ++ '/' :: rest) := by
    simp
  rw [Spells, htext, tokens_word rfl (stops_cons _ rfl)]
  show (tokens true (' ' :: '/' :: (slashText cs ++ '/' :: rest))).map _ = _
  rw [tokens_blank rfl, hslash]
  cases tokens false rest <;> rfl

end Bylaw.Token
