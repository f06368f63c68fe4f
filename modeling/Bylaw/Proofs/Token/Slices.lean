import Bylaw.Proofs.Token.Braces
import Bylaw.Proofs.Token.Coverage

/-! Tokens read by bytes. Strings, patterns and blocks are walked through with the byte of each
character, and what is left of a text is cut off behind a byte; a cut fails where no character
begins, and so does closing a brace that is not open. Main statement: neither happens, and a text
has the same tokens by bytes as by characters, each in the bytes of its characters. -/

namespace Bylaw.Token

open Text (byteOffset between?)

section Bytes

/-- The number of bytes that characters take up. -/
def byteSize (cs : List Char) : Nat := (String.ofList cs).utf8ByteSize

/-- Characters with the bytes that they begin at, the first of them at `start`. -/
def charIndices : (start : Nat) → List Char → List (Nat × Char)
  | _, [] => []
  | start, c :: cs => (start, c) :: charIndices (start + c.utf8Size) cs

/-- A text from one of its bytes on, if a character begins there or the text ends. -/
def from? (text : String) (start : Nat) : Option String := between? text start text.utf8ByteSize

theorem byteSize_append (cs ds : List Char) : byteSize (cs ++ ds) = byteSize cs + byteSize ds := by
  rw [byteSize, String.ofList_append, String.utf8ByteSize_append, byteSize, byteSize]

theorem byteSize_nil : byteSize [] = 0 := rfl

theorem byteSize_singleton (c : Char) : byteSize [c] = c.utf8Size := String.utf8ByteSize_singleton

theorem charIndices_cons (before : List Char) (c : Char) (cs : List Char) :
    charIndices (byteSize before) (c :: cs) =
      (byteSize before, c) :: charIndices (byteSize (before ++ [c])) cs := by
  rw [charIndices, byteSize_append, byteSize_singleton]

theorem drop_charIndices (before cs : List Char) (k : Nat) :
    (charIndices (byteSize before) cs).drop k =
      charIndices (byteSize (before ++ cs.take k)) (cs.drop k) := by
  induction k generalizing before cs with
  | zero => rw [List.take_zero, List.append_nil, List.drop_zero, List.drop_zero]
  | succ k ih =>
    cases cs with
    | nil => rfl
    | cons c cs =>
      rw [charIndices_cons, List.drop_succ_cons, ih, List.drop_succ_cons, List.take_succ_cons,
        List.append_assoc, List.singleton_append]

theorem map_charIndices (start : Nat) (cs : List Char) : (charIndices start cs).map (·.2) = cs := by
  induction cs generalizing start with
  | nil => rfl
  | cons c cs ih => exact congrArg (c :: ·) (ih _)

variable {text : String} {before after : List Char}

theorem from?_eq (h : text.toList = before ++ after) :
    from? text (byteSize before) = some (.ofList after) := by
  have hcut := Text.between?_append (.ofList before) (.ofList after) ""
  rw [String.append_empty, ← String.ofList_append, ← h, String.ofList_toList] at hcut
  exact hcut

theorem between?_zero (h : text.toList = before ++ after) :
    between? text 0 (byteSize before) = some (.ofList before) := by
  have hcut := Text.between?_append "" (.ofList before) (.ofList after)
  rw [String.empty_append, ← String.ofList_append, ← h, String.ofList_toList] at hcut
  exact hcut

end Bytes

section Readers

/-- The characters of a string, `out` being those so far, and the text behind its closing quote. -/
def quotedFrom? (text : String) (quote : Char) (out : List Char) :
    List (Nat × Char) → Option (Except Fault (List Char × String))
  | [] => some (.error .unterminatedString)
  | (i, c) :: chars =>
    if c = quote then (from? text (i + c.utf8Size)).map fun rest => .ok (out, rest)
    else if c = '\n' then some (.error .unterminatedString)
    else if c = '\\' then
      match chars with
      | [] => some (.error .unterminatedString)
      | (_, 'u') :: chars =>
        let digits := (chars.take 4).map (·.2)
        match escapedChar? digits with
        | none => some (.error (.badEscape (.ofList digits)))
        | some ch => quotedFrom? text quote (out ++ [ch]) (chars.drop 4)
      | (_, e) :: chars => quotedFrom? text quote (out ++ [plainEscape e]) chars
    else quotedFrom? text quote (out ++ [c]) chars
  termination_by chars => chars.length

/-- The source of a pattern, and the text behind its closing slash, which is one byte. -/
def patternFrom? (text : String) (out : List Char) :
    List (Nat × Char) → Option (Except Fault (List Char × String))
  | [] => some (.error .unterminatedPattern)
  | (i, c) :: chars =>
    if c = '/' then (from? text (i + 1)).map fun rest => .ok (out, rest)
    else if c = '\n' then some (.error .unterminatedPattern)
    else if c = '\\' then
      match chars with
      | [] => some (.error .unterminatedPattern)
      | (_, e) :: chars =>
        patternFrom? text (out ++ if e = '/' then ['/'] else ['\\', e]) chars
    else patternFrom? text (out ++ [c]) chars
  termination_by chars => chars.length

/-- The text of a block, from the beginning on, and the text behind its last brace, which is one
byte. All braces are counted, the first too. -/
def blockFrom? (text : String) :
    (depth : Nat) → BlockMode → List (Nat × Char) → Option (Except Fault (String × String))
  | _, _, [] => some (.error .unterminatedBlock)
  | depth, .escaped, _ :: chars => blockFrom? text depth .inString chars
  | depth, .inString, (_, c) :: chars =>
    blockFrom? text depth
      (if c = '\\' then .escaped else if c = '"' then .outside else .inString) chars
  | depth, .outside, (i, c) :: chars =>
    if c = '"' then blockFrom? text depth .inString chars
    else if c = '\x7b' then blockFrom? text (depth + 1) .outside chars
    else if c = '\x7d' then
      match depth with
      | 0 => none
      | 1 => do
        let rest ← from? text (i + 1)
        let block ← between? text 0 (i + 1)
        some (.ok (block, rest))
      | depth + 2 => blockFrom? text (depth + 1) .outside chars
    else blockFrom? text depth .outside chars

variable {text : String} {before cs : List Char}

theorem quotedFrom?_eq {quote : Char} (h : text.toList = before ++ cs) (out : List Char) :
    quotedFrom? text quote out (charIndices (byteSize before) cs) =
      some ((quotedBody quote cs).map fun r => (out ++ r.value, .ofList r.rest)) := by
  fun_induction quotedBody quote cs generalizing before out with
  | case1 =>
    rw [charIndices, quotedFrom?.eq_def]
    rfl
  | case2 rest =>
    rw [List.append_cons] at h
    rw [charIndices_cons, quotedFrom?.eq_def]
    simp only [if_true]
    rw [← byteSize_singleton, ← byteSize_append, from?_eq h]
    simp [Except.map, Reading.ofHead]
  | case3 rest hq =>
    rw [charIndices_cons, quotedFrom?.eq_def]
    simp only [hq, if_false]
    rfl
  | case4 hq hn =>
    rw [charIndices_cons, quotedFrom?.eq_def]
    simp only [hq, hn, if_false]
    rfl
  | case5 rest hd hq hn =>
    rw [charIndices_cons, charIndices_cons, quotedFrom?.eq_def]
    simp only [hq, hn, if_false, if_true, List.map_take, map_charIndices, hd]
    rfl
  | case6 rest ch hd r hr hq hn ih | case7 rest ch hd fault hr hq hn ih =>
    rw [List.append_cons, List.append_cons, ← List.take_append_drop 4 rest,
      ← List.append_assoc] at h
    rw [charIndices_cons, charIndices_cons, quotedFrom?.eq_def]
    simp only [hq, hn, if_false, if_true, List.map_take, map_charIndices, hd, drop_charIndices]
    rw [ih h, hr]
    simp [Except.map]
  | case8 e rest he r hr hq hn ih | case9 e rest he fault hr hq hn ih =>
    rw [List.append_cons, List.append_cons] at h
    rw [charIndices_cons, charIndices_cons, quotedFrom?.eq_def]
    simp only [hq, hn, if_false, if_true]
    rw [ih h, hr]
    simp [Except.map, Reading.map, Reading.behind]
  | case10 c rest hq hn hb r hr ih | case11 c rest hq hn hb fault hr ih =>
    rw [List.append_cons] at h
    rw [charIndices_cons, quotedFrom?.eq_def]
    simp only [hq, hn, hb, if_false]
    rw [ih h, hr]
    simp [Except.map, Reading.map, Reading.behind]

theorem patternFrom?_eq (h : text.toList = before ++ cs) (out : List Char) :
    patternFrom? text out (charIndices (byteSize before) cs) =
      some ((patternBody cs).map fun r => (out ++ r.value, .ofList r.rest)) := by
  fun_induction patternBody cs generalizing before out with
  | case1 =>
    rw [charIndices, patternFrom?.eq_def]
    rfl
  | case2 rest =>
    rw [List.append_cons] at h
    rw [charIndices_cons, patternFrom?.eq_def]
    simp only [if_true]
    have hslash : byteSize before + 1 = byteSize (before ++ ['/']) :=
      (byteSize_append before ['/']).symm
    rw [hslash, from?_eq h]
    simp [Except.map, Reading.ofHead]
  | case3 rest hs =>
    rw [charIndices_cons, patternFrom?.eq_def]
    simp only [hs, if_false]
    rfl
  | case4 hs hn =>
    rw [charIndices_cons, patternFrom?.eq_def]
    simp only [hs, hn, if_false]
    rfl
  | case5 e rest r hr hs hn ih | case6 e rest fault hr hs hn ih =>
    rw [List.append_cons, List.append_cons] at h
    rw [charIndices_cons, charIndices_cons, patternFrom?.eq_def]
    simp only [hs, hn, if_false, if_true]
    rw [ih h, hr]
    by_cases he : e = '/' <;> simp [he, Except.map, Reading.map, Reading.behind]
  | case7 c rest hs hn hb r hr ih | case8 c rest hs hn hb fault hr ih =>
    rw [List.append_cons] at h
    rw [charIndices_cons, patternFrom?.eq_def]
    simp only [hs, hn, hb, if_false]
    rw [ih h, hr]
    simp [Except.map, Reading.map, Reading.behind]

/-- The depth that is counted is one more than that of the braces inside the block, and does not
fall below zero. -/
theorem blockFrom?_cons (opened : Nat) (mode : BlockMode) (i : Nat) (c : Char)
    (chars : List (Nat × Char)) :
    blockFrom? text (opened + 1) mode ((i, c) :: chars) =
      match blockStep opened mode c with
      | none => do
        let rest ← from? text (i + 1)
        let block ← between? text 0 (i + 1)
        some (.ok (block, rest))
      | some (opened, mode) => blockFrom? text (opened + 1) mode chars := by
  rw [blockFrom?.eq_def]
  cases mode with
  | escaped => rfl
  | inString => rfl
  | outside =>
    simp only [blockStep]
    split
    · rfl
    split
    · rfl
    split
    · cases opened <;> rfl
    · rfl

theorem blockFrom?_eq (h : text.toList = before ++ cs) (opened : Nat) (mode : BlockMode) :
    blockFrom? text (opened + 1) mode (charIndices (byteSize before) cs) =
      some ((blockBody opened mode cs).map fun r =>
        (.ofList (before ++ r.value), .ofList r.rest)) := by
  induction cs generalizing before opened mode with
  | nil =>
    rw [charIndices, blockFrom?.eq_def, blockBody.eq_def]
    rfl
  | cons c rest ih =>
    rw [List.append_cons] at h
    rw [charIndices_cons, blockFrom?_cons, blockBody_cons]
    cases hstep : blockStep opened mode c with
    | none =>
      obtain ⟨-, -, rfl⟩ := of_blockStep_eq_none hstep
      have hbrace : byteSize before + 1 = byteSize (before ++ ['\x7d']) :=
        (byteSize_append before ['\x7d']).symm
      simp only [hbrace, from?_eq h, between?_zero h]
      rfl
    | some step =>
      simp only [ih h]
      cases blockBody step.1 step.2 rest <;> simp [Except.map, Reading.map, Reading.behind]

/-- The token at the front of a text whose first character is `c`, and the text behind it. Only
strings, patterns and blocks are cut off by their bytes. -/
def scanBytes? (am : Bool) (c : Char) (rest : List Char) :
    Option (Except Fault (Token × String)) :=
  let text := String.ofList (c :: rest)
  if am && c == '/' then do
    let body ← from? text 1
    let read ← patternFrom? body [] (charIndices 0 body.toList)
    some (read.map fun (cs, left) => (.pattern (.ofList cs), left))
  else if c == '"' || c == '\'' then do
    let read ← quotedFrom? text c [] ((charIndices 0 (c :: rest)).drop 1)
    some (read.map fun (cs, left) => (.str (.ofList cs), left))
  else if c == '\x7b' then do
    let read ← blockFrom? text 0 .outside (charIndices 0 (c :: rest))
    some (read.map fun (piece, left) => (.block piece, left))
  else some ((scan am c rest).map fun r => (r.value, .ofList r.rest))

/-- No cut fails, and the tokens that are cut off are those that are read by characters. -/
theorem scanBytes?_eq (am : Bool) (c : Char) (rest : List Char) :
    scanBytes? am c rest = some ((scan am c rest).map fun r => (r.value, .ofList r.rest)) := by
  have htext : (String.ofList (c :: rest)).toList = [c] ++ rest := String.toList_ofList
  rw [scanBytes?, scan]
  split
  · rename_i hpattern
    obtain ⟨-, rfl⟩ : am = true ∧ c = '/' := by simpa using hpattern
    have hbody : from? (.ofList ('/' :: rest)) 1 = some (.ofList rest) := from?_eq htext
    have hrest : (String.ofList rest).toList = [] ++ rest := String.toList_ofList
    have hread := patternFrom?_eq hrest []
    simp only [hbody, String.toList_ofList, Option.bind_eq_bind, Option.bind_some]
    rw [← byteSize_nil, hread]
    cases patternBody rest <;> rfl
  split
  · rw [charIndices, List.drop_succ_cons, List.drop_zero, Nat.zero_add, ← byteSize_singleton,
      quotedFrom?_eq htext []]
    cases quotedBody c rest <;> rfl
  split
  · rename_i hbrace
    obtain rfl : c = '\x7b' := by simpa using hbrace
    have hread := blockFrom?_eq htext 0 .outside
    -- The first brace is counted, too.
    show (blockFrom? (.ofList ('\x7b' :: rest)) 1 .outside
      (charIndices (byteSize ['\x7b']) rest)).bind _ = _
    rw [hread]
    cases blockBody 0 .outside rest <;> rfl
  · rfl

end Readers

/-- A token with the bytes at which it begins and ends for its characters. -/
def Placed.inBytes (source : String) (p : Placed) : Placed :=
  { p with start := p.startByte source, stop := p.stopByte source }

/-- The tokens of what is left of a source, each in bytes: those of the source less those of what is
left where the token begins or ends. -/
def tokensBytes? (source : String) (am : Bool) (left : String) :
    Option (Except FaultAt (List Placed)) :=
  match skipTrivia left.toList with
  | [] => some (.ok [])
  | c :: rest => do
    let start := source.utf8ByteSize - byteSize (c :: rest)
    let line ← lineOf? source start
    match ← scanBytes? am c rest with
    | .error fault => some (.error ⟨line, fault⟩)
    | .ok (token, behind) =>
      let stop := source.utf8ByteSize - behind.utf8ByteSize
      if _shorter : behind.toList.length < left.toList.length then
        let placed ← tokensBytes? source (allowsPattern token) behind
        some (placed.map (⟨token, line, start, stop⟩ :: ·))
      else none
  termination_by left.toList.length

section

variable {source : String} {here : Cursor} {am : Bool} {cs : List Char}

theorem Cursor.IsAt.byteOffset_eq (h : here.IsAt source.toList cs) :
    source.utf8ByteSize - byteSize cs = byteOffset source here.offset := by
  rw [byteOffset, h.drop, byteSize]

/-- Every token begins and ends between two characters, and its line is that of its first byte. -/
theorem tokensBytes?_eq (h : here.IsAt source.toList cs) :
    tokensBytes? source am (.ofList cs) =
      some ((scanFrom am here cs).map (·.map (Placed.inBytes source))) := by
  induction hn : cs.length using Nat.strong_induction_on generalizing am here cs with
  | _ n ih =>
    cases hs : skipTrivia cs with
    | nil =>
      rw [tokensBytes?, String.toList_ofList, hs, scanFrom_nil hs]
      rfl
    | cons c rest =>
      have hstart := h.further (skipTrivia_suffix cs)
      rw [hs] at hstart
      have hline := hstart.lineOf?_eq
      rw [← hstart.byteOffset_eq] at hline
      rw [tokensBytes?, String.toList_ofList, hs]
      simp only [hline, scanBytes?_eq, Option.bind_eq_bind, Option.bind_some]
      cases hr : scan am c rest with
      | error fault =>
        rw [scanFrom_cons hs, hr]
        rfl
      | ok r =>
        have hsuffix : r.rest <:+ c :: rest :=
          (scan_line ⟨r.shorter, hr⟩).1.trans (List.suffix_cons _ _)
        have hstop := hstart.further hsuffix
        have hshorter := length_rest_lt hs r
        have hmore := @ih _ (hn ▸ hshorter) _ (allowsPattern r.value) _ hstop rfl
        rw [scanFrom_cons hs, hr]
        simp only [Except.map, String.toList_ofList, dif_pos hshorter, hmore, Option.bind_some]
        rw [hstart.byteOffset_eq, ← byteSize, hstop.byteOffset_eq]
        cases scanFrom (allowsPattern r.value) _ r.rest <;> rfl

/-- A text has the same tokens by bytes as by characters. -/
theorem tokensBytes?_eq_tokenize (source : String) :
    tokensBytes? source false source =
      some ((tokenize source.toList).map (·.map (Placed.inBytes source))) := by
  rw [tokenize, ← tokensBytes?_eq (Cursor.IsAt.start source.toList), String.ofList_toList]

end

end Bylaw.Token
