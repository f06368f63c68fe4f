import Bylaw.Proofs.Token.Coverage

/-! Comments between the tokens of a text, each of which takes up the rest of a line. Main
statement: they leave the tokens as they are, unless one of them ends the line of two slashes that
are tokens only because a carriage return spoils that line. -/

namespace Bylaw.Token

/-- A comment to be put into a text: whether two slashes or a hash begin it, and what it says. -/
structure Note where
  slashes : Bool
  text : List Char
  unbroken : Unbroken text

/-- A note as it is put into a text: after a space, and up to the end of the line. -/
def Note.toList (note : Note) : List Char :=
  ' ' :: ((if note.slashes then ['/', '/'] else ['#']) ++ (note.text ++ ['\n']))

/-- What is put into a text at a position that has a note or none. -/
def noted : Option Note → List Char
  | none => []
  | some note => note.toList

/-- A text that begins at a position, with a note in front of the character at each position that
has one. -/
def annotate (notes : Nat → Option Note) : Nat → List Char → List Char
  | i, [] => noted (notes i)
  | i, c :: cs => noted (notes i) ++ c :: annotate notes (i + 1) cs

/-- Whether notes make a comment of the two slashes at a position: none parts the slashes, and one
ends their line before the carriage return that spoils it. -/
def Hides (notes : Nat → Option Note) (source : List Char) (i : Nat) : Prop :=
  ∃ line more, source.drop i = '/' :: '/' :: (line ++ '\r' :: more) ∧ Unbroken line ∧
    notes (i + 1) = none ∧ ∃ j, i + 2 ≤ j ∧ j ≤ i + 2 + line.length ∧ notes j ≠ none

/-- A single note, at a position. -/
def Note.only (note : Note) (i : Nat) (j : Nat) : Option Note := if j = i then some note else none

theorem Hides.slashes {notes : Nat → Option Note} {source : List Char} {i : Nat}
    (h : Hides notes source i) : ['/', '/'] <+: source.drop i := by
  obtain ⟨line, more, htext, -⟩ := h
  exact ⟨_, htext.symm⟩

section

variable {notes : Nat → Option Note}

theorem Note.exists_comment (note : Note) (more : List Char) :
    ∃ cs, note.toList ++ more = ' ' :: cs ∧ dropComment cs = some ('\n' :: more) := by
  obtain ⟨slashes, text, hunbroken⟩ := note
  have hline : dropLine (text ++ '\n' :: more) = some ('\n' :: more) := by
    rw [dropLine_append hunbroken]
    rfl
  cases slashes with
  | false => exact ⟨'#' :: (text ++ '\n' :: more), by simp [toList], hline⟩
  | true => exact ⟨'/' :: '/' :: (text ++ '\n' :: more), by simp [toList], hline⟩

theorem skipTrivia_noted (n : Option Note) (more : List Char) :
    skipTrivia (noted n ++ more) = skipTrivia more := by
  cases n with
  | none => rfl
  | some note =>
    obtain ⟨cs, hcs, hcomment⟩ := note.exists_comment more
    rw [noted, hcs, skipTrivia_blank rfl, skipTrivia_comment hcomment, skipTrivia_blank rfl]

theorem dropLine_note (note : Note) (more : List Char) :
    dropLine (note.toList ++ more) = some ('\n' :: more) := by
  obtain ⟨cs, hcs, hcomment⟩ := note.exists_comment more
  obtain ⟨line, hline, rfl | rfl⟩ := dropComment_eq_some hcomment
  · rw [hcs, dropLine_cons rfl, dropLine_cons rfl, hline]
  · rw [hcs, dropLine_cons rfl, dropLine_cons rfl, dropLine_cons rfl, hline]

theorem head?_annotate (i : Nat) (cs : List Char) :
    (annotate notes i cs).head? = if notes i = none then cs.head? else some ' ' := by
  cases hn : notes i with
  | none => cases cs <;> simp [annotate, hn, noted]
  | some note => cases cs <;> simp [annotate, hn, noted, Note.toList]

/-- A text with notes goes on as it does without them, up to the first note. -/
theorem resumes_annotate (i : Nat) (cs : List Char) : Resumes cs (annotate notes i cs) := by
  induction cs generalizing i with
  | nil =>
    rw [annotate]
    cases notes i with
    | none => exact .nil
    | some note => exact .blank rfl _ _
  | cons c cs ih =>
    rw [annotate]
    cases notes i with
    | none => exact .cons c (ih (i + 1))
    | some note => exact .blank rfl _ _

theorem annotate_append (piece : List Char) {i : Nat}
    (h : ∀ j, i ≤ j → j < i + piece.length → notes j = none) (cs : List Char) :
    annotate notes i (piece ++ cs) = piece ++ annotate notes (i + piece.length) cs := by
  induction piece generalizing i with
  | nil => rfl
  | cons c piece ih =>
    rw [List.length_cons] at h ⊢
    have hrest := @ih (i + 1) fun j hi hj => h j (by omega) (by omega)
    have hlength : i + 1 + piece.length = i + (piece.length + 1) := by omega
    rw [List.cons_append, annotate, h i (Nat.le_refl i) (by omega), hrest, hlength]
    rfl

/-- Where there are no notes but at its beginning, a text stays as it is. -/
theorem annotate_of_none {i : Nat} (h : ∀ j, i < j → notes j = none) (cs : List Char) :
    annotate notes i cs = noted (notes i) ++ cs := by
  cases cs with
  | nil => rw [annotate, List.append_nil]
  | cons c cs =>
    have hrest := annotate_append cs (fun j (hj : i + 1 ≤ j) _ => h j hj) []
    have hend : annotate notes (i + 1 + cs.length) [] = [] := by
      rw [annotate, h _ (by omega)]
      rfl
    rw [List.append_nil, hend, List.append_nil] at hrest
    rw [annotate, hrest]

theorem annotate_only (note : Note) (i : Nat) (piece rest : List Char) :
    annotate (note.only (i + piece.length)) i (piece ++ rest) = piece ++ (note.toList ++ rest) := by
  have hself : note.only (i + piece.length) (i + piece.length) = some note := if_pos rfl
  have hother : ∀ j, j ≠ i + piece.length → note.only (i + piece.length) j = none :=
    fun j hj => if_neg hj
  rw [annotate_append piece fun j _ hj => hother j (by omega),
    annotate_of_none fun j hj => hother j (by omega), hself]
  rfl

/-- Notes at both ends of the text in front of a character. -/
theorem annotate_gap (gap : List Char) {i : Nat}
    (h : ∀ j, i < j → j < i + gap.length → notes j = none) (c : Char) (rest : List Char) :
    ∃ n n', annotate notes i (gap ++ c :: rest) =
      noted n ++ (gap ++ (noted n' ++ c :: annotate notes (i + gap.length + 1) rest)) := by
  cases gap with
  | nil => exact ⟨none, notes i, rfl⟩
  | cons g gap =>
    have hgap := annotate_append gap (i := i + 1)
      (fun j hi hj => h j hi (by rw [List.length_cons]; omega)) (c :: rest)
    have hlength : i + 1 + gap.length = i + (g :: gap).length := by
      rw [List.length_cons]
      omega
    refine ⟨notes i, notes (i + (g :: gap).length), ?_⟩
    rw [List.cons_append, annotate, hgap, hlength, annotate]
    rfl

end

section

variable {c : Char} {rest : List Char}

/-- A comment in front of a token ends on a line above it, whatever stands there. -/
theorem dropComment_front {gap front : List Char} (hc : isBlank c = false)
    (h : dropComment (gap ++ c :: rest) = some (front ++ c :: rest)) (more : List Char) :
    dropComment (gap ++ more) = some (front ++ more) := by
  obtain ⟨line, hline, htext⟩ := dropComment_eq_some h
  obtain ⟨first, hfirst, rfl, hends⟩ := dropLine_eq_some hline
  -- The token is no blank, so that the end of the line is part of what is in front of it.
  have hfront : dropLine (front ++ more) = some (front ++ more) := by
    rcases hends with hnil | hhead | hreturn
    · simp at hnil
    · cases front with
      | nil =>
        obtain rfl := Option.some.inj hhead
        cases hc
      | cons d front =>
        obtain rfl := Option.some.inj hhead
        rfl
    · rcases front with _ | ⟨d, _ | ⟨e, front⟩⟩
      · obtain ⟨rfl, -⟩ := List.cons_prefix_cons.mp hreturn
        cases hc
      · obtain ⟨-, hfeed⟩ := List.cons_prefix_cons.mp hreturn
        obtain ⟨rfl, -⟩ := List.cons_prefix_cons.mp hfeed
        cases hc
      · obtain ⟨rfl, hfeed⟩ := List.cons_prefix_cons.mp hreturn
        obtain ⟨rfl, -⟩ := List.cons_prefix_cons.mp hfeed
        rfl
  have hdrop : dropLine (first ++ front ++ more) = some (front ++ more) := by
    rw [List.append_assoc, dropLine_append hfirst, hfront]
  rw [← List.append_assoc, ← List.cons_append, ← List.cons_append, ← List.cons_append] at htext
  rcases htext with htext | htext
  · obtain rfl : gap = '#' :: (first ++ front) := List.append_cancel_right htext
    exact hdrop
  · obtain rfl : gap = '/' :: '/' :: (first ++ front) := List.append_cancel_right htext
    exact hdrop

/-- What is skipped in front of a token is skipped in front of any text. -/
theorem skipTrivia_front {gap : List Char} (h : skipTrivia (gap ++ c :: rest) = c :: rest)
    (more : List Char) : skipTrivia (gap ++ more) = skipTrivia more := by
  have hc := (of_skipTrivia_eq_cons h).1
  -- A comment is skipped as a whole, so the induction is on the length of what is in front.
  induction hn : gap.length using Nat.strong_induction_on generalizing gap with
  | _ n ih =>
    cases gap with
    | nil => rfl
    | cons g gap =>
      rw [List.length_cons] at hn
      cases hg : isBlank g with
      | true =>
        rw [List.cons_append, skipTrivia_blank hg] at h ⊢
        exact ih gap.length (by omega) h rfl
      | false =>
        obtain ⟨after, hafter⟩ : ∃ after, dropComment (g :: gap ++ c :: rest) = some after := by
          rw [← Option.ne_none_iff_exists']
          intro hnone
          have hself : skipTrivia (g :: gap ++ c :: rest) = g :: (gap ++ c :: rest) :=
            skipTrivia_of_token hg hnone
          have hlength := congrArg List.length (h.symm.trans hself)
          simp only [List.length_append, List.length_cons] at hlength
          omega
        rw [skipTrivia_comment hafter] at h
        obtain ⟨front, rfl⟩ := h ▸ skipTrivia_suffix after
        have hlt := dropComment_lt hafter
        rw [skipTrivia_comment (dropComment_front hc hafter more)]
        refine ih front.length ?_ h rfl
        simp only [List.length_append, List.length_cons] at hlt
        omega

/-- Where a token stands there is one also among notes that do not hide it. -/
theorem skipTrivia_annotate {notes : Nat → Option Note} {source cs : List Char} {i : Nat}
    (hi : source.drop i = c :: rest) (hskip : skipTrivia cs = c :: rest) (hc : c ≠ '#')
    (hhides : ¬Hides notes source i) :
    skipTrivia (c :: annotate notes (i + 1) rest) = c :: annotate notes (i + 1) rest := by
  obtain ⟨hblank, hnone⟩ := of_skipTrivia_eq_cons hskip
  by_cases hslashes : c = '/' ∧ notes (i + 1) = none ∧ rest.head? = some '/'
  · obtain ⟨rfl, hnote, hhead⟩ := hslashes
    obtain ⟨rest, rfl⟩ := List.head?_eq_some_iff.mp hhead
    have hspoiled : dropLine rest = none := hnone
    obtain ⟨line, more, hline, hmore, rfl⟩ := dropLine_eq_none hspoiled
    have hnotes : ∀ j, i + 2 ≤ j → j < i + 2 + (line ++ ['\r']).length → notes j = none := by
      intro j hle hlt
      by_contra hj
      rw [List.length_append, List.length_singleton] at hlt
      exact hhides ⟨line, more, hi, hline, hnote, j, hle, by omega, hj⟩
    have hreturn : (annotate notes (i + 2 + (line ++ ['\r']).length) more).head? ≠ some '\n' := by
      rw [head?_annotate]
      split
      · exact hmore
      · decide
    have htext : annotate notes (i + 1) ('/' :: (line ++ '\r' :: more)) =
        '/' :: (line ++ '\r' :: annotate notes (i + 2 + (line ++ ['\r']).length) more) := by
      have hrest := annotate_append (line ++ ['\r']) hnotes more
      rw [List.append_assoc, List.append_assoc] at hrest
      rw [annotate, hnote]
      exact congrArg ('/' :: ·) hrest
    rw [htext]
    refine skipTrivia_of_token rfl ?_
    show dropLine _ = none
    rw [dropLine_append hline, dropLine_return hreturn]
  · refine skipTrivia_of_ne hblank hc ?_
    rintro rfl hhead
    rw [head?_annotate] at hhead
    split at hhead
    · exact hslashes ⟨rfl, ‹_›, hhead⟩
    · cases hhead

end

/-- Notes past a position stand only where tokens begin or end. -/
def Between (notes : Nat → Option Note) (offset : Nat) (placed : List Placed) : Prop :=
  ∀ i, offset < i → notes i ≠ none → ∃ p ∈ placed, i = p.start ∨ i = p.stop

theorem Note.between_only (note : Note) {offset : Nat} {placed : List Placed} {p : Placed}
    (hp : p ∈ placed) : Between (note.only p.stop) offset placed := by
  intro i _ hi
  exact ⟨p, hp, .inr (by_contra fun hne => hi (if_neg hne))⟩

section

variable {notes : Nat → Option Note} {source : List Char} {am : Bool} {here there : Cursor}
  {cs after : List Char} {p : Placed} {placed kept lost : List Placed}

/-- The tokens of a text stand at its position or after it, each before its end. -/
theorem start_lt_stop_of_scanFrom (h : scanFrom am here cs = .ok placed) :
    ∀ p ∈ placed, here.offset ≤ p.start ∧ p.start < p.stop := by
  obtain ⟨_, _, _, hreads, -⟩ := reads_of_scanFrom h
  intro p hp
  obtain ⟨hle, hlt, -⟩ := hreads.bounds p hp
  exact ⟨hle, hlt⟩

/-- Of notes between tokens none parts the first token or stands in the trivia in front of it. -/
theorem Between.past (hnotes : Between notes here.offset (p :: placed))
    (h : Begins am here cs p there after)
    (hrest : scanFrom (allowsPattern p.token) there after = .ok placed) :
    (∀ i, here.offset < i → i < there.offset → i ≠ p.start → notes i = none) ∧
      Between notes there.offset placed := by
  obtain ⟨hstart, hstop, hoffset⟩ := h.bounds
  have hlater := start_lt_stop_of_scanFrom hrest
  constructor
  · intro i hi hlt hne
    by_contra hnote
    obtain ⟨q, hq, hends⟩ := hnotes i hi hnote
    rcases List.mem_cons.mp hq with rfl | hq
    · omega
    · have hle := hlater q hq
      omega
  · intro i hi hnote
    obtain ⟨q, hq, hends⟩ := hnotes i (by omega) hnote
    rcases List.mem_cons.mp hq with rfl | hq
    · omega
    · exact ⟨q, hq, hends⟩

/-- A token is read alike among notes that do not hide it, of which none parts it. -/
theorem Begins.tokens_annotate (h : Begins am here cs p there after)
    (hcs : source.drop here.offset = cs)
    (hnotes : ∀ i, here.offset < i → i < there.offset → i ≠ p.start → notes i = none)
    (hhides : ¬Hides notes source p.start) :
    tokens am (annotate notes here.offset cs) =
      (tokens (allowsPattern p.token) (annotate notes there.offset after)).map (p.token :: ·) := by
  have htext := h.drop_start hcs
  obtain ⟨gap, c, piece, rfl, hskip, hstart, hstop, hscan⟩ := h.split
  rw [hskip] at htext
  obtain ⟨hlt, hread⟩ := hscan _ (resumes_annotate there.offset after)
  obtain ⟨n, n', hgap⟩ := annotate_gap gap
    (fun i hi hi' => hnotes i hi (by omega) (by omega)) c (piece ++ after)
  have hpiece : annotate notes (p.start + 1) (piece ++ after) =
      piece ++ annotate notes there.offset after := by
    rw [annotate_append piece (fun i hi hi' => hnotes i (by omega) (by omega) (by omega)), hstop]
  have hhash : c ≠ '#' := ne_hash_of_scan ⟨hlt, hread⟩
  have hfront : skipTrivia (annotate notes here.offset (gap ++ c :: (piece ++ after))) =
      c :: (piece ++ annotate notes there.offset after) := by
    rw [hgap, skipTrivia_noted, skipTrivia_front hskip, skipTrivia_noted, ← hstart,
      skipTrivia_annotate htext hskip hhash hhides, hpiece]
  rw [tokens_of_skipTrivia hfront, hread]

/-- The tokens of a text with notes between its tokens: as far as the notes hide none, those of the
text. -/
theorem tokens_annotate (h : scanFrom am here cs = .ok (kept ++ lost))
    (hcs : source.drop here.offset = cs) (hnotes : Between notes here.offset (kept ++ lost))
    (hkept : ∀ p ∈ kept, ¬Hides notes source p.start) :
    ∃ there after, scanFrom (patternAfter am kept) there after = .ok lost ∧
      source.drop there.offset = after ∧ Between notes there.offset lost ∧
      tokens am (annotate notes here.offset cs) =
        (tokens (patternAfter am kept) (annotate notes there.offset after)).map
          (kept.map Placed.token ++ ·) := by
  -- That the notes left stand between the tokens left is what one token hands on to the next.
  induction kept generalizing am here cs with
  | nil =>
    refine ⟨here, cs, h, hcs, hnotes, ?_⟩
    show tokens am (annotate notes here.offset cs) =
      (tokens am (annotate notes here.offset cs)).map ([] ++ ·)
    cases tokens am (annotate notes here.offset cs) <;> rfl
  | cons p kept ih =>
    obtain ⟨next, rest, hbegins, hrest⟩ := begins_of_scanFrom h
    obtain ⟨hnone, hbetween⟩ := hnotes.past hbegins hrest
    have hfirst := hbegins.tokens_annotate hcs hnone (hkept p List.mem_cons_self)
    obtain ⟨there, after, hlost, hdrop, hpast, heq⟩ := ih hrest (hbegins.drop_stop hcs) hbetween
      fun q hq => hkept q (List.mem_cons_of_mem p hq)
    refine ⟨there, after, hlost, hdrop, hpast, ?_⟩
    rw [hfirst, heq]
    show _ = (tokens (patternAfter (allowsPattern p.token) kept) _).map _
    cases tokens (patternAfter (allowsPattern p.token) kept) (annotate notes there.offset after) <;>
      rfl

theorem tokens_annotate_of_not_hides (h : tokenize source = .ok placed)
    (hnotes : Between notes 0 placed) (hhides : ∀ p ∈ placed, ¬Hides notes source p.start) :
    tokens false (annotate notes 0 source) = .ok (placed.map Placed.token) := by
  rw [← List.append_nil placed] at h hnotes
  obtain ⟨there, after, hlost, -, hpast, heq⟩ := tokens_annotate h List.drop_zero hnotes hhides
  have hnone : ∀ i, there.offset < i → notes i = none := by
    intro i hi
    by_contra hnote
    obtain ⟨p, hp, -⟩ := hpast i hi hnote
    cases hp
  have hrest : skipTrivia (annotate notes there.offset after) = [] := by
    rw [annotate_of_none hnone, skipTrivia_noted, skipTrivia_of_scanFrom hlost]
  rw [heq, tokens_of_skipTrivia_nil hrest]
  exact congrArg Except.ok (List.append_nil _)

/-- A note behind the first two slashes of a text makes a comment of them, if they are a pattern:
the tokens are the others. -/
theorem tokens_annotate_behind (note : Note) (h : tokenize source = .ok (kept ++ p :: lost))
    (hkept : ∀ q ∈ kept, ¬['/', '/'] <+: source.drop q.start)
    (hp : ['/', '/'] <+: source.drop p.start) (hpattern : patternAfter false kept = true)
    (hlost : ∀ q ∈ lost.head?, q.token ≠ .symbol .slash) :
    tokens false (annotate (note.only p.stop) 0 source) =
      .ok ((kept ++ lost).map Placed.token) := by
  have hhides : ∀ q ∈ kept, ¬Hides (note.only p.stop) source q.start :=
    fun q hq hq' => hkept q hq hq'.slashes
  obtain ⟨there, after, hscan, hafter, -, heq⟩ :=
    tokens_annotate h List.drop_zero (note.between_only (by simp)) hhides
  rw [hpattern] at hscan heq
  obtain ⟨next, rest, hbegins, hrest⟩ := begins_of_scanFrom hscan
  obtain ⟨more, hmore⟩ := hp
  -- Without notes the two slashes are the next token, an empty pattern.
  have hskip : skipTrivia after = '/' :: '/' :: more :=
    (hbegins.drop_start hafter).symm.trans hmore.symm
  obtain ⟨htoken, rfl, hstop⟩ := hbegins.empty_pattern hskip
  rw [htoken] at hrest
  obtain ⟨gap, c, piece, hgap, hsplit, hstart, -, -⟩ := hbegins.split
  rw [← hsplit, hskip] at hgap
  have hfront : annotate (note.only p.stop) there.offset after =
      gap ++ '/' :: '/' :: (note.toList ++ rest) := by
    have hends : p.stop = there.offset + (gap ++ ['/', '/']).length := by
      rw [List.length_append]
      show p.stop = there.offset + (gap.length + 2)
      omega
    have hpiece := annotate_only note there.offset (gap ++ ['/', '/']) rest
    rw [← hends] at hpiece
    simpa [hgap] using hpiece
  -- With the note behind them they begin a comment, which ends with the note.
  have hbehind : skipTrivia (annotate (note.only p.stop) there.offset after) = skipTrivia rest := by
    have hcomment : dropComment ('/' :: '/' :: (note.toList ++ rest)) = some ('\n' :: rest) :=
      dropLine_note note rest
    rw [hfront, skipTrivia_front (hgap ▸ hskip), skipTrivia_comment hcomment, skipTrivia_blank rfl]
  rw [heq, tokens_congr hbehind, tokens_of_ne_slash hrest hlost, List.map_append]
  rfl

end

end Bylaw.Token
