import Bylaw.Proofs.Rule.Line
import Bylaw.Proofs.Token.Delimited

/-! Tokens on both sides of a line feed. What is read at the front of a text is read there also if a
line feed and more text follow, but for two slashes that then begin a comment. Main statement: the
tokens of a text with another text on the lines after it are those of the first, up to such slashes,
and those of the other. -/

namespace Bylaw.Token

theorem scan_line {am : Bool} {c : Char} {rest after : List Char} {t : Token}
    (h : Yields (scan am c rest) t after) : after <:+ rest ∧
      ∀ more, Yields (scan am c (rest ++ '\n' :: more)) t (after ++ '\n' :: more) := by
  obtain ⟨piece, rfl, hmore⟩ := scan_ends h
  refine ⟨List.suffix_append piece after, fun more => ?_⟩
  rw [List.append_assoc]
  exact hmore _ (Resumes.append after rfl more)

/-- No token begins with a hash, so that only two slashes can turn into a comment. -/
theorem ne_hash_of_scan {am : Bool} {c : Char} {rest after : List Char} {t : Token}
    (h : Yields (scan am c rest) t after) : c ≠ '#' := by
  rintro rfl
  have hhash : scan am '#' rest = .error (.unexpected '#') := by
    cases am <;> rfl
  rw [hhash] at h
  exact yields_error h

/-- Two slashes that begin no comment only because a carriage return, and no line feed, ends the
text. -/
def Exposed (cs : List Char) : Prop :=
  ∃ line, Unbroken line ∧ cs = '/' :: '/' :: (line ++ ['\r'])

theorem Exposed.slashes {cs : List Char} (h : Exposed cs) : ['/', '/'] <+: cs := by
  obtain ⟨line, -, rfl⟩ := h
  exact ⟨_, rfl⟩

section

variable {cs rest after : List Char}

theorem endsLine_of_ne {c : Char} (hn : c ≠ '\n') (hr : c ≠ '\r') : endsLine c = false := by
  simp [endsLine, hn, hr]

theorem dropLine_line (h : dropLine cs = some rest) (more : List Char) :
    dropLine (cs ++ '\n' :: more) = some (rest ++ '\n' :: more) := by
  fun_induction dropLine cs with
  | case1 | case2 | case3 =>
    obtain rfl := Option.some.inj h
    rfl
  | case4 => cases h
  | case5 c cs hn _ hr ih =>
    rw [List.cons_append, dropLine_cons (endsLine_of_ne hn hr)]
    exact ih h

/-- A line that is spoiled has a carriage return that stands alone. -/
theorem dropLine_eq_none (h : dropLine cs = none) :
    ∃ line more, Unbroken line ∧ more.head? ≠ some '\n' ∧ cs = line ++ '\r' :: more := by
  fun_induction dropLine cs with
  | case1 | case2 | case3 => cases h
  | case4 rest hrest =>
    refine ⟨[], rest, Unbroken.nil, fun hhead => ?_, rfl⟩
    obtain ⟨more, rfl⟩ := List.head?_eq_some_iff.mp hhead
    exact hrest more rfl
  | case5 c cs hn _ hr ih =>
    obtain ⟨line, more, hline, hmore, rfl⟩ := ih h
    exact ⟨c :: line, more, Unbroken.cons (endsLine_of_ne hn hr) hline, hmore, rfl⟩

theorem dropLine_line_none (h : dropLine cs = none) (more : List Char) :
    (∃ line, Unbroken line ∧ cs = line ++ ['\r']) ∨ dropLine (cs ++ '\n' :: more) = none := by
  obtain ⟨line, after, hline, hafter, rfl⟩ := dropLine_eq_none h
  cases after with
  | nil => exact .inl ⟨line, hline, rfl⟩
  | cons c after =>
    right
    rw [List.append_assoc, dropLine_append hline]
    exact dropLine_return hafter

/-- What is left from the end of a line on. -/
theorem dropLine_eq_some (h : dropLine cs = some rest) :
    ∃ line, Unbroken line ∧ cs = line ++ rest ∧
      (rest = [] ∨ rest.head? = some '\n' ∨ ['\r', '\n'] <+: rest) := by
  fun_induction dropLine cs with
  | case1 =>
    obtain rfl := Option.some.inj h
    exact ⟨[], Unbroken.nil, rfl, .inl rfl⟩
  | case2 =>
    obtain rfl := Option.some.inj h
    exact ⟨[], Unbroken.nil, rfl, .inr (.inl rfl)⟩
  | case3 more =>
    obtain rfl := Option.some.inj h
    exact ⟨[], Unbroken.nil, rfl, .inr (.inr ⟨more, rfl⟩)⟩
  | case4 => cases h
  | case5 c cs hn _ hr ih =>
    obtain ⟨line, hline, rfl, hrest⟩ := ih h
    exact ⟨c :: line, Unbroken.cons (endsLine_of_ne hn hr) hline, rfl, hrest⟩

theorem dropLine_suffix (h : dropLine cs = some rest) : rest <:+ cs := by
  obtain ⟨line, -, rfl, -⟩ := dropLine_eq_some h
  exact List.suffix_append line rest

theorem dropComment_eq_some (h : dropComment cs = some rest) :
    ∃ line, dropLine line = some rest ∧ (cs = '#' :: line ∨ cs = '/' :: '/' :: line) := by
  unfold dropComment at h
  split at h
  · exact ⟨_, h, .inl rfl⟩
  · exact ⟨_, h, .inr rfl⟩
  · cases h

theorem dropComment_line (h : dropComment cs = some rest) (more : List Char) :
    dropComment (cs ++ '\n' :: more) = some (rest ++ '\n' :: more) := by
  obtain ⟨line, hline, rfl | rfl⟩ := dropComment_eq_some h
  · exact dropLine_line hline more
  · exact dropLine_line hline more

theorem skipTrivia_comment (h : dropComment cs = some rest) :
    skipTrivia cs = skipTrivia rest := by
  obtain ⟨c, more, rfl, hc⟩ : ∃ c more, cs = c :: more ∧ isBlank c = false := by
    obtain ⟨line, -, rfl | rfl⟩ := dropComment_eq_some h
    · exact ⟨_, _, rfl, rfl⟩
    · exact ⟨_, _, rfl, rfl⟩
  rw [skipTrivia, if_neg (by simp [hc])]
  split
  · rename_i after hafter
    rw [Option.some.inj (h.symm.trans hafter)]
  · rename_i hnone
    cases h.symm.trans hnone

/-- The first token of a text is not part of a blank or a comment. -/
theorem of_skipTrivia_eq_cons {c : Char} (h : skipTrivia cs = c :: rest) :
    isBlank c = false ∧ dropComment (c :: rest) = none := by
  fun_induction skipTrivia cs with
  | case1 => cases h
  | case2 d cs hd ih => exact ih h
  | case3 d cs hd more hmore _ ih => exact ih h
  | case4 d cs hd hmore =>
    obtain ⟨rfl, rfl⟩ := List.cons.inj h
    exact ⟨by simpa using hd, hmore⟩

theorem skipTrivia_suffix (cs : List Char) : skipTrivia cs <:+ cs := by
  fun_induction skipTrivia cs with
  | case1 => exact List.suffix_refl _
  | case2 c cs hc ih => exact ih.trans (List.suffix_cons _ _)
  | case3 c cs hc rest hrest _ ih =>
    obtain ⟨line, hline, heq | heq⟩ := dropComment_eq_some hrest
    · rw [heq]
      exact ih.trans ((dropLine_suffix hline).trans (List.suffix_cons _ _))
    · rw [heq]
      exact ih.trans ((dropLine_suffix hline).trans
        ((List.suffix_cons _ _).trans (List.suffix_cons _ _)))
  | case4 => exact List.suffix_refl _

theorem skipTrivia_line (cs more : List Char) :
    skipTrivia (cs ++ '\n' :: more) = skipTrivia (skipTrivia cs ++ '\n' :: more) := by
  fun_induction skipTrivia cs with
  | case1 => rfl
  | case2 c cs hc ih => rw [List.cons_append, skipTrivia_blank hc, ih]
  | case3 c cs hc rest hrest _ ih =>
    rw [skipTrivia_comment (dropComment_line hrest more), ih]
  | case4 => rfl

/-- What follows the slashes of a text that is exposed is the line that follows the text. -/
theorem skipTrivia_line_of_exposed (h : Exposed (skipTrivia cs)) (more : List Char) :
    skipTrivia (cs ++ '\n' :: more) = skipTrivia more := by
  obtain ⟨line, hline, heq⟩ := h
  have hcomment : dropComment ('/' :: '/' :: (line ++ ['\r']) ++ '\n' :: more) =
      some ('\r' :: '\n' :: more) := by
    show dropLine (line ++ ['\r'] ++ '\n' :: more) = _
    rw [List.append_assoc, dropLine_append hline]
    rfl
  rw [skipTrivia_line, heq, skipTrivia_comment hcomment, skipTrivia_blank rfl,
    skipTrivia_blank rfl]

theorem skipTrivia_line_of_nil (h : skipTrivia cs = []) (more : List Char) :
    skipTrivia (cs ++ '\n' :: more) = skipTrivia more := by
  rw [skipTrivia_line, h, List.nil_append, skipTrivia_blank rfl]

/-- A token that is not exposed is the first also if a line follows. -/
theorem skipTrivia_line_of_cons {c : Char} (h : skipTrivia cs = c :: rest) (hc : c ≠ '#')
    (hexposed : ¬Exposed (c :: rest)) (more : List Char) :
    skipTrivia (cs ++ '\n' :: more) = c :: (rest ++ '\n' :: more) := by
  obtain ⟨hblank, hnone⟩ := of_skipTrivia_eq_cons h
  have hcomment : dropComment (c :: (rest ++ '\n' :: more)) = none := by
    rw [Option.eq_none_iff_forall_ne_some]
    intro after hafter
    obtain ⟨line, hline, heq | heq⟩ := dropComment_eq_some hafter
    · exact hc (List.cons.inj heq).1
    · obtain ⟨rfl, heq⟩ := List.cons.inj heq
      cases rest with
      | nil => cases heq
      | cons d rest =>
        obtain ⟨rfl, rfl⟩ : d = '/' ∧ rest ++ '\n' :: more = line := by simpa using heq
        rcases dropLine_line_none hnone more with ⟨first, hfirst, rfl⟩ | hspoiled
        · exact hexposed ⟨first, hfirst, rfl⟩
        · cases hline.symm.trans hspoiled
  rw [skipTrivia_line, h, List.cons_append]
  exact skipTrivia_of_token hblank hcomment

end

section

variable {am : Bool} {here there : Cursor} {cs rest after : List Char} {p : Placed}

theorem Cursor.past_append (here : Cursor) (cs ds : List Char) :
    here.past (cs ++ ds) = (here.past cs).past ds := by
  simp [past, Nat.add_assoc]

theorem Cursor.to_append (here : Cursor) (cs rest : List Char) :
    here.to (cs ++ rest) rest = here.past cs := by
  simp [Cursor.to]

/-- The position at which a text is left is the same if more text follows. -/
theorem Cursor.to_more (here : Cursor) (h : after <:+ cs) (more : List Char) :
    here.to (cs ++ more) (after ++ more) = here.to cs after := by
  obtain ⟨front, rfl⟩ := h
  rw [List.append_assoc, Cursor.to_append, Cursor.to_append]

theorem Cursor.past_to (here : Cursor) (h : after <:+ cs) :
    (here.to cs after).past after = here.past cs := by
  obtain ⟨front, rfl⟩ := h
  rw [Cursor.to_append, Cursor.past_append]

theorem drop_to {source : List Char} (hcs : source.drop here.offset = cs) (h : after <:+ cs) :
    source.drop (here.to cs after).offset = after := by
  obtain ⟨front, rfl⟩ := h
  rw [Cursor.to_append, Cursor.past, ← List.drop_drop, hcs, List.drop_left]

/-- How a text at a position begins: after blanks and comments there is a token, and a text is left
at another position. -/
structure Begins (am : Bool) (here : Cursor) (cs : List Char) (p : Placed) (there : Cursor)
    (after : List Char) : Prop where
  scans : ∃ c rest, skipTrivia cs = c :: rest ∧ Yields (scan am c rest) p.token after
  start : here.to cs (skipTrivia cs) = ⟨p.start, p.line⟩
  stop : (here.to cs (skipTrivia cs)).to (skipTrivia cs) after = there
  offset : there.offset = p.stop

theorem begins_of_scanFrom {placed : List Placed}
    (h : scanFrom am here cs = .ok (p :: placed)) :
    ∃ there after, Begins am here cs p there after ∧
      scanFrom (allowsPattern p.token) there after = .ok placed := by
  cases hs : skipTrivia cs with
  | nil =>
    rw [scanFrom_nil hs] at h
    cases h
  | cons c rest =>
    rw [scanFrom_cons hs] at h
    split at h
    · cases h
    · rename_i r hr
      split at h
      · rename_i others hothers
        obtain ⟨rfl, rfl⟩ := List.cons.inj (Except.ok.inj h)
        refine ⟨_, r.rest, ⟨⟨c, rest, hs, r.shorter, hr⟩, ?_, ?_, rfl⟩, hothers⟩
        · rw [hs]
        · rw [hs]
      · cases h

namespace Begins

theorem scanFrom_eq (h : Begins am here cs p there after) :
    scanFrom am here cs = (scanFrom (allowsPattern p.token) there after).map (p :: ·) := by
  obtain ⟨c, rest, hs, hlt, hscan⟩ := h.scans
  have hstart := h.start
  have hstop := h.stop
  rw [hs] at hstart hstop
  rw [scanFrom_cons hs, hscan]
  simp only [hstop]
  rw [hstart, h.offset]
  cases scanFrom (allowsPattern p.token) there after <;> rfl

theorem suffix (h : Begins am here cs p there after) : after <:+ skipTrivia cs := by
  obtain ⟨c, rest, hs, hscan⟩ := h.scans
  rw [hs]
  exact (scan_line hscan).1.trans (List.suffix_cons _ _)

theorem past (h : Begins am here cs p there after) : there.past after = here.past cs := by
  rw [← h.stop, Cursor.past_to _ h.suffix, Cursor.past_to _ (skipTrivia_suffix cs)]

theorem drop_start (h : Begins am here cs p there after) {source : List Char}
    (hcs : source.drop here.offset = cs) : source.drop p.start = skipTrivia cs := by
  rw [← drop_to hcs (skipTrivia_suffix cs), h.start]

theorem drop_stop (h : Begins am here cs p there after) {source : List Char}
    (hcs : source.drop here.offset = cs) : source.drop there.offset = after := by
  rw [← h.stop]
  exact drop_to (drop_to hcs (skipTrivia_suffix cs)) h.suffix

/-- The parts of the text: what is skipped, the token, which is read alike before any text that
resumes the rest, and the rest. -/
theorem split (h : Begins am here cs p there after) :
    ∃ gap c piece, cs = gap ++ c :: (piece ++ after) ∧ skipTrivia cs = c :: (piece ++ after) ∧
      p.start = here.offset + gap.length ∧ there.offset = p.start + 1 + piece.length ∧
      ∀ more, Resumes after more → Yields (scan am c (piece ++ more)) p.token more := by
  obtain ⟨c, rest, hs, hscan⟩ := h.scans
  obtain ⟨piece, rfl, hmore⟩ := scan_ends hscan
  obtain ⟨gap, hgap⟩ := skipTrivia_suffix cs
  rw [hs] at hgap
  have hstart := h.start
  have hstop := h.stop
  rw [hstart, hs, ← List.cons_append, Cursor.to_append] at hstop
  rw [hs, ← hgap, Cursor.to_append] at hstart
  refine ⟨gap, c, piece, hgap.symm, hs, (congrArg Cursor.offset hstart).symm, ?_, hmore⟩
  rw [← hstop]
  show p.start + (c :: piece).length = _
  rw [List.length_cons]
  omega

theorem line_le (h : Begins am here cs p there after) : p.line ≤ (here.past cs).line := by
  rw [← Cursor.past_to here (skipTrivia_suffix cs), h.start]
  exact Nat.le_add_right _ _

theorem slash (h : Begins false here cs p there after) (hs : skipTrivia cs = '/' :: rest) :
    p.token = .symbol .slash ∧ after = rest := by
  obtain ⟨c, more, hs', hscan⟩ := h.scans
  obtain ⟨rfl, rfl⟩ := List.cons.inj (hs.symm.trans hs')
  obtain ⟨htoken, hrest⟩ := yields_ok.mp hscan
  exact ⟨htoken.symm, hrest.symm⟩

/-- After the word that calls for a pattern, two slashes are an empty one. -/
theorem empty_pattern (h : Begins true here cs p there after)
    (hs : skipTrivia cs = '/' :: '/' :: rest) :
    p.token = .pattern "" ∧ after = rest ∧ p.stop = p.start + 2 := by
  obtain ⟨gap, c, piece, -, hs', -, hstop, hscan⟩ := h.split
  have hread := hscan _ (Resumes.refl after)
  obtain ⟨rfl, hrest⟩ := List.cons.inj (hs.symm.trans hs')
  rw [← hrest] at hread
  have hpattern : Yields (scan true '/' ('/' :: rest)) (.pattern "") rest :=
    ⟨Nat.lt_add_of_pos_right (Nat.succ_pos 1),
      by simp [scan, patternBody.eq_def, Reading.map, Reading.behind, Reading.ofHead]⟩
  obtain ⟨htoken, rfl⟩ := hread.unique hpattern
  have hsingle : ['/'] ++ after = piece ++ after := hrest
  obtain rfl := List.append_cancel_right hsingle
  exact ⟨htoken, rfl, h.offset.symm.trans hstop⟩

/-- A text that is not exposed begins alike if a line feed and more text follow. -/
theorem line (h : Begins am here cs p there after) (hexposed : ¬Exposed (skipTrivia cs))
    (more : List Char) :
    Begins am here (cs ++ '\n' :: more) p there (after ++ '\n' :: more) := by
  obtain ⟨c, rest, hs, hscan⟩ := h.scans
  have hskip : skipTrivia (cs ++ '\n' :: more) = skipTrivia cs ++ '\n' :: more := by
    rw [hs, List.cons_append]
    exact skipTrivia_line_of_cons hs (ne_hash_of_scan hscan) (hs ▸ hexposed) more
  refine ⟨⟨c, rest ++ '\n' :: more, ?_, (scan_line hscan).2 more⟩, ?_, ?_, h.offset⟩
  · rw [hskip, hs, List.cons_append]
  · rw [hskip, Cursor.to_more _ (skipTrivia_suffix cs), h.start]
  · rw [hskip, Cursor.to_more _ (skipTrivia_suffix cs), Cursor.to_more _ h.suffix, h.stop]

end Begins

/-- Whether a pattern may stand after tokens. -/
def patternAfter (am : Bool) (placed : List Placed) : Bool :=
  placed.foldl (fun _ p => allowsPattern p.token) am

theorem skipTrivia_of_scanFrom (h : scanFrom am here cs = .ok []) : skipTrivia cs = [] := by
  cases hs : skipTrivia cs with
  | nil => rfl
  | cons c rest =>
    rw [scanFrom_cons hs] at h
    split at h
    · cases h
    · split at h
      · cases h
      · cases h

theorem scanFrom_skip {front more : List Char} (h : skipTrivia (front ++ more) = skipTrivia more)
    (am : Bool) (here : Cursor) :
    scanFrom am here (front ++ more) = scanFrom am (here.past front) more := by
  cases hs : skipTrivia more with
  | nil => rw [scanFrom_nil (h.trans hs), scanFrom_nil hs]
  | cons c rest =>
    obtain ⟨trivia, hmore⟩ := skipTrivia_suffix more
    rw [hs] at hmore
    have hto : here.to (front ++ more) (c :: rest) = (here.past front).to more (c :: rest) := by
      rw [← hmore, ← List.append_assoc, Cursor.to_append, Cursor.to_append, Cursor.past_append]
    rw [scanFrom_cons (h.trans hs), scanFrom_cons hs, hto]

/-- The tokens of a text with another text on the lines after it: those of the first up to one that
is exposed, if there is one, and those of the other. -/
theorem scanFrom_line {source : List Char} {kept lost : List Placed}
    (h : scanFrom am here cs = .ok (kept ++ lost)) (hcs : source.drop here.offset = cs)
    (hkept : ∀ p ∈ kept, ¬Exposed (source.drop p.start))
    (hlost : ∀ p ∈ lost.head?, Exposed (source.drop p.start)) (more : List Char) :
    scanFrom am here (cs ++ '\n' :: more) =
      (scanFrom (patternAfter am kept) (here.past (cs ++ ['\n'])) more).map (kept ++ ·) := by
  induction kept generalizing am here cs with
  | nil =>
    -- What is left of the first text is trivia: it has no tokens, or begins a comment by now.
    have hskip : skipTrivia ((cs ++ ['\n']) ++ more) = skipTrivia more := by
      rw [List.append_assoc, List.singleton_append]
      cases lost with
      | nil => exact skipTrivia_line_of_nil (skipTrivia_of_scanFrom h) more
      | cons p lost =>
        obtain ⟨there, after, hbegins, -⟩ := begins_of_scanFrom h
        refine skipTrivia_line_of_exposed ?_ more
        rw [← hbegins.drop_start hcs]
        exact hlost p rfl
    have heq := scanFrom_skip hskip am here
    rw [List.append_assoc, List.singleton_append] at heq
    rw [heq, patternAfter, List.foldl_nil]
    cases scanFrom am (here.past (cs ++ ['\n'])) more <;> rfl
  | cons p kept ih =>
    obtain ⟨there, after, hbegins, hafter⟩ := begins_of_scanFrom h
    have hexposed : ¬Exposed (skipTrivia cs) := by
      rw [← hbegins.drop_start hcs]
      exact hkept p List.mem_cons_self
    have hrest := ih hafter (hbegins.drop_stop hcs)
      (fun q hq => hkept q (List.mem_cons_of_mem p hq))
    have hpast : there.past (after ++ ['\n']) = here.past (cs ++ ['\n']) := by
      rw [Cursor.past_append, Cursor.past_append, hbegins.past]
    rw [(hbegins.line hexposed more).scanFrom_eq, hrest, hpast, patternAfter, patternAfter,
      List.foldl_cons]
    cases scanFrom _ (here.past (cs ++ ['\n'])) more <;> rfl

/-- The lines of the tokens of a text are at most that of its end. -/
theorem line_le_of_scanFrom {placed : List Placed} (h : scanFrom am here cs = .ok placed) :
    ∀ p ∈ placed, p.line ≤ (here.past cs).line := by
  induction placed generalizing am here cs with
  | nil =>
    intro p hp
    cases hp
  | cons q placed ih =>
    obtain ⟨there, after, hbegins, hafter⟩ := begins_of_scanFrom h
    intro p hp
    rcases List.mem_cons.mp hp with rfl | hp
    · exact hbegins.line_le
    · rw [← hbegins.past]
      exact ih hafter p hp

/-- A slash on a line that a carriage return spoils is a token. -/
theorem skipTrivia_slash (h : dropLine rest = none) :
    skipTrivia ('/' :: rest) = '/' :: rest := by
  cases rest with
  | nil => cases h
  | cons c rest =>
    by_cases hc : c = '/'
    · subst hc
      exact skipTrivia_slashes h
    · exact skipTrivia_of_ne rfl (by decide) fun _ heq => hc (Option.some.inj heq)

/-- Whether a pattern may stand first makes a difference to slashes only. -/
theorem scanFrom_of_ne_slash (h : ∀ c ∈ (skipTrivia cs).head?, c ≠ '/') (am : Bool)
    (here : Cursor) : scanFrom am here cs = scanFrom false here cs := by
  cases hs : skipTrivia cs with
  | nil => rw [scanFrom_nil hs, scanFrom_nil hs]
  | cons c rest =>
    rw [hs] at h
    have hc : (c == '/') = false := beq_eq_false_iff_ne.mpr (h c rfl)
    rw [scanFrom_cons hs, scanFrom_cons hs]
    simp only [scan, hc, Bool.and_false]

theorem tokens_of_ne_slash {placed : List Placed} (h : scanFrom false here cs = .ok placed)
    (hne : ∀ p ∈ placed.head?, p.token ≠ .symbol .slash) (am : Bool) :
    tokens am cs = .ok (placed.map Placed.token) := by
  have hhead : ∀ c ∈ (skipTrivia cs).head?, c ≠ '/' := by
    rintro c hc rfl
    obtain ⟨rest, hs⟩ := List.head?_eq_some_iff.mp hc
    cases placed with
    | nil => cases hs.symm.trans (skipTrivia_of_scanFrom h)
    | cons p placed =>
      obtain ⟨there, after, hbegins, -⟩ := begins_of_scanFrom h
      exact hne p rfl (hbegins.slash hs).1
  rw [← forget_scanFrom here, scanFrom_of_ne_slash hhead]
  exact congrArg forget h

/-- Where no pattern may stand, two slashes that begin no comment are two tokens. -/
theorem slashes_of_scanFrom {p : Placed} {placed : List Placed}
    (h : scanFrom false here cs = .ok (p :: placed)) (hs : skipTrivia cs = '/' :: '/' :: rest) :
    p.token = .symbol .slash ∧ ∃ q others, placed = q :: others ∧ q.token = .symbol .slash := by
  have hspoiled : dropLine rest = none := (of_skipTrivia_eq_cons hs).2
  have hskip : skipTrivia ('/' :: rest) = '/' :: rest := skipTrivia_slash hspoiled
  obtain ⟨there, after, hbegins, hafter⟩ := begins_of_scanFrom h
  obtain ⟨htoken, rfl⟩ := hbegins.slash hs
  rw [htoken] at hafter
  refine ⟨htoken, ?_⟩
  cases placed with
  | nil => cases hskip.symm.trans (skipTrivia_of_scanFrom hafter)
  | cons q others =>
    obtain ⟨last, final, hsecond, -⟩ := begins_of_scanFrom hafter
    exact ⟨q, others, rfl, (hsecond.slash hskip).1⟩

end

/-- A token so many characters and lines further on. -/
def Placed.shift (chars lines : Nat) (p : Placed) : Placed :=
  { p with line := p.line + lines, start := p.start + chars, stop := p.stop + chars }

/-- A position so many characters and lines further on. -/
def Cursor.shift (chars lines : Nat) (here : Cursor) : Cursor :=
  ⟨here.offset + chars, here.line + lines⟩

theorem scanFrom_shift (chars lines : Nat) (am : Bool) (here : Cursor) (cs : List Char) :
    scanFrom am (here.shift chars lines) cs =
      match scanFrom am here cs with
      | .ok placed => .ok (placed.map (Placed.shift chars lines))
      | .error e => .error { e with line := e.line + lines } := by
  have hpast (here : Cursor) (cs : List Char) :
      (here.shift chars lines).past cs = (here.past cs).shift chars lines := by
    simp only [Cursor.past, Cursor.shift, Cursor.mk.injEq]
    omega
  -- Trivia is skipped before each token, so the induction is on the length of the text.
  induction hn : cs.length using Nat.strong_induction_on generalizing am here cs with
  | _ n ih =>
    cases hs : skipTrivia cs with
    | nil =>
      rw [scanFrom_nil hs, scanFrom_nil hs]
      rfl
    | cons c rest =>
      rw [scanFrom_cons hs, scanFrom_cons hs]
      cases hr : scan am c rest with
      | error fault =>
        simp only [Cursor.to, hpast]
        rfl
      | ok r =>
        have hmore := ih r.rest.length (hn ▸ length_rest_lt hs r) (allowsPattern r.value)
          ((here.to cs (c :: rest)).to (c :: rest) r.rest) r.rest rfl
        simp only [Cursor.to, hpast] at hmore ⊢
        rw [hmore]
        cases scanFrom (allowsPattern r.value) _ r.rest <;> rfl

end Bylaw.Token
