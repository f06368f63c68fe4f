import Bylaw.Proofs.Token.Quoting
import Mathlib.Data.List.TakeWhile

/-! Where tokens end. A string, a pattern or a block ends at a character of its own, so that it is
read in front of any text; a word, a number or a symbol ends where the text after it cannot go on
with it. Main statement: a token is read alike in front of any text that resumes what came after
it. -/

namespace Bylaw.Token

/-- A reader that knows the end of what it reads: it takes a piece off the front of its text, and
finds the same in that piece before any other text. -/
def Delimited {α : Type} (read : (cs : List Char) → Except Fault (Reading α cs)) : Prop :=
  ∀ (cs : List Char) (v : α) (after : List Char), Yields (read cs) v after →
    ∃ piece, cs = piece ++ after ∧ ∀ more, Yields (read (piece ++ more)) v more

theorem delimited_patternBody : Delimited patternBody := by
  rintro cs v after ⟨hlt, h⟩
  fun_induction patternBody cs generalizing v after with
  | case1 | case3 | case4 | case6 | case8 => cases h
  | case2 rest =>
    cases h
    refine ⟨['/'], rfl, fun more => ?_⟩
    rw [List.singleton_append, patternBody.eq_def]
    simp [Reading.ofHead]
  | case5 e rest r hr hs hn ih =>
    cases h
    obtain ⟨piece, hpiece, hmore⟩ := ih _ _ r.shorter hr
    exact ⟨'\\' :: e :: piece, congrArg ('\\' :: e :: ·) hpiece,
      fun more => patternBody_escaped e (hmore more)⟩
  | case7 c rest hs hn hb r hr ih =>
    cases h
    obtain ⟨piece, hpiece, hmore⟩ := ih _ _ r.shorter hr
    exact ⟨c :: piece, congrArg (c :: ·) hpiece,
      fun more => patternBody_plain hs hn hb (hmore more)⟩

theorem delimited_quotedBody (quote : Char) : Delimited (quotedBody quote) := by
  rintro cs v after ⟨hlt, h⟩
  fun_induction quotedBody quote cs generalizing v after with
  | case1 | case3 | case4 | case5 | case7 | case9 | case11 => cases h
  | case2 rest =>
    cases h
    refine ⟨[quote], rfl, fun more => ?_⟩
    rw [List.singleton_append, quotedBody.eq_def]
    simp [Reading.ofHead]
  | case6 rest ch hch r hr hq hn ih =>
    cases h
    obtain ⟨piece, hpiece, hmore⟩ := ih _ _ r.shorter hr
    -- More was read after the escape, so all of its four digits are there.
    have hlong : 4 < rest.length := by
      have := r.shorter
      rw [List.length_drop] at this
      omega
    obtain ⟨a, b, d, e, others, rfl⟩ : ∃ a b d e others, rest = a :: b :: d :: e :: others := by
      rcases rest with _ | ⟨a, _ | ⟨b, _ | ⟨d, _ | ⟨e, others⟩⟩⟩⟩
      case cons.cons.cons.cons => exact ⟨a, b, d, e, others, rfl⟩
      all_goals simp at hlong
    exact ⟨'\\' :: 'u' :: a :: b :: d :: e :: piece,
      congrArg ('\\' :: 'u' :: a :: b :: d :: e :: ·) hpiece,
      fun more => quotedBody_numbered hq hch (hmore more)⟩
  | case8 e rest he r hr hq hn ih =>
    cases h
    obtain ⟨piece, hpiece, hmore⟩ := ih _ _ r.shorter hr
    exact ⟨'\\' :: e :: piece, congrArg ('\\' :: e :: ·) hpiece,
      fun more => quotedBody_escaped hq he (hmore more)⟩
  | case10 c rest hq hn hb r hr ih =>
    cases h
    obtain ⟨piece, hpiece, hmore⟩ := ih _ _ r.shorter hr
    exact ⟨c :: piece, congrArg (c :: ·) hpiece,
      fun more => quotedBody_plain hq hn hb (hmore more)⟩

/-- What a character does to the reading of a block: it closes the block, or leads to so many open
braces and a mode. -/
def blockStep (opened : Nat) : BlockMode → Char → Option (Nat × BlockMode)
  | .escaped, _ => some (opened, .inString)
  | .inString, c =>
    some (opened, if c = '\\' then .escaped else if c = '"' then .outside else .inString)
  | .outside, c =>
    if c = '"' then some (opened, .inString)
    else if c = '\x7b' then some (opened + 1, .outside)
    else if c = '\x7d' then
      match opened with
      | 0 => none
      | opened + 1 => some (opened, .outside)
    else some (opened, .outside)

theorem blockBody_cons (opened : Nat) (mode : BlockMode) (c : Char) (rest : List Char) :
    blockBody opened mode (c :: rest) =
      match blockStep opened mode c with
      | none => .ok (.ofHead [c])
      | some (opened, mode) =>
        match blockBody opened mode rest with
        | .ok r => .ok (r.map (c :: ·)).behind
        | .error fault => .error fault := by
  rw [blockBody.eq_def]
  cases mode with
  | escaped => rfl
  | inString => rfl
  | outside =>
    simp only [blockStep]
    split
    · rfl
    split
    · rfl
    split
    · cases opened <;> rfl
    · rfl

theorem yields_blockBody_cons {opened : Nat} {mode : BlockMode} {c : Char}
    {rest v after : List Char} :
    Yields (blockBody opened mode (c :: rest)) v after ↔
      match blockStep opened mode c with
      | none => v = [c] ∧ after = rest
      | some (opened, mode) => ∃ w, v = c :: w ∧ Yields (blockBody opened mode rest) w after := by
  rw [blockBody_cons]
  cases blockStep opened mode c with
  | none => simp [Reading.ofHead, eq_comm]
  | some step =>
    simp only
    cases blockBody step.1 step.2 rest with
    | error fault => simp
    | ok r => simp [Reading.map, Reading.behind, eq_comm]

theorem delimited_blockBody (opened : Nat) (mode : BlockMode) :
    Delimited (blockBody opened mode) := by
  intro cs v after h
  induction cs generalizing opened mode v with
  | nil =>
    rw [blockBody.eq_def] at h
    exact absurd h yields_error
  | cons c rest ih =>
    rw [yields_blockBody_cons] at h
    cases hstep : blockStep opened mode c with
    | none =>
      rw [hstep] at h
      obtain ⟨rfl, rfl⟩ := h
      refine ⟨[c], rfl, fun more => ?_⟩
      rw [List.singleton_append, yields_blockBody_cons, hstep]
      exact ⟨rfl, rfl⟩
    | some step =>
      rw [hstep] at h
      obtain ⟨w, rfl, hw⟩ := h
      obtain ⟨piece, hpiece, hmore⟩ := ih step.1 step.2 _ hw
      refine ⟨c :: piece, congrArg (c :: ·) hpiece, fun more => ?_⟩
      rw [List.cons_append, yields_blockBody_cons, hstep]
      exact ⟨w, rfl, hmore more⟩

/-- The second text goes on as the first does, up to a blank of its own at most. -/
inductive Resumes : List Char → List Char → Prop
  | blank {c : Char} (h : isBlank c = true) (cs ds : List Char) : Resumes cs (c :: ds)
  | nil : Resumes [] []
  | cons (c : Char) {cs ds : List Char} (h : Resumes cs ds) : Resumes (c :: cs) (c :: ds)

namespace Resumes

variable {cs ds : List Char}

theorem refl (cs : List Char) : Resumes cs cs := by
  induction cs with
  | nil => exact .nil
  | cons c cs ih => exact .cons c ih

theorem append (cs : List Char) {c : Char} (hc : isBlank c = true) (more : List Char) :
    Resumes cs (cs ++ c :: more) := by
  induction cs with
  | nil => exact .blank hc [] more
  | cons d cs ih => exact .cons d ih

/-- A text that resumes another begins as that one does, or with a blank. -/
theorem head (h : Resumes cs ds) : ∀ c ∈ ds.head?, isBlank c = true ∨ c ∈ cs.head? := by
  intro c hc
  cases h with
  | blank hb cs ds =>
    obtain rfl := Option.some.inj hc
    exact .inl hb
  | nil => cases hc
  | cons d h => exact .inr hc

theorem tail {c : Char} (h : Resumes cs (c :: ds)) (hc : isBlank c = false) :
    ∃ more, cs = c :: more ∧ Resumes more ds := by
  cases h with
  | blank hb _ _ => cases hc.symm.trans hb
  | cons _ h => exact ⟨_, rfl, h⟩

/-- No character of a kind that no blank is of comes first in either text. -/
theorem head_eq_false (h : Resumes cs ds) {p : Char → Bool}
    (hp : ∀ c, isBlank c = true → p c = false) (hcs : ∀ c ∈ cs.head?, p c = false) :
    ∀ c ∈ ds.head?, p c = false := by
  intro c hc
  rcases h.head c hc with hb | hmem
  · exact hp c hb
  · exact hcs c hmem

end Resumes

theorem isDigit_of_isBlank {c : Char} (h : isBlank c = true) : c.isDigit = false := by
  simp only [isBlank, Bool.or_eq_true, beq_iff_eq] at h
  rcases h with ((rfl | rfl) | rfl) | rfl <;> rfl

theorem isWordPart_of_isBlank {c : Char} (h : isBlank c = true) : isWordPart c = false := by
  simp only [isBlank, Bool.or_eq_true, beq_iff_eq] at h
  rcases h with ((rfl | rfl) | rfl) | rfl <;> rfl

theorem EndsWhole.resumes {cs ds : List Char} (h : EndsWhole cs) (hr : Resumes cs ds) :
    EndsWhole ds where
  head := hr.head_eq_false (fun _ => isDigit_of_isBlank) h.head
  point := by
    rintro more rfl
    obtain ⟨after, rfl, hafter⟩ := hr.tail rfl
    exact hafter.head_eq_false (fun _ => isDigit_of_isBlank) (h.point after rfl)

section

variable {am : Bool} {c : Char} {rest after : List Char} {t : Token}

theorem head_dropWhile {p : Char → Bool} (cs : List Char) :
    ∀ c ∈ (cs.dropWhile p).head?, p c = false := by
  intro c hc
  have hnot := List.head?_dropWhile_not p cs
  rw [Option.mem_def.mp hc] at hnot
  simpa using hnot

theorem splitNumber_cases (cs : List Char) :
    ∃ ds rest, (∀ c ∈ ds, c.isDigit = true) ∧
      ((cs = ds ++ rest ∧ EndsWhole rest ∧ splitNumber cs = (ds, none, rest)) ∨
        ∃ fs, cs = ds ++ '.' :: (fs ++ rest) ∧ (∀ c ∈ fs, c.isDigit = true) ∧ fs ≠ [] ∧
          (∀ c ∈ rest.head?, c.isDigit = false) ∧ splitNumber cs = (ds, some fs, rest)) := by
  have hcs := List.takeWhile_append_dropWhile (p := Char.isDigit) (l := cs)
  have hds : ∀ c ∈ cs.takeWhile Char.isDigit, c.isDigit = true := fun _ => List.mem_takeWhile_imp
  have hhead := head_dropWhile (p := Char.isDigit) cs
  -- A point counts only if a digit follows it.
  by_cases hpoint : ∃ more, cs.dropWhile Char.isDigit = '.' :: more ∧
      more.takeWhile Char.isDigit ≠ []
  · obtain ⟨more, hmore, hne⟩ := hpoint
    have hsplit := List.takeWhile_append_dropWhile (p := Char.isDigit) (l := more)
    have hfs : ∀ c ∈ more.takeWhile Char.isDigit, c.isDigit = true :=
      fun _ => List.mem_takeWhile_imp
    have heq : cs = cs.takeWhile Char.isDigit ++
        '.' :: (more.takeWhile Char.isDigit ++ more.dropWhile Char.isDigit) := by
      rw [hsplit, ← hmore, hcs]
    have hread := splitNumber_fraction hds hfs hne (head_dropWhile more)
    rw [← heq] at hread
    exact ⟨_, _, hds, .inr ⟨_, heq, hfs, hne, head_dropWhile more, hread⟩⟩
  · have hends : EndsWhole (cs.dropWhile Char.isDigit) := by
      refine ⟨hhead, fun more hmore c hc => ?_⟩
      by_contra hdigit
      obtain ⟨others, rfl⟩ := List.head?_eq_some_iff.mp hc
      exact hpoint ⟨_, hmore, by simp [hdigit]⟩
    refine ⟨_, _, hds, .inl ⟨hcs.symm, hends, ?_⟩⟩
    have hsplit := splitNumber_of_endsWhole hds hends
    rwa [hcs] at hsplit

theorem splitNumber_resumes (cs : List Char) :
    ∃ piece, cs = piece ++ (splitNumber cs).2.2 ∧ ∀ more, Resumes (splitNumber cs).2.2 more →
      splitNumber (piece ++ more) = ((splitNumber cs).1, (splitNumber cs).2.1, more) := by
  obtain ⟨ds, rest, hds, ⟨rfl, hends, hsplit⟩ | ⟨fs, rfl, hfs, hne, hends, hsplit⟩⟩ :=
    splitNumber_cases cs
  · rw [hsplit]
    exact ⟨ds, rfl, fun more hmore => splitNumber_of_endsWhole hds (hends.resumes hmore)⟩
  · rw [hsplit]
    refine ⟨ds ++ '.' :: fs, by simp, fun more hmore => ?_⟩
    rw [List.append_assoc, List.cons_append]
    exact splitNumber_fraction hds hfs hne
      (hmore.head_eq_false (fun _ => isDigit_of_isBlank) hends)

/-- A token is read off a piece of its text, and off that piece before any text that resumes the
rest. -/
def Ends (read : (rest : List Char) → Except Fault (Reading Token (c :: rest)))
    (rest : List Char) (t : Token) (after : List Char) : Prop :=
  ∃ piece, rest = piece ++ after ∧
    ∀ more, Resumes after more → Yields (read (piece ++ more)) t more

theorem scanNumber_ends (h : Yields (scanNumber c rest) t after) :
    Ends (scanNumber c) rest t after := by
  obtain ⟨piece, hpiece, hsplit⟩ := splitNumber_resumes rest
  rw [scanNumber] at h
  split at h
  · rename_i n hn
    obtain ⟨rfl, rfl⟩ := yields_ok.mp h
    refine ⟨piece, hpiece, fun more hmore => ?_⟩
    simp only [scanNumber, hsplit more hmore, hn]
    exact yields_ok.mpr ⟨rfl, rfl⟩
  · exact absurd h yields_error

theorem scanWord_ends : Ends (fun rest => .ok (scanWord c rest)) rest (scanWord c rest).value
    (scanWord c rest).rest := by
  refine ⟨rest.takeWhile isWordPart, List.takeWhile_append_dropWhile.symm, fun more hmore => ?_⟩
  obtain ⟨htake, hdrop⟩ := span_append (fun _ => List.mem_takeWhile_imp)
    (hmore.head_eq_false (fun _ => isWordPart_of_isBlank) (head_dropWhile rest))
  refine yields_ok.mpr ⟨?_, hdrop⟩
  simp only [scanWord, htake]

theorem scanSymbol_ends (h : Yields (scanSymbol c rest) t after) :
    Ends (scanSymbol c) rest t after := by
  have hnext {d : Char} (hd : isBlank d = false) (hne : ∀ tail, rest = d :: tail → False)
      {more : List Char} (hmore : Resumes rest more) : ∀ tail, more = d :: tail → False := by
    rintro tail rfl
    obtain ⟨others, hrest, -⟩ := hmore.tail hd
    exact hne others hrest
  unfold scanSymbol at h
  split at h
  -- Symbols of two characters.
  case h_1 | h_2 | h_3 | h_4 | h_5 =>
    obtain ⟨rfl, rfl⟩ := yields_ok.mp h
    exact ⟨[_], rfl, fun more _ => yields_ok.mpr ⟨rfl, rfl⟩⟩
  -- Symbols that a second character would change: it did not stand there, nor does it now.
  case h_6 hne | h_7 hne =>
    obtain ⟨rfl, rfl⟩ := yields_ok.mp h
    refine ⟨[], rfl, fun more hmore => ?_⟩
    rw [List.nil_append, scanSymbol]
    · exact yields_ok.mpr ⟨rfl, rfl⟩
    · exact hnext rfl hne hmore
  case h_8 hequal hgreater =>
    obtain ⟨rfl, rfl⟩ := yields_ok.mp h
    refine ⟨[], rfl, fun more hmore => ?_⟩
    rw [List.nil_append, scanSymbol]
    · exact yields_ok.mpr ⟨rfl, rfl⟩
    · exact hnext rfl hequal hmore
    · exact hnext rfl hgreater hmore
  case h_18 => exact absurd h yields_error
  all_goals
    obtain ⟨rfl, rfl⟩ := yields_ok.mp h
    exact ⟨[], rfl, fun more _ => yields_ok.mpr ⟨rfl, rfl⟩⟩

theorem Delimited.ends {α : Type} {read : (cs : List Char) → Except Fault (Reading α cs)}
    (hread : Delimited read) {f : α → Token}
    (hscan : ∀ rest after t, Yields (scan am c rest) t after ↔
      ∃ v, t = f v ∧ Yields (read rest) v after)
    (h : Yields (scan am c rest) t after) : Ends (scan am c) rest t after := by
  obtain ⟨v, rfl, hv⟩ := (hscan rest after t).mp h
  obtain ⟨piece, hpiece, hmore⟩ := hread rest v after hv
  exact ⟨piece, hpiece, fun more _ => (hscan _ _ _).mpr ⟨v, rfl, hmore more⟩⟩

/-- A token is read alike before any text that resumes what came after it. -/
theorem scan_ends (h : Yields (scan am c rest) t after) : Ends (scan am c) rest t after := by
  by_cases hpattern : (am && c == '/') = true
  · refine delimited_patternBody.ends (f := fun cs => .pattern (.ofList cs)) (fun rest _ _ => ?_) h
    rw [scan, if_pos hpattern]
    cases patternBody rest <;> simp [Reading.map, Reading.behind, eq_comm]
  by_cases hquoted : (c == '"' || c == '\'') = true
  · refine (delimited_quotedBody c).ends (f := fun cs => .str (.ofList cs)) (fun rest _ _ => ?_) h
    rw [scan, if_neg hpattern, if_pos hquoted]
    cases quotedBody c rest <;> simp [Reading.map, Reading.behind, eq_comm]
  by_cases hblock : (c == '\x7b') = true
  · refine (delimited_blockBody 0 .outside).ends (f := fun cs => .block (.ofList (c :: cs)))
      (fun rest _ _ => ?_) h
    rw [scan, if_neg hpattern, if_neg hquoted, if_pos hblock]
    cases blockBody 0 .outside rest <;> simp [Reading.map, Reading.behind, eq_comm]
  -- The first character is none of those that delimit a token: the kind of token is left.
  have hscan : scan am c = fun rest =>
      if c.isDigit then scanNumber c rest
      else if isWordStart c then .ok (scanWord c rest)
      else scanSymbol c rest := by
    funext rest
    rw [scan, if_neg hpattern, if_neg hquoted, if_neg hblock]
  rw [hscan] at h ⊢
  by_cases hdigit : c.isDigit = true
  · simp only [if_pos hdigit] at h ⊢
    exact scanNumber_ends h
  simp only [if_neg hdigit] at h ⊢
  by_cases hword : isWordStart c = true
  · simp only [if_pos hword, yields_ok] at h ⊢
    obtain ⟨rfl, rfl⟩ := h
    exact scanWord_ends
  · simp only [if_neg hword] at h ⊢
    exact scanSymbol_ends h

end

end Bylaw.Token
