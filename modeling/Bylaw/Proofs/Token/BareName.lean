import Bylaw.Proofs.Token.Quoting

/-! Names without quotes in front of a blank and a word in capital letters. Main statement: unless
it begins with a comment, what such a name is read as is no string that holds the name itself. -/

namespace Bylaw.Token

/-- Whether a character is a capital letter and no hexadecimal digit. In a string such a letter
stands for itself, after a backslash too, and it is no part of an escape by number. -/
def isPlainCapital (d : Char) : Bool := d.isUpper && (Json.hexValue? d).isNone

section

variable {d : Char}

theorem ne_of_isPlainCapital (hd : isPlainCapital d = true) {c : Char} (hc : c.isUpper = false) :
    c ≠ d := by
  rintro rfl
  simp [isPlainCapital, hc] at hd

theorem plainEscape_of_isPlainCapital (hd : isPlainCapital d = true) : plainEscape d = d := by
  have hn : d ≠ 'n' := (ne_of_isPlainCapital hd rfl).symm
  have ht : d ≠ 't' := (ne_of_isPlainCapital hd rfl).symm
  have hr : d ≠ 'r' := (ne_of_isPlainCapital hd rfl).symm
  have hb : d ≠ 'b' := (ne_of_isPlainCapital hd rfl).symm
  have hf : d ≠ 'f' := (ne_of_isPlainCapital hd rfl).symm
  simp only [plainEscape, hn, ht, hr, hb, hf, if_false]

theorem isWordStart_of_isPlainCapital (hd : isPlainCapital d = true) : isWordStart d = true := by
  have halpha : d.isAlpha = (d.isUpper || d.isLower) := rfl
  simp only [isPlainCapital, Bool.and_eq_true] at hd
  simp [isWordStart, halpha, hd.1]

theorem isBlank_of_isPlainCapital (hd : isPlainCapital d = true) : isBlank d = false :=
  isBlank_of_ne (ne_of_isPlainCapital hd rfl).symm (ne_of_isPlainCapital hd rfl).symm
    (ne_of_isPlainCapital hd rfl).symm (ne_of_isPlainCapital hd rfl).symm

/-- The digits of an escape by number are hexadecimal ones. -/
theorem notMem_of_mapM_hexValue? (hd : isPlainCapital d = true) {cs : List Char} {values : List Nat}
    (h : cs.mapM Json.hexValue? = some values) : d ∉ cs := by
  simp only [isPlainCapital, Bool.and_eq_true, Option.isNone_iff_eq_none] at hd
  induction cs generalizing values with
  | nil => exact List.not_mem_nil
  | cons c cs ih =>
    simp only [List.mapM_cons, Option.bind_eq_bind, Option.bind_eq_some_iff] at h
    obtain ⟨v, hv, others, hothers, -⟩ := h
    rw [List.mem_cons, not_or]
    refine ⟨?_, ih hothers⟩
    rintro rfl
    rw [hd.2] at hv
    cases hv

theorem notMem_of_escapedChar? (hd : isPlainCapital d = true) {cs : List Char} {ch : Char}
    (h : escapedChar? cs = some ch) : d ∉ cs := by
  have hplus : '+' ≠ d := ne_of_isPlainCapital hd rfl
  obtain ⟨n, hn, -⟩ := Option.bind_eq_some_iff.mp h
  unfold hexNumber? at hn
  split at hn
  · dsimp only at hn
    split at hn
    · cases hn
    · obtain ⟨values, hvalues, -⟩ := Option.map_eq_some_iff.mp hn
      simp [hplus.symm, notMem_of_mapM_hexValue? hd hvalues]
  · dsimp only at hn
    split at hn
    · cases hn
    · obtain ⟨values, hvalues, -⟩ := Option.map_eq_some_iff.mp hn
      exact notMem_of_mapM_hexValue? hd hvalues

/-- In what a string holds, with its closing quote, a plain capital letter stands no later than in
the text of the string. -/
theorem idxOf_quotedBody {quote : Char} (hquote : quote ≠ d) (hd : isPlainCapital d = true)
    {cs v after : List Char} (h : Yields (quotedBody quote cs) v after) :
    (v ++ [quote]).idxOf d ≤ cs.idxOf d := by
  have hbackslash : '\\' ≠ d := ne_of_isPlainCapital hd rfl
  have hu : 'u' ≠ d := ne_of_isPlainCapital hd rfl
  have hcons (c : Char) (vs : List Char) : (c :: vs).idxOf d ≤ vs.idxOf d + 1 := by
    by_cases hc : c = d
    · rw [List.idxOf_cons_eq _ hc]
      exact Nat.zero_le _
    · exact Nat.le_of_eq (List.idxOf_cons_ne _ hc)
  obtain ⟨hlt, h⟩ := h
  -- By induction on the string: what an escape takes up is never shorter than what it stands for.
  fun_induction quotedBody quote cs generalizing v after with
  | case1 | case3 | case4 | case5 | case7 | case9 | case11 => cases h
  | case2 rest =>
    cases h
    rw [List.nil_append, List.idxOf_cons_ne _ hquote, List.idxOf_cons_ne _ hquote]
    exact Nat.succ_le_succ (Nat.zero_le _)
  | case6 rest ch hch r hr hq hn ih =>
    cases h
    have hmore := ih r.shorter hr
    -- The four digits of an escape are no capital letter.
    have hrest : rest.idxOf d = (rest.take 4).length + (rest.drop 4).idxOf d := by
      conv_lhs => rw [← List.take_append_drop 4 rest]
      exact List.idxOf_append_of_notMem (notMem_of_escapedChar? hd hch)
    rw [List.idxOf_cons_ne _ hbackslash, List.idxOf_cons_ne _ hu, hrest]
    have hch := hcons ch (r.value ++ [quote])
    rw [List.cons_append]
    omega
  | case8 e rest he r hr hq hn ih =>
    cases h
    have hmore := ih r.shorter hr
    rw [List.idxOf_cons_ne _ hbackslash]
    show ((plainEscape e :: r.value) ++ [quote]).idxOf d ≤ _
    rw [List.cons_append]
    -- An escaped capital letter stands for itself, which counts in both places.
    by_cases hed : e = d
    · rw [hed, plainEscape_of_isPlainCapital hd, List.idxOf_cons_eq _ rfl]
      exact Nat.zero_le _
    · rw [List.idxOf_cons_ne _ hed]
      have := hcons (plainEscape e) (r.value ++ [quote])
      omega
  | case10 c rest hq hn hb r hr ih =>
    cases h
    have hmore := ih r.shorter hr
    show ((c :: r.value) ++ [quote]).idxOf d ≤ _
    rw [List.cons_append]
    by_cases hcd : c = d
    · rw [List.idxOf_cons_eq _ hcd]
      exact Nat.zero_le _
    · rw [List.idxOf_cons_ne _ hcd, List.idxOf_cons_ne _ hcd]
      exact Nat.succ_le_succ hmore

/-- A string is read where a quote stands. -/
theorem quoted_of_scan {am : Bool} {c : Char} {rest after : List Char} {s : String}
    (h : Yields (scan am c rest) (.str s) after) :
    c.isUpper = false ∧ ∃ v, s = .ofList v ∧ Yields (quotedBody c rest) v after := by
  unfold scan at h
  split at h
  · cases hbody : patternBody rest <;> simp [hbody, Reading.map, Reading.behind] at h
  split at h
  · rename_i hquote
    have hupper : c.isUpper = false := by
      simp only [Bool.or_eq_true, beq_iff_eq] at hquote
      rcases hquote with rfl | rfl <;> rfl
    cases hbody : quotedBody c rest with
    | error fault => simp [hbody] at h
    | ok r =>
      simp only [hbody, yields_ok, Reading.map, Reading.behind, Token.str.injEq] at h
      exact ⟨hupper, r.value, h.1.symm, yields_ok.mpr ⟨rfl, h.2⟩⟩
  split at h
  · cases hbody : blockBody 0 .outside rest <;> simp [hbody, Reading.map, Reading.behind] at h
  split at h
  · unfold scanNumber at h
    dsimp only at h
    split at h <;> simp at h
  split at h
  · simp [scanWord] at h
  · unfold scanSymbol at h
    split at h <;> simp [Reading.ofHead, Reading.behind] at h

theorem skipTrivia_blanks {blanks : List Char} (h : ∀ c ∈ blanks, isBlank c = true)
    (rest : List Char) : skipTrivia (blanks ++ rest) = skipTrivia rest := by
  induction blanks with
  | nil => rfl
  | cons c blanks ih =>
    rw [List.cons_append, skipTrivia_blank (h c List.mem_cons_self),
      ih fun d hd => h d (List.mem_cons_of_mem c hd)]

end

/-- Whether a text begins with a comment, blanks in front of it apart. -/
def beginsComment (cs : List Char) : Bool :=
  match cs.dropWhile isBlank with
  | '#' :: _ => true
  | '/' :: '/' :: _ => true
  | _ => false

/-- A name that does not begin with a comment begins with a token, if not all of it is blank. -/
theorem skipTrivia_name {name rest : List Char} (h : beginsComment name = false) {c : Char}
    {more : List Char} (hname : name.dropWhile isBlank = c :: more) :
    skipTrivia (name ++ ' ' :: rest) = c :: (more ++ ' ' :: rest) := by
  have hblanks : ∀ b ∈ name.takeWhile isBlank, isBlank b = true :=
    List.all_eq_true.mp List.all_takeWhile
  have hc : isBlank c = false := by
    have := List.head?_dropWhile_not isBlank name
    simpa [hname] using this
  simp only [beginsComment, hname] at h
  rw [← List.takeWhile_append_dropWhile (p := isBlank) (l := name), List.append_assoc,
    skipTrivia_blanks hblanks, hname, List.cons_append]
  refine skipTrivia_of_ne hc ?_ ?_
  · rintro rfl
    simp at h
  · rintro rfl hslash
    cases more with
    | nil => simp at hslash
    | cons d more =>
      obtain rfl : d = '/' := by simpa using hslash
      simp at h

/-- The first token of a text is read at the first character after blanks and comments. -/
theorem scan_of_tokens {am : Bool} {cs : List Char} {t : Token} {ts : List Token}
    (h : tokens am cs = .ok (t :: ts)) :
    ∃ c rest after, skipTrivia cs = c :: rest ∧ Yields (scan am c rest) t after := by
  cases hs : skipTrivia cs with
  | nil =>
    rw [tokens_of_skipTrivia_nil hs] at h
    cases h
  | cons c rest =>
    rw [tokens_of_skipTrivia hs] at h
    cases hscan : scan am c rest with
    | error fault => simp [hscan] at h
    | ok r =>
      simp only [hscan] at h
      obtain ⟨us, -, hts⟩ := map_eq_ok.mp h
      obtain rfl := (List.cons.inj hts).1
      exact ⟨c, rest, r.rest, rfl, r.shorter, hscan⟩

/-- A name in front of a blank and a word, unless it begins with a comment, is not read as a string
that holds the name. What the string holds goes on with the blanks and the quote that the name
begins with, so the capital letter of the word would stand later in it than in the text. -/
theorem tokens_ne_str {name : String} (h : beginsComment name.toList = false) {d : Char}
    (hd : isPlainCapital d = true) (rest : List Char) (ts : List Token) :
    tokens false (name.toList ++ ' ' :: d :: rest) ≠ .ok (.str name :: ts) := by
  intro htokens
  obtain ⟨c, body, after, hskip, hscan⟩ := scan_of_tokens htokens
  obtain ⟨hupper, v, hv, hbody⟩ := quoted_of_scan hscan
  have hc : c ≠ d := ne_of_isPlainCapital hd hupper
  have hsplit := List.takeWhile_append_dropWhile (p := isBlank) (l := name.toList)
  have hblanks : ∀ b ∈ name.toList.takeWhile isBlank, isBlank b = true :=
    List.all_eq_true.mp List.all_takeWhile
  cases hname : name.toList.dropWhile isBlank with
  | nil =>
    rw [hname, List.append_nil] at hsplit
    rw [skipTrivia_blanks (hsplit ▸ hblanks), skipTrivia_blank rfl,
      skipTrivia_of_isWordStart (isWordStart_of_isPlainCapital hd)] at hskip
    exact hc (List.cons.inj hskip).1.symm
  | cons c' more =>
    rw [skipTrivia_name h hname] at hskip
    obtain ⟨rfl, rfl⟩ := List.cons.inj hskip
    have hvalue : v = name.toList.takeWhile isBlank ++ c' :: more := by
      rw [← hname, hsplit, hv, String.toList_ofList]
    have hfront : d ∉ name.toList.takeWhile isBlank := by
      intro hmem
      have hblank := hblanks d hmem
      rw [isBlank_of_isPlainCapital hd] at hblank
      cases hblank
    -- The letter stands no later in the string than in the text, where a blank is in front of it.
    have hle := idxOf_quotedBody hc hd hbody
    rw [hvalue, List.append_assoc, List.idxOf_append_of_notMem hfront, List.cons_append,
      List.idxOf_cons_ne _ hc] at hle
    -- Whether or not the name holds the letter too, the quote puts it one place later.
    by_cases hmore : d ∈ more
    · rw [List.idxOf_append_of_mem hmore, List.idxOf_append_of_mem hmore] at hle
      omega
    · rw [List.idxOf_append_of_notMem hmore, List.idxOf_append_of_notMem hmore,
        List.idxOf_cons_ne _ hc, List.idxOf_cons_ne _ (ne_of_isPlainCapital hd rfl),
        List.idxOf_cons_eq _ rfl] at hle
      omega

end Bylaw.Token
