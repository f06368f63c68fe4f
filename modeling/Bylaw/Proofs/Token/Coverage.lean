import Bylaw.Proofs.Rule.Seam
import Bylaw.Proofs.Text.Bytes

/-! What the tokens of a text leave over. Tokens are read one after the other, each of a character
at least, until nothing is left or no token begins. Main statement: they stand in the bytes of the
text one behind the other, and between them there are blanks and comments only. -/

namespace Bylaw.Token

open Text (byteOffset between?)

/-- Whether a text begins with the end of a line, or is at its own end. -/
def AtLineEnd (cs : List Char) : Prop := cs = [] ∨ cs.head? = some '\n' ∨ ['\r', '\n'] <+: cs

/-- Blanks and comments in front of a text. A comment takes up its line to the end. -/
inductive Trivia : (gap rest : List Char) → Prop
  | nil (rest : List Char) : Trivia [] rest
  | blank {c : Char} {gap rest : List Char} (hc : isBlank c = true) (h : Trivia gap rest) :
      Trivia (c :: gap) rest
  | comment {mark line gap rest : List Char} (hmark : mark = ['#'] ∨ mark = ['/', '/'])
      (hline : Unbroken line) (hend : AtLineEnd (gap ++ rest)) (h : Trivia gap rest) :
      Trivia (mark ++ (line ++ gap)) rest

theorem exists_trivia (cs : List Char) :
    ∃ gap, cs = gap ++ skipTrivia cs ∧ Trivia gap (skipTrivia cs) := by
  fun_induction skipTrivia cs with
  | case1 => exact ⟨[], rfl, .nil _⟩
  | case2 c rest hc ih =>
    obtain ⟨gap, hgap, htrivia⟩ := ih
    exact ⟨c :: gap, congrArg (c :: ·) hgap, .blank hc htrivia⟩
  | case3 c rest hc after hafter _ ih =>
    obtain ⟨gap, hgap, htrivia⟩ := ih
    obtain ⟨more, hmore, hbegins⟩ := dropComment_eq_some hafter
    obtain ⟨line, hline, rfl, hend⟩ := dropLine_eq_some hmore
    obtain ⟨mark, hmark, htext⟩ : ∃ mark, (mark = ['#'] ∨ mark = ['/', '/']) ∧
        c :: rest = mark ++ (line ++ after) := by
      rcases hbegins with hhash | hslashes
      · exact ⟨['#'], .inl rfl, hhash⟩
      · exact ⟨['/', '/'], .inr rfl, hslashes⟩
    rw [hgap] at hend
    refine ⟨mark ++ (line ++ gap), ?_, .comment hmark hline hend htrivia⟩
    rw [htext, List.append_assoc, List.append_assoc, ← hgap]
  | case4 => exact ⟨[], rfl, .nil _⟩

/-- Whether a position is where the rest of a text is left. -/
def Cursor.IsAt (source rest : List Char) (here : Cursor) : Prop :=
  ∃ front, source = front ++ rest ∧ here = Cursor.past ⟨0, 1⟩ front

namespace Cursor.IsAt

variable {source cs rest : List Char} {here there : Cursor}

theorem start (source : List Char) : IsAt source source ⟨0, 1⟩ := ⟨[], rfl, rfl⟩

theorem further (h : here.IsAt source cs) (hrest : rest <:+ cs) :
    (here.to cs rest).IsAt source rest := by
  obtain ⟨front, rfl, rfl⟩ := h
  obtain ⟨text, rfl⟩ := hrest
  exact ⟨front ++ text, (List.append_assoc ..).symm, by rw [Cursor.to_append, Cursor.past_append]⟩

theorem suffix (h : here.IsAt source rest) : rest <:+ source := by
  obtain ⟨front, rfl, -⟩ := h
  exact List.suffix_append front rest

theorem drop (h : here.IsAt source rest) : source.drop here.offset = rest := by
  obtain ⟨front, rfl, rfl⟩ := h
  rw [Cursor.past, Nat.zero_add, List.drop_left]

theorem offset_add (h : here.IsAt source rest) : here.offset + rest.length = source.length := by
  obtain ⟨front, rfl, rfl⟩ := h
  rw [Cursor.past, Nat.zero_add, List.length_append]

/-- A line is one more than the line feeds before it. -/
theorem line (h : here.IsAt source rest) :
    here.line = 1 + (source.take here.offset).count '\n' := by
  obtain ⟨front, rfl, rfl⟩ := h
  rw [Cursor.past, Nat.zero_add, List.take_left]

end Cursor.IsAt

section

variable {am am' : Bool} {here there : Cursor} {source cs after left : List Char} {p : Placed}

namespace Begins

theorem bounds (h : Begins am here cs p there after) :
    here.offset ≤ p.start ∧ p.start < p.stop ∧ p.stop = there.offset := by
  obtain ⟨gap, c, piece, -, -, hstart, hstop, -⟩ := h.split
  have hoffset := h.offset
  omega

/-- A token takes up a character at least, and what is skipped in front of it is trivia. -/
theorem takes (h : Begins am here cs p there after) :
    ∃ gap text, cs = gap ++ (text ++ after) ∧ Trivia gap (text ++ after) ∧ text ≠ [] := by
  obtain ⟨-, c, piece, -, hskip, -⟩ := h.split
  obtain ⟨gap, hgap, htrivia⟩ := exists_trivia cs
  rw [hskip, ← List.cons_append] at hgap htrivia
  exact ⟨gap, c :: piece, hgap, htrivia, List.cons_ne_nil c piece⟩

theorem isAt_start (h : Begins am here cs p there after) (hat : here.IsAt source cs) :
    Cursor.IsAt source (skipTrivia cs) ⟨p.start, p.line⟩ :=
  h.start ▸ hat.further (skipTrivia_suffix cs)

theorem isAt (h : Begins am here cs p there after) (hat : here.IsAt source cs) :
    there.IsAt source after :=
  h.stop ▸ (hat.further (skipTrivia_suffix cs)).further h.suffix

end Begins

/-- Where a token is read, it is the next one. -/
theorem begins_of_scan {c : Char} {rest : List Char} (hs : skipTrivia cs = c :: rest)
    {r : Reading Token (c :: rest)} (hr : scan am c rest = .ok r) (here : Cursor) :
    ∃ p there, Begins am here cs p there r.rest := by
  refine ⟨⟨r.value, (here.to cs (c :: rest)).line, (here.to cs (c :: rest)).offset,
    ((here.to cs (c :: rest)).to (c :: rest) r.rest).offset⟩, _,
    ⟨c, rest, hs, r.shorter, hr⟩, ?_, rfl, ?_⟩
  · rw [hs]
  · rw [hs]

/-- Tokens that are read one after the other, from one place of a text up to another. -/
inductive Reads : (am : Bool) → (here : Cursor) → (cs : List Char) → List Placed →
    (am' : Bool) → (there : Cursor) → (left : List Char) → Prop
  | none (am : Bool) (here : Cursor) (cs : List Char) : Reads am here cs [] am here cs
  | next {am am' : Bool} {here there last : Cursor} {cs after left : List Char} {p : Placed}
      {placed : List Placed} (h : Begins am here cs p there after)
      (more : Reads (allowsPattern p.token) there after placed am' last left) :
      Reads am here cs (p :: placed) am' last left

/-- Reading ends where nothing is left, or where no token begins. -/
theorem exists_reads (am : Bool) (here : Cursor) (cs : List Char) :
    ∃ placed am' there left, Reads am here cs placed am' there left ∧
      (skipTrivia left = [] ∧ scanFrom am here cs = .ok placed ∨
        ∃ c rest fault, skipTrivia left = c :: rest ∧ scan am' c rest = .error fault ∧
          scanFrom am here cs = .error ⟨(there.to left (skipTrivia left)).line, fault⟩) := by
  -- What is left after a token is shorter than the text before it.
  induction hn : cs.length using Nat.strong_induction_on generalizing am here cs with
  | _ n ih =>
    cases hs : skipTrivia cs with
    | nil => exact ⟨[], am, here, cs, .none am here cs, .inl ⟨hs, scanFrom_nil hs here⟩⟩
    | cons c rest =>
      cases hr : scan am c rest with
      | error fault =>
        refine ⟨[], am, here, cs, .none am here cs, .inr ⟨c, rest, fault, hs, hr, ?_⟩⟩
        rw [scanFrom_cons hs, hr, hs]
      | ok r =>
        obtain ⟨p, there, hbegins⟩ := begins_of_scan hs hr here
        obtain ⟨placed, am', last, left, hreads, hend⟩ :=
          ih _ (hn ▸ length_rest_lt hs r) (allowsPattern p.token) there r.rest rfl
        refine ⟨p :: placed, am', last, left, .next hbegins hreads, ?_⟩
        rw [hbegins.scanFrom_eq]
        rcases hend with ⟨hleft, hmore⟩ | ⟨d, others, fault, hleft, hscan, hmore⟩
        · exact .inl ⟨hleft, by rw [hmore]; rfl⟩
        · exact .inr ⟨d, others, fault, hleft, hscan, by rw [hmore]; rfl⟩

/-- The tokens of a text are read one after the other until nothing is left. -/
theorem reads_of_scanFrom {placed : List Placed} (h : scanFrom am here cs = .ok placed) :
    ∃ am' there left, Reads am here cs placed am' there left ∧ skipTrivia left = [] := by
  obtain ⟨tokens, am', there, left, hreads, ⟨hleft, hok⟩ | ⟨c, rest, fault, -, -, herror⟩⟩ :=
    exists_reads am here cs
  · obtain rfl := Except.ok.inj (h.symm.trans hok)
    exact ⟨am', there, left, hreads, hleft⟩
  · cases h.symm.trans herror

namespace Reads

variable {placed kept lost : List Placed}

theorem split (h : Reads am here cs (kept ++ lost) am' there left) :
    ∃ am₁ mid rest, Reads am here cs kept am₁ mid rest ∧
      Reads am₁ mid rest lost am' there left := by
  induction kept generalizing am here cs with
  | nil => exact ⟨am, here, cs, .none am here cs, h⟩
  | cons p kept ih =>
    cases h with
    | next hbegins hmore =>
      obtain ⟨am₁, mid, rest, hkept, hlost⟩ := ih hmore
      exact ⟨am₁, mid, rest, .next hbegins hkept, hlost⟩

theorem isAt (h : Reads am here cs placed am' there left) (hat : here.IsAt source cs) :
    there.IsAt source left := by
  induction h with
  | none => exact hat
  | next hbegins _ ih => exact ih (hbegins.isAt hat)

theorem isAt_of_mem (h : Reads am here cs placed am' there left) (hat : here.IsAt source cs)
    (hp : p ∈ placed) : ∃ rest, Cursor.IsAt source rest ⟨p.start, p.line⟩ := by
  obtain ⟨kept, lost, rfl⟩ := List.append_of_mem hp
  obtain ⟨am₁, mid, rest, hkept, hlost⟩ := h.split
  cases hlost with
  | next hbegins => exact ⟨_, hbegins.isAt_start (hkept.isAt hat)⟩

theorem offset_le (h : Reads am here cs placed am' there left) : here.offset ≤ there.offset := by
  induction h with
  | none => exact Nat.le_refl _
  | next hbegins _ ih =>
    obtain ⟨hstart, hstop, hoffset⟩ := hbegins.bounds
    omega

theorem bounds (h : Reads am here cs placed am' there left) :
    ∀ p ∈ placed, here.offset ≤ p.start ∧ p.start < p.stop ∧ p.stop ≤ there.offset := by
  induction h with
  | none =>
    intro p hp
    cases hp
  | next hbegins hmore ih =>
    obtain ⟨hstart, hstop, hoffset⟩ := hbegins.bounds
    have hlast := hmore.offset_le
    intro q hq
    rcases List.mem_cons.mp hq with rfl | hq
    · exact ⟨hstart, hstop, hoffset ▸ hlast⟩
    · obtain ⟨hq, hbounds⟩ := ih q hq
      exact ⟨by omega, hbounds⟩

theorem ordered (h : Reads am here cs placed am' there left) :
    placed.Pairwise fun p q => p.stop ≤ q.start := by
  induction h with
  | none => exact List.Pairwise.nil
  | next hbegins hmore ih =>
    refine List.Pairwise.cons (fun q hq => ?_) ih
    rw [hbegins.bounds.2.2]
    exact (hmore.bounds q hq).1

theorem patternAfter_eq (h : Reads am here cs placed am' there left) :
    am' = patternAfter am placed := by
  induction h with
  | none => rfl
  | next _ _ ih => exact ih

theorem offset_eq (h : Reads am here cs placed am' there left) :
    there.offset = (placed.getLast?.map Placed.stop).getD here.offset := by
  induction h with
  | none => rfl
  | next hbegins hmore ih =>
    rw [ih, hbegins.offset, List.getLast?_cons]
    cases List.getLast? _ <;> rfl

end Reads

end

/-- The byte at which a token begins. -/
def Placed.startByte (source : String) (p : Placed) : Nat := byteOffset source p.start

/-- The byte behind a token. -/
def Placed.stopByte (source : String) (p : Placed) : Nat := byteOffset source p.stop

/-- The line of a byte, counted from one, if a character begins there or the text ends. -/
def lineOf? (source : String) (offset : Nat) : Option Nat :=
  (between? source 0 offset).map fun before => 1 + before.toList.count '\n'

/-- The byte behind the last of some tokens, or that at which the text begins. -/
def behind (source : String) (placed : List Placed) : Nat :=
  (placed.getLast?.map (·.stopByte source)).getD 0

/-- The byte at which the first of some tokens begins, or if there is none, what is left. -/
def ahead (source : String) (left : List Char) (placed : List Placed) : Nat :=
  (placed.head?.map (·.startByte source)).getD
    (source.utf8ByteSize - (String.ofList left).utf8ByteSize)

/-- How tokens stand in a text up to what is left of it. Each takes up bytes of its own, between two
characters, and stands behind the tokens before it; its line is one more than the line feeds before
it; what stands between tokens, before the first and behind the last is trivia. -/
structure Covers (source : String) (placed : List Placed) (left : List Char) : Prop where
  suffix : left <:+ source.toList
  inside : ∀ p ∈ placed, p.start < p.stop ∧ p.stop + left.length ≤ source.toList.length
  boundaries : ∀ p ∈ placed, String.Pos.Raw.IsValid source ⟨p.startByte source⟩ ∧
    String.Pos.Raw.IsValid source ⟨p.stopByte source⟩
  nonempty : ∀ p ∈ placed, p.startByte source < p.stopByte source
  ordered : placed.Pairwise fun p q =>
    p.startByte source < q.startByte source ∧ p.stopByte source ≤ q.startByte source
  lines : ∀ p ∈ placed, lineOf? source (p.startByte source) = some p.line
  lexemes : ∀ kept p lost, placed = kept ++ p :: lost → ∃ c piece rest,
    between? source (p.startByte source) (p.stopByte source) = some (.ofList (c :: piece)) ∧
      between? source (p.stopByte source) source.utf8ByteSize = some (.ofList rest) ∧
      Yields (scan (patternAfter false kept) c (piece ++ rest)) p.token rest
  outside : ∀ kept lost, placed = kept ++ lost → ∃ gap rest,
    between? source (behind source kept) (ahead source left lost) = some gap ∧
      between? source (ahead source left lost) source.utf8ByteSize = some rest ∧
      Trivia gap.toList rest.toList

section

variable {am am' : Bool} {source : String} {here there : Cursor} {cs rest left gap : List Char}
  {placed : List Placed}

namespace Cursor.IsAt

theorem le (h : here.IsAt source.toList rest) : here.offset ≤ source.toList.length := by
  rw [← h.offset_add]
  exact Nat.le_add_right _ _

theorem lineOf?_eq (h : here.IsAt source.toList rest) :
    lineOf? source (byteOffset source here.offset) = some here.line := by
  have hbefore := Text.between?_byteOffset source (Nat.zero_le here.offset)
  rw [Text.byteOffset_zero] at hbefore
  rw [lineOf?, hbefore, Option.map_some, String.toList_ofList, List.drop_zero, Nat.sub_zero,
    ← h.line]

theorem between?_gap (h : here.IsAt source.toList (gap ++ rest))
    (h' : there.IsAt source.toList rest) :
    between? source (byteOffset source here.offset) (byteOffset source there.offset) =
      some (.ofList gap) := by
  have hlength := h.offset_add
  have hlength' := h'.offset_add
  rw [List.length_append] at hlength
  have hgap : there.offset - here.offset = gap.length := by omega
  rw [Text.between?_byteOffset source (by omega), h.drop, hgap, List.take_left]

theorem between?_rest (h : here.IsAt source.toList rest) :
    between? source (byteOffset source here.offset) source.utf8ByteSize = some (.ofList rest) := by
  have hlength := h.offset_add
  rw [← Text.byteOffset_length, Text.between?_byteOffset source h.le, h.drop,
    List.take_of_length_le (by omega)]

theorem ahead_nil (h : here.IsAt source.toList rest) :
    ahead source rest [] = byteOffset source here.offset := by
  rw [byteOffset, h.drop]
  rfl

end Cursor.IsAt

namespace Reads

theorem behind_eq (h : Reads am ⟨0, 1⟩ cs placed am' there left) :
    behind source placed = byteOffset source there.offset := by
  rw [behind, h.offset_eq]
  cases placed.getLast? with
  | none => exact (Text.byteOffset_zero source).symm
  | some p => rfl

/-- Tokens begin at the first character that is not trivia. -/
theorem ahead_eq (h : Reads am here cs placed am' there left)
    (hat : here.IsAt source.toList cs) :
    ∃ first : Cursor, first.IsAt source.toList (skipTrivia cs) ∧
      ahead source (skipTrivia left) placed = byteOffset source first.offset := by
  cases h with
  | none =>
    have hfirst := hat.further (skipTrivia_suffix cs)
    exact ⟨_, hfirst, hfirst.ahead_nil⟩
  | next hbegins => exact ⟨_, hbegins.isAt_start hat, rfl⟩

theorem lexemes (h : Reads am ⟨0, 1⟩ source.toList placed am' there left)
    {kept lost : List Placed} {p : Placed} (hplaced : placed = kept ++ p :: lost) :
    ∃ c piece rest,
      between? source (p.startByte source) (p.stopByte source) = some (.ofList (c :: piece)) ∧
        between? source (p.stopByte source) source.utf8ByteSize = some (.ofList rest) ∧
        Yields (scan (patternAfter am kept) c (piece ++ rest)) p.token rest := by
  subst hplaced
  obtain ⟨am₁, mid, rest, hkept, hlost⟩ := h.split
  cases hlost with
  | next hbegins =>
    have hmid := hkept.isAt (Cursor.IsAt.start source.toList)
    have hstart := hbegins.isAt_start hmid
    have hstop := hbegins.isAt hmid
    obtain ⟨-, c, piece, -, hskip, -, -, hscan⟩ := hbegins.split
    rw [hskip, ← List.cons_append] at hstart
    have htext := hstart.between?_gap hstop
    have hrest := hstop.between?_rest
    rw [hbegins.offset] at htext hrest
    rw [hkept.patternAfter_eq] at hscan
    exact ⟨c, piece, _, htext, hrest, hscan _ (Resumes.refl _)⟩

theorem outside (h : Reads am ⟨0, 1⟩ source.toList placed am' there left) {kept lost : List Placed}
    (hplaced : placed = kept ++ lost) : ∃ gap rest,
      between? source (behind source kept) (ahead source (skipTrivia left) lost) = some gap ∧
        between? source (ahead source (skipTrivia left) lost) source.utf8ByteSize = some rest ∧
        Trivia gap.toList rest.toList := by
  subst hplaced
  obtain ⟨am₁, mid, rest, hkept, hlost⟩ := h.split
  have hmid := hkept.isAt (Cursor.IsAt.start source.toList)
  obtain ⟨first, hfirst, hahead⟩ := hlost.ahead_eq hmid
  obtain ⟨gap, hgap, htrivia⟩ := exists_trivia rest
  rw [hgap] at hmid
  rw [hkept.behind_eq, hahead]
  refine ⟨_, _, hmid.between?_gap hfirst, hfirst.between?_rest, ?_⟩
  rw [String.toList_ofList, String.toList_ofList]
  exact htrivia

/-- The tokens that are read from the beginning of a text cover it up to what is left. -/
theorem covers (h : Reads false ⟨0, 1⟩ source.toList placed am' there left) :
    Covers source placed (skipTrivia left) := by
  have hat := Cursor.IsAt.start source.toList
  have hend := (h.isAt hat).offset_add
  have hleft := (skipTrivia_suffix left).length_le
  have hinside : ∀ p ∈ placed, p.start < p.stop ∧
      p.stop + (skipTrivia left).length ≤ source.toList.length := by
    intro p hp
    obtain ⟨-, hstart, hstop⟩ := h.bounds p hp
    omega
  have hbytes : ∀ p ∈ placed, p.startByte source < p.stopByte source := fun p hp =>
    Text.byteOffset_lt source (hinside p hp).1 (by have := (hinside p hp).2; omega)
  refine ⟨(skipTrivia_suffix left).trans (h.isAt hat).suffix, hinside,
    fun p _ => ⟨Text.isValid_byteOffset source p.start, Text.isValid_byteOffset source p.stop⟩,
    hbytes, ?_, ?_, fun kept p lost => h.lexemes, fun kept lost => h.outside⟩
  · refine h.ordered.imp_of_mem fun {p q} hp hq hpq => ?_
    have hle := Text.byteOffset_le source hpq
    exact ⟨Nat.lt_of_lt_of_le (hbytes p hp) hle, hle⟩
  · intro p hp
    obtain ⟨rest, hrest⟩ := h.isAt_of_mem hat hp
    exact hrest.lineOf?_eq

end Reads

end

end Bylaw.Token
