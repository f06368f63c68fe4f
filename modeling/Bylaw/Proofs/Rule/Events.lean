import Bylaw.Proofs.Rule.Recompiling

/-! Event tags in a list. Main statement: however they are separated, a statement about them
compiles to one rule about all of them, unless one of them stands after a blank and in front of a
symbol or a keyword: then the statement does not compile. -/

namespace Bylaw.Rule

open Token (Spells Stops isBlank isWordPart stops_cons)

/-- What stands between two event tags. -/
inductive Separator where
  | bar
  | comma
  | blank
  deriving DecidableEq

namespace Separator

def symbols : Separator → List Symbol
  | .bar => [.pipe]
  | .comma => [.comma]
  | .blank => []

/-- Whether a text is a separator: its symbol, if it has one, with blanks on both sides. -/
def IsWritten (s : Separator) (cs : List Char) : Prop :=
  cs ≠ [] ∧ ∃ before after, (∀ c ∈ before ++ after, isBlank c) ∧
    cs = before ++ s.symbols.flatMap (·.text.toList) ++ after

def tokens (s : Separator) : List Token := s.symbols.map Token.symbol

/-- A separator in one character. -/
def plain : Separator → Char
  | .bar => '|'
  | .comma => ','
  | .blank => ' '

theorem isWritten_plain (s : Separator) : s.IsWritten [s.plain] := by
  cases s with
  | bar | comma => exact ⟨by decide, [], [], nofun, rfl⟩
  | blank => exact ⟨by decide, [' '], [], by simp [isBlank], rfl⟩

end Separator

/-- An event tag and what separates it from the one before. -/
structure Link where
  separator : Separator
  text : List Char
  event : Event
  isWritten : separator.IsWritten text

namespace Link

/-- An event tag after a separator in one character. -/
def plain (separator : Separator) (event : Event) : Link :=
  ⟨separator, [separator.plain], event, separator.isWritten_plain⟩

def tokens (link : Link) : List Token := link.separator.tokens ++ [.word link.event.tag]

/-- Whether an event tag after a blank is recognised in front of the one that comes next: it is if
that also stands after a blank, and is no keyword. -/
def Admits (link next : Link) : Prop :=
  link.separator = .blank → next.separator = .blank ∧ isKeyword next.event.tag = false

instance (link next : Link) : Decidable (link.Admits next) :=
  inferInstanceAs (Decidable (_ → _))

end Link

/-- Event tags as they are written. -/
def eventsText (first : Event) : List Link → List Char
  | [] => first.tag.toList
  | link :: links => first.tag.toList ++ link.text ++ eventsText link.event links

/-- A statement about some events that does nothing. -/
def idleSource (first : Event) (links : List Link) (entity : String) : String :=
  .ofList ("IF ".toList ++ eventsText first links ++ ' ' :: entity.toList ++ " THEN END".toList)

section Spelling

variable {rest : List Char}

theorem spells_blanks {cs : List Char} (h : ∀ c ∈ cs, isBlank c) (rest : List Char) :
    Spells cs [] rest := by
  induction cs with
  | nil => exact Spells.nil rest
  | cons c cs ih =>
    obtain ⟨hc, hcs⟩ := List.forall_mem_cons.mp h
    exact (Spells.blank hc _).append (ih hcs)

theorem Separator.IsWritten.spells {s : Separator} {cs : List Char} (h : s.IsWritten cs) :
    Spells cs s.tokens rest := by
  obtain ⟨-, before, after, hblank, rfl⟩ := h
  obtain ⟨hbefore, hafter⟩ := List.forall_mem_append.mp hblank
  have hsymbols (rest : List Char) : Spells (s.symbols.flatMap (·.text.toList)) s.tokens rest := by
    cases s with
    | bar => exact Spells.symbol (s := .pipe) (.inl rfl)
    | comma => exact Spells.symbol (s := .comma) (.inl rfl)
    | blank => exact Spells.nil rest
  have hall := ((spells_blanks hbefore _).append (hsymbols _)).append (spells_blanks hafter rest)
  rwa [List.nil_append, List.append_nil] at hall

/-- A separator ends the word in front of it. -/
theorem Separator.IsWritten.stops {s : Separator} {cs : List Char} (h : s.IsWritten cs) :
    Stops (cs ++ rest) := by
  obtain ⟨hne, before, after, hblank, hcs⟩ := h
  have hstop (c : Char) (hc : isBlank c) : isWordPart c = false := by
    simp only [isBlank, Bool.or_eq_true, beq_iff_eq] at hc
    obtain ((rfl | rfl) | rfl) | rfl := hc <;> rfl
  have hsymbols : ∀ c ∈ s.symbols.flatMap (·.text.toList), isWordPart c = false := by
    cases s <;> simp [symbols, Symbol.text, isWordPart]
  have hall : ∀ c ∈ cs, isWordPart c = false := by
    rw [List.forall_mem_append] at hblank
    rw [hcs, List.forall_mem_append, List.forall_mem_append]
    exact ⟨⟨fun c hc => hstop c (hblank.1 c hc), hsymbols⟩, fun c hc => hstop c (hblank.2 c hc)⟩
  obtain ⟨c, more, rfl⟩ := List.exists_cons_of_ne_nil hne
  exact stops_cons _ (hall c List.mem_cons_self)

theorem spells_eventsText (first : Event) (links : List Link) (h : Stops rest) :
    Spells (eventsText first links) (.word first.tag :: links.flatMap Link.tokens) rest := by
  have hword (e : Event) {rest : List Char} (h : Stops rest) :
      Spells e.tag.toList [.word e.tag] rest :=
    Spells.word (isWord_tag e).1 (isWord_tag e).2 h
  induction links generalizing first with
  | nil => exact hword first h
  | cons link links ih =>
    have hstops : Stops (link.text ++ eventsText link.event links ++ rest) := by
      rw [List.append_assoc]
      exact link.isWritten.stops
    have hall := (hword first hstops).append (link.isWritten.spells.append (ih link.event))
    rw [eventsText, List.append_assoc]
    simpa [Link.tokens] using hall

theorem tokens_idleSource (first : Event) (links : List Link) {entity : String}
    (hi : isIdentifier entity = true) (hk : isKeyword entity = false) :
    Token.tokens false (idleSource first links entity).toList =
      .ok (.word "IF" :: .word first.tag ::
        (links.flatMap Link.tokens ++ [.word entity, .word "THEN", .word "END"])) := by
  have hif (rest : List Char) : Spells "IF ".toList [.word "IF"] rest :=
    Spells.word_blank rfl rfl (by decide) rest
  have hthen (rest : List Char) : Spells " THEN ".toList [.word "THEN"] rest :=
    (Spells.word_blank (s := "THEN ") rfl rfl (by decide) rest).blank_cons
  have hend : Spells "END".toList [.word "END"] [] :=
    Spells.word rfl (by decide) Token.stops_nil
  have hentity (rest : List Char) (h : Stops rest) :
      Spells (' ' :: entity.toList) [.word entity] rest :=
    ((isName_of_isIdentifier hi hk).spells h).blank_cons
  have hall := (hif _).append ((spells_eventsText first links (stops_cons _ rfl)).append
    ((hentity _ (stops_cons _ rfl)).append ((hthen _).append hend)))
  have htext : (idleSource first links entity).toList = "IF ".toList ++ (eventsText first links ++
      (' ' :: entity.toList ++ (" THEN ".toList ++ "END".toList))) :=
    String.toList_ofList.trans (by simp)
  rw [htext]
  refine hall.tokens_eq.trans ?_
  simp

end Spelling

section Reading

variable {ts : List Token}

/-- Whether the next token can be an entity in front of which an event tag stands after a blank. -/
def startsEntity : List Token → Bool
  | .word w :: _ => !isKeyword w
  | _ => false

theorem startsEntity_tokens (link : Link) (ts : List Token) :
    startsEntity (link.tokens ++ ts) = true ↔
      link.separator = .blank ∧ isKeyword link.event.tag = false := by
  obtain ⟨separator, text, event, hw⟩ := link
  cases separator <;> simp [Link.tokens, Separator.tokens, Separator.symbols, startsEntity]

theorem tokens_head (link : Link) (ts : List Token) :
    ∃ t more, link.tokens ++ ts = t :: more ∧ (∀ s, t ≠ .str s) ∧ t ≠ .word "WHEN" ∧
      t ≠ .word "THEN" := by
  obtain ⟨separator, text, event, hw⟩ := link
  cases separator with
  | bar | comma => exact ⟨_, _, rfl, nofun, nofun, nofun⟩
  | blank => exact ⟨.word event.tag, _, rfl, nofun, by cases event <;> decide⟩

/-- An event tag that is read: it stands after a symbol, or an entity can come next. -/
theorem moreEvents_link {link : Link} (h : link.separator = .blank → startsEntity ts = true) :
    moreEvents (link.tokens ++ ts) =
      (moreEvents ts).map fun (events, rest) => (link.event :: events, rest) := by
  obtain ⟨separator, text, event, hw⟩ := link
  have hsymbol {s : Symbol} (hs : s = .pipe ∨ s = .comma) :
      moreEvents (.symbol s :: .word event.tag :: ts) =
        (moreEvents ts).map fun (events, rest) => (event :: events, rest) := by
    rw [moreEvents, if_pos (by simpa using hs)]
    simp only [eventAt, Event.ofTag?_tag, Reading.ofHead]
  cases separator with
  | bar => exact hsymbol (.inl rfl)
  | comma => exact hsymbol (.inr rfl)
  | blank =>
    show moreEvents (.word event.tag :: ts) = _
    have htag : tagThenEntity (.word event.tag :: ts) = true := by
      have hts := h rfl
      unfold startsEntity at hts
      split at hts
      · simpa [tagThenEntity, Event.ofTag?_tag] using hts
      · cases hts
    rw [moreEvents, if_neg (by simp), if_pos htag]
    simp only [eventAt, Event.ofTag?_tag, Reading.ofHead]

/-- The list of events breaks off at a word in front of no entity. -/
theorem moreEvents_word {w : String} {t : Token} (ht : ∀ s, t ≠ .str s)
    (h : startsEntity (t :: ts) = false) :
    moreEvents (.word w :: t :: ts) = .ok ([], .word w :: t :: ts) := by
  have htag : tagThenEntity (.word w :: t :: ts) = false := by
    unfold tagThenEntity
    split
    · rename_i heq
      obtain ⟨rfl, rfl, rfl⟩ := by simpa using heq
      rw [Bool.and_eq_false_iff]
      exact .inr h
    · rename_i heq
      obtain ⟨-, rfl, -⟩ := by simpa using heq
      exact absurd rfl (ht _)
    · rfl
  rw [moreEvents, if_neg (by simp), if_neg (by simp [htag])]

theorem moreEvents_links {links : List Link} {entity w : String} (hk : isKeyword entity = false)
    (hw : isKeyword w = true) (h : links.IsChain Link.Admits) (ts : List Token) :
    moreEvents (links.flatMap Link.tokens ++ .word entity :: .word w :: ts) =
      .ok (links.map Link.event, .word entity :: .word w :: ts) := by
  induction links with
  | nil => exact moreEvents_word nofun (by simp [startsEntity, hw])
  | cons link links ih =>
    have hnext : link.separator = .blank →
        startsEntity (links.flatMap Link.tokens ++ .word entity :: .word w :: ts) = true := by
      intro hblank
      cases links with
      | nil => simp [startsEntity, hk]
      | cons next links =>
        rw [List.flatMap_cons, List.append_assoc]
        exact (startsEntity_tokens next _).mpr ((List.isChain_cons_cons.mp h).1 hblank)
    rw [List.flatMap_cons, List.append_assoc, moreEvents_link hnext, ih h.of_cons]
    rfl

/-- Event tags of which one is not recognised: the list breaks off at a word in front of a token
with which neither a condition nor the actions can begin. -/
theorem moreEvents_broken {links : List Link} (h : ¬links.IsChain Link.Admits) (ts : List Token) :
    ∃ events e t more, moreEvents (links.flatMap Link.tokens ++ ts) =
        .ok (events, .word (Event.tag e) :: t :: more) ∧
      t ≠ .word "WHEN" ∧ t ≠ .word "THEN" := by
  induction links with
  | nil => exact absurd .nil h
  | cons link links ih =>
    cases links with
    | nil => exact absurd (.singleton link) h
    | cons next links =>
      rw [List.flatMap_cons, List.append_assoc]
      -- Where this tag is recognised the list breaks off further on, and otherwise here.
      by_cases hadmits : link.Admits next
      · have hrest : ¬(next :: links).IsChain Link.Admits :=
          fun hrest => h (List.isChain_cons_cons.mpr ⟨hadmits, hrest⟩)
        obtain ⟨events, e, t, more, hmore, ht⟩ := ih hrest
        refine ⟨link.event :: events, e, t, more, ?_, ht⟩
        rw [moreEvents_link, hmore]
        · rfl
        · intro hblank
          rw [List.flatMap_cons, List.append_assoc]
          exact (startsEntity_tokens next _).mpr (hadmits hblank)
      · obtain ⟨hblank, hnext⟩ := Classical.not_imp.mp hadmits
        have hlink : link.tokens = [.word link.event.tag] := by
          rw [Link.tokens, hblank]
          rfl
        rw [List.flatMap_cons, List.append_assoc, hlink]
        obtain ⟨t, more, htokens, hstr, hwhen, hthen⟩ :=
          tokens_head next (links.flatMap Link.tokens ++ ts)
        rw [← startsEntity_tokens next (links.flatMap Link.tokens ++ ts), htokens,
          Bool.not_eq_true] at hnext
        rw [htokens]
        exact ⟨[], link.event, t, more, moreEvents_word hstr hnext, hwhen, hthen⟩

theorem statement_events (line : Nat) (first : Event) {links : List Link} {entity : String}
    (hi : isIdentifier entity = true) (hk : isKeyword entity = false)
    (h : links.IsChain Link.Admits) :
    statement line (.word "IF" :: .word first.tag ::
        (links.flatMap Link.tokens ++ [.word entity, .word "THEN", .word "END"])) =
      .ok ⟨entity, Event.sorted (first :: links.map Link.event), none, [.stop], line⟩ := by
  have hthen : isKeyword "THEN" = true := by decide
  have hmore := moreEvents_links hk hthen h [.word "END"]
  have hentity : entityAt (.word entity :: [.word "THEN", .word "END"]) =
      .ok (entity, [.word "THEN", .word "END"]) := by
    have hpoint : '.' ∉ entity.toList := fun hp => (isWordPart_of_isIdentifier hi '.' hp).2 rfl
    simp [entityAt, hk, hpoint]
  have hactions : actionsAt [.word "END"] = .ok [.stop] :=
    actionsAt_last (by decide) rfl
  simp only [statement, expectKeyword, afterKeyword?, if_true, ok_bind, eventAt, Event.ofTag?_tag,
    Reading.ofHead, hmore, hentity]
  simp [hactions]

theorem statement_broken (line : Nat) (first : Event) {links : List Link}
    (h : ¬links.IsChain Link.Admits) (ts : List Token) :
    ∃ r, statement line (.word "IF" :: .word first.tag :: (links.flatMap Link.tokens ++ ts)) =
      .error r := by
  obtain ⟨events, e, t, more, hmore, hwhen, hthen⟩ := moreEvents_broken h ts
  have hnone {w : String} (ht : t ≠ .word w) : afterKeyword? w (t :: more) = none := by
    unfold afterKeyword?
    split
    · rename_i heq
      rw [if_neg]
      rintro rfl
      exact ht (List.cons.inj heq).1
    · rfl
  have hif (us : List Token) : expectKeyword "IF" (.word "IF" :: us) = .ok us := by
    simp [expectKeyword, afterKeyword?]
  simp only [statement, hif, ok_bind, eventAt, Event.ofTag?_tag, Reading.ofHead, hmore]
  -- The word is refused as an entity, or taken for one, and then neither word can follow.
  cases hentity : entityAt (.word e.tag :: t :: more) with
  | error r => exact ⟨r, rfl⟩
  | ok named =>
    have hrest : named.2 = t :: more := by
      rw [entityAt] at hentity
      split at hentity
      · cases hentity
      · exact (congrArg Prod.snd (Except.ok.inj hentity)).symm
    simp only [ok_bind, pure_bind, hrest, hnone hwhen, hnone hthen]
    exact ⟨_, rfl⟩

end Reading

/-- What stands in a list of events is never what begins or ends a statement. -/
theorem all_links {links : List Link} {ts : List Token} (h : ts.all isInner = true) :
    (links.flatMap Link.tokens ++ ts).all isInner = true := by
  rw [List.all_append, h, Bool.and_true, List.all_flatMap, List.all_eq_true]
  intro link _
  obtain ⟨separator, text, event, hw⟩ := link
  cases separator <;> cases event <;> rfl

/-- A statement about some events, separated by bars, commas and blanks in any mixture: it compiles
to one rule about its entity and these events if each tag after a blank has a blank, and no keyword,
after it. Otherwise it does not compile. -/
theorem compile_events (first : Event) (links : List Link) (entity : String)
    (hi : isIdentifier entity = true) (hk : isKeyword entity = false) :
    (links.IsChain Link.Admits → ∃ line, compile (idleSource first links entity) =
        .ok [⟨entity, Event.sorted (first :: links.map Link.event), none, [.stop], line⟩]) ∧
      (¬links.IsChain Link.Admits →
        ∃ e, compile (idleSource first links entity) = .error e) := by
  have hinner : ((Token.word first.tag) ::
      (links.flatMap Link.tokens ++ [.word entity, .word "THEN", .word "END"])).all isInner := by
    rw [List.all_cons, all_links (by simp [isInner_name hk]; decide)]
    cases first <;> rfl
  obtain ⟨line, hok, herror⟩ :=
    compile_of_tokens hinner (tokens_idleSource first links hi hk)
  constructor
  · exact fun h => ⟨line, hok _ (statement_events line first hi hk h)⟩
  · intro h
    obtain ⟨r, hr⟩ := statement_broken line first h [.word entity, .word "THEN", .word "END"]
    exact herror r hr

/-- All separators, and a tag that is a keyword after a comma. -/
theorem compile_events_mixed :
    ∃ line, compile "IF NEW , DELETE|POST WEEKLY leads THEN END" =
      .ok [⟨"leads", [.post, .delete, .new, .weekly], none, [.stop], line⟩] := by
  let links : List Link :=
    [⟨.comma, [' ', ',', ' '], .delete, by decide, [' '], [' '], by simp [isBlank], rfl⟩,
      .plain .bar .post, .plain .blank .weekly]
  have hsource : idleSource .new links "leads" = "IF NEW , DELETE|POST WEEKLY leads THEN END" := by
    decide +kernel
  rw [← hsource]
  exact (compile_events .new links "leads" (by decide) (by decide)).1 (by decide)

/-- A tag after a blank is not recognised before one that is a keyword. -/
theorem patch_not_recognised :
    let links : List Link := [.plain .blank .patch, .plain .blank .delete]
    idleSource .post links "leads" = "IF POST PATCH DELETE leads THEN END" ∧
      isIdentifier "leads" = true ∧ isKeyword "leads" = false ∧ Event.ofTag? "leads" = none ∧
      ¬∃ rule, compile (idleSource .post links "leads") = .ok [rule] ∧ rule.entity = "leads" ∧
        ∀ e, e ∈ rule.events ↔ e ∈ Event.post :: links.map Link.event := by
  intro links
  have hsource : idleSource .post links "leads" = "IF POST PATCH DELETE leads THEN END" := by
    decide +kernel
  have hfails : (compile "IF POST PATCH DELETE leads THEN END").toOption.isNone = true := by
    decide +kernel
  refine ⟨hsource, by decide, by decide, by decide, ?_⟩
  rintro ⟨rule, hrule, -⟩
  rw [hsource] at hrule
  rw [hrule] at hfails
  cases hfails

end Bylaw.Rule
