import Bylaw.Proofs.Rule.Joining
import Bylaw.Proofs.Token.BareName

/-! Names in printed rules. Kinds, subjects and handlers are printed without quotes whatever they
are, and so is an entity that is an identifier. Main statement: the entity and the names of a rule
are read again if and only if the entity and the handlers are no keywords, and the kinds and
subjects are words that are no keywords, unless a kind or a subject begins with a comment. -/

namespace Bylaw

open Token

variable {rest : List Char} {ts tail more : List Token}

/-- The word that begins an action with names, and the names. -/
def Action.names : Action → List String
  | .create kind _ => ["CREATE", kind]
  | .send subject handler => ["SEND", subject, handler]
  | .invoke handler _ => ["INVOKE", handler]
  | _ => []

/-- Whether the text of a rule compiles to one rule with the same entity and, action by action, the
same names. -/
def Rule.NamesSurvive (rule : Rule) : Prop :=
  ∃ again, compile rule.text = .ok [again] ∧ again.entity = rule.entity ∧
    again.actions.map Action.names = rule.actions.map Action.names

theorem Token.Spells.tokens_rest {cs : List Char} {us : List Token} (h : Spells cs ts rest)
    (hus : Token.tokens false (cs ++ rest) = .ok us) :
    ∃ more, Token.tokens false rest = .ok more ∧ us = ts ++ more := by
  rw [h] at hus
  obtain ⟨more, hmore, rfl⟩ := map_eq_ok.mp hus
  exact ⟨more, hmore, rfl⟩

namespace Rule

section

variable {a : Action}

/-- A name that is read of itself, in front of a word in capital letters, is a word. -/
theorem isName_of_reads {name : String} {d : Char} {after : List Token}
    (hc : beginsComment name.toList = false) (hd : isPlainCapital d = true)
    (ht : Token.tokens false (name.toList ++ ' ' :: d :: rest) = .ok ts) (htail : tail <+: ts)
    (h : ReadsName tail name after) : IsName name := by
  obtain ⟨more, rfl⟩ := htail
  cases h with
  | word hk => exact ⟨isSound_of_tokens ht (.word name) (by simp), hk⟩
  | str => exact absurd ht (tokens_ne_str hc hd rest _)

theorem notKeyword_of_reads {handler other : String} (hi : isIdentifier handler = true)
    (hrest : Stops rest) (ht : Token.tokens false (handler.toList ++ rest) = .ok ts)
    (htail : tail <+: ts) (h : ReadsHandler tail other more) : isKeyword handler = false := by
  rw [tokens_word (isWord_of_isIdentifier hi) hrest] at ht
  obtain ⟨us, -, rfl⟩ := map_eq_ok.mp ht
  cases h with
  | word hk => rwa [Token.word.inj (List.cons_prefix_cons.mp htail).1] at hk

/-- What is read of an action that begins with a word is read of what stands after the word. -/
theorem exists_tokens_of_verb {verb s : String} (hs : s.toList = verb.toList ++ [' '])
    (hw : isWord verb = true) (hm : verb ≠ "MATCHES")
    (ht : Token.tokens false (s.toList ++ rest) = .ok ts) (htail : .word verb :: tail <+: ts) :
    ∃ us, Token.tokens false rest = .ok us ∧ tail <+: us := by
  obtain ⟨us, hus, rfl⟩ := (Spells.word_blank hs hw hm rest).tokens_rest ht
  exact ⟨us, hus, (List.cons_prefix_cons.mp htail).2⟩

/-- An action that is read with its names of its text, or of some first tokens of it, has ordinary
names. -/
theorem namesOrdinary_of_reads {b : Action} (ha : a.IsProper isWritable)
    (hc : ∀ name ∈ a.names, beginsComment name.toList = false) (hrest : Stops rest)
    (ht : Token.tokens false (a.text.toList ++ rest) = .ok ts) (htail : tail <+: ts)
    (h : ReadsAction tail b more) (hnames : b.names = a.names) : a.NamesOrdinary := by
  cases a with
  | update _ _ | notify _ | delete | stop => trivial
  | create kind payload =>
    have htext : (Action.create kind payload).text.toList ++ rest = "CREATE ".toList ++
        (kind.toList ++ ' ' :: 'W' :: ("ITH ".toList ++ (payload.compact.toList ++ rest))) := by
      simp [Action.text]
    rw [htext] at ht
    cases h with
    | create hkind =>
      obtain ⟨us, hus, hafter⟩ := exists_tokens_of_verb rfl rfl (by decide) ht htail
      simp only [Action.names, List.cons.injEq, and_true, true_and] at hnames
      subst hnames
      exact isName_of_reads (hc _ (by simp [Action.names])) rfl hus hafter hkind
    | _ => simp [Action.names] at hnames
  | send subject handler =>
    have htext : (Action.send subject handler).text.toList ++ rest = "SEND ".toList ++
        (subject.toList ++ ' ' :: 'T' :: ("O ".toList ++ (handler.toList ++ rest))) := by
      simp [Action.text]
    rw [htext] at ht
    cases h with
    | send hsubject hhandler =>
      obtain ⟨us, hus, hafter⟩ := exists_tokens_of_verb rfl rfl (by decide) ht htail
      simp only [Action.names, List.cons.injEq, and_true, true_and] at hnames
      obtain ⟨rfl, -⟩ := hnames
      have hname := isName_of_reads (hc _ (by simp [Action.names])) rfl hus hafter hsubject
      have hto : Spells "TO ".toList [.word "TO"] (handler.toList ++ rest) :=
        Spells.word_blank rfl rfl (by decide) _
      -- The subject is ordinary, so that what follows its tokens is the text of the handler.
      have hspells := (hname.spells (stops_blank _)).append hto.blank_cons
      obtain ⟨vs, hvs, rfl⟩ := hspells.tokens_rest (by simpa using hus)
      cases hsubject with
      | word =>
        exact ⟨hname, notKeyword_of_reads ha hrest hvs (by simpa using hafter) hhandler⟩
      -- A subject that is read of a string is no word.
      | str => simp at hafter
    | _ => simp [Action.names] at hnames
  | invoke handler args =>
    have htext : (Action.invoke handler args).text.toList ++ rest = "INVOKE ".toList ++
        (handler.toList ++
          '(' :: ((joinWith ", " (args.map Json.compact)).toList ++ ')' :: rest)) := by
      simp [Action.text]
    rw [htext] at ht
    cases h with
    | invoke hhandler | invokeEmpty hhandler | invokeWith hhandler =>
      obtain ⟨us, hus, hafter⟩ := exists_tokens_of_verb rfl rfl (by decide) ht htail
      exact notKeyword_of_reads ha.1 (stops_cons _ rfl) hus hafter hhandler
    | _ => simp [Action.names] at hnames

end

section Entity

theorem isIdentifier_of_isKeyword {w : String} (h : isKeyword w = true) :
    isIdentifier w = true := by
  have hall : ∀ k ∈ keywords, isIdentifier k = true := by decide
  exact hall w (List.contains_iff_mem.mp h)

/-- Where a statement ends or goes on with two keywords, neither an event nor an entity is read. -/
theorem not_statement_keyword {events : List Event} (hne : events ≠ []) {w next : String}
    (hw : isKeyword w = true) (hnext : isKeyword next = true)
    (htail : tail <+: .word w :: .word next :: more) (line : Nat) (rule : Rule) :
    statement line (.word "IF" ::
      ([.symbol .pipe].intercalate (events.map fun e => [.word e.tag]) ++ tail)) ≠ .ok rule := by
  have hreads : moreEvents tail = .ok ([], tail) ∧ ∃ r, entityAt tail = .error r := by
    rcases List.prefix_cons_iff.mp htail with rfl | ⟨after, rfl, hafter⟩
    · exact ⟨by rw [moreEvents], _, rfl⟩
    · have hevent : tagThenEntity (.word w :: after) = false := by
        rcases List.prefix_cons_iff.mp hafter with rfl | ⟨last, rfl, -⟩
        · rfl
        · simp [tagThenEntity, hnext]
      refine ⟨moreEvents_of_ne (by simp) (by simp) hevent, ?_⟩
      simp [entityAt, hw, rejectExpected, reject]
  obtain ⟨hmore, r, hr⟩ := hreads
  obtain ⟨first, others, -, htokens, hevents⟩ := events_tokens hne hmore
  rw [htokens, statement]
  simp [expectKeyword, afterKeyword?, eventAt, Event.ofTag?_tag, Reading.ofHead, hevents, hr]

/-- After its entity, the text of a rule goes on with a keyword. -/
theorem exists_keyword_afterHead (rule : Rule) :
    ∃ w follows, isKeyword w = true ∧ Stops follows ∧
      (conditionText rule.condition).toList ++ rule.tailText = ' ' :: (w.toList ++ follows) := by
  cases rule.condition with
  | none =>
    refine ⟨"THEN", (actionsText rule.actions).toList, by decide, ?_, rfl⟩
    unfold actionsText
    split
    · exact stops_nil
    · rw [String.toList_append]
      exact stops_blank _
  | some clauses =>
    refine ⟨"WHEN", ' ' :: ((Clause.allText clauses).toList ++ rule.tailText), by decide,
      stops_blank _, ?_⟩
    simp [conditionText]

/-- A keyword in the place of the entity is printed without quotes, and is read as no entity. -/
theorem notKeyword_entity_of_compile {rule : Rule} (hne : rule.events ≠ []) {again : Rule}
    {others : List Rule} (h : compile rule.text = .ok (again :: others)) :
    isKeyword rule.entity = false := by
  by_contra hk
  rw [Bool.not_eq_false] at hk
  have hidentifier := isIdentifier_of_isKeyword hk
  obtain ⟨w, follows, hw, hstops, hfollows⟩ := exists_keyword_afterHead rule
  have htext : rule.text.toList = ("IF ".toList ++
      ((joinWith "|" (rule.events.map Event.tag)).toList ++ [' '])) ++
        (rule.entity.toList ++ ' ' :: (w.toList ++ follows)) := by
    rw [text_eq, headText_eq, entityText, if_pos hidentifier, hfollows, List.append_assoc]
  obtain ⟨placed, hplaced⟩ := exists_tokens_of_compile h
  have htokens := tokens_of_tokenize hplaced
  rw [htext] at htokens
  obtain ⟨us, hus, hall⟩ := (spells_events rule.events _).tokens_rest htokens
  rw [hall, ← htext] at htokens
  obtain ⟨line, tail, hread, hprefix⟩ := statement_of_compile h (all_events rule.events) htokens
  rw [tokens_word (isWord_of_isIdentifier hidentifier) (stops_blank _), tokens_blank rfl,
    tokens_word (isWord_of_isIdentifier (isIdentifier_of_isKeyword hw)) hstops] at hus
  obtain ⟨vs, hvs, rfl⟩ := map_eq_ok.mp hus
  obtain ⟨last, -, rfl⟩ := map_eq_ok.mp hvs
  exact not_statement_keyword hne hk hw hprefix line again hread

end Entity

section Actions

variable {front back : List Action} {a : Action} {actions : List Action}

/-- The text and the tokens of the actions before another. -/
def earlierActions (front : List Action) : List Char :=
  front.flatMap fun b => b.text.toList ++ ", ".toList

def earlierActionTokens (front : List Action) : List Token :=
  front.flatMap fun b => b.tokens ++ [.symbol .comma]

theorem actionsText_middle (front : List Action) (a : Action) (back : List Action) :
    (actionsText (front ++ a :: back)).toList = ' ' :: (earlierActions front ++
      (a.text.toList ++ back.flatMap fun b => ", ".toList ++ b.text.toList)) := by
  have hne : (front ++ a :: back).isEmpty = false := by simp
  rw [actionsText, hne]
  simp only [Bool.false_eq_true, if_false, String.toList_append, joinWith,
    String.toList_intercalate, List.map_append, List.map_cons, intercalate_middle,
    List.flatMap_map, List.map_map]
  rfl

theorem spells_earlierActions (hp : ∀ b ∈ front, b.IsProper isWritable)
    (ho : ∀ b ∈ front, b.IsOrdinary) (rest : List Char) :
    Spells (earlierActions front) (earlierActionTokens front) rest := by
  induction front with
  | nil => exact Spells.nil rest
  | cons b front ih =>
    obtain ⟨hb, hfront⟩ := List.forall_mem_cons.mp hp
    obtain ⟨hob, hofront⟩ := List.forall_mem_cons.mp ho
    rw [earlierActions, earlierActionTokens, List.flatMap_cons, List.flatMap_cons]
    exact ((Action.spells hb hob (stops_comma _)).append (spells_comma _)).append
      (ih hfront hofront)

theorem all_earlierActionTokens (hp : ∀ b ∈ front, b.IsProper isWritable)
    (ho : ∀ b ∈ front, b.IsOrdinary) : (earlierActionTokens front).all isInner = true := by
  rw [earlierActionTokens, List.all_flatMap, List.all_eq_true]
  intro b hb
  rw [List.all_append, all_action (hp b hb) (ho b hb)]
  rfl

theorem actionsAt_earlier (hp : ∀ b ∈ front, b.IsProper isWritable)
    (ho : ∀ b ∈ front, b.IsOrdinary) (hjson : ∀ b ∈ front, b.ReadsBack)
    (h : actionsAt (earlierActionTokens front ++ tail) = .ok actions) :
    ∃ others, actionsAt tail = .ok others ∧ actions = front ++ others := by
  -- The tokens of an action end where the comma stands, so it is read first.
  induction front generalizing actions with
  | nil => exact ⟨actions, h, rfl⟩
  | cons b front ih =>
    obtain ⟨hb, hfront⟩ := List.forall_mem_cons.mp hp
    obtain ⟨hob, hofront⟩ := List.forall_mem_cons.mp ho
    obtain ⟨hjb, hjfront⟩ := List.forall_mem_cons.mp hjson
    obtain ⟨after, hafter⟩ : ∃ us, us = earlierActionTokens front ++ tail := ⟨_, rfl⟩
    have htokens : earlierActionTokens (b :: front) ++ tail =
        b.tokens ++ .symbol .comma :: after := by
      simp [hafter, earlierActionTokens]
    have hread : actionAt (b.tokens ++ .symbol .comma :: after) =
        .ok (b, .symbol .comma :: after) :=
      actionAt_tokens hb hob hjb (endsExpr_cons _ rfl rfl (by decide))
    have hlength : 0 < b.tokens.length := List.length_pos_of_ne_nil (tokens_ne_nil b)
    have hlt : after.length + 1 < (b.tokens ++ .symbol .comma :: after).length := by
      simp only [List.length_append, List.length_cons]
      omega
    rw [htokens] at h
    by_cases hne : after = []
    · rw [hne] at h hread hlt
      exact absurd h (actionsAt_comma_nil hlt hread actions)
    · rw [actionsAt_comma hlt hne hread] at h
      obtain ⟨more, hmore, rfl⟩ := map_eq_ok.mp h
      obtain ⟨others, hothers, rfl⟩ := ih hfront hofront hjfront (hafter ▸ hmore)
      exact ⟨others, hothers, rfl⟩

theorem ReadsActions.head (h : ReadsActions ts (a :: actions)) : ∃ more, ReadsAction ts a more := by
  cases h with
  | next ha | comma ha => exact ⟨_, ha⟩

/-- A rule without its actions. -/
def opening (rule : Rule) : Rule := { rule with actions := [] }

theorem opening_text (rule : Rule) :
    rule.text.toList = rule.opening.text.toList ++ (actionsText rule.actions).toList := by
  simp [text, opening, actionsText]

theorem IsProper.opening {rule : Rule} (h : rule.IsProper isWritable) :
    rule.opening.IsProper isWritable :=
  ⟨h.entity, h.events, h.sorted, h.condition, fun _ ha => absurd ha List.not_mem_nil⟩

theorem opening_isOrdinary {rule : Rule} (hk : isKeyword rule.entity = false)
    (hv : rule.ValuesOrdinary) : rule.opening.IsOrdinary :=
  ⟨hk, hv.condition, fun _ ha => absurd ha List.not_mem_nil⟩

/-- The actions that are read of the text of a rule: those in front whose names are ordinary, and
what is read of the text from the next one on. -/
theorem exists_actionsAt_of_compile {rule : Rule} (hp : rule.IsProper isWritable)
    (hv : rule.ValuesOrdinary) (hs : rule.IsShielded) (hk : isKeyword rule.entity = false)
    (hjson : ∀ b ∈ rule.actions, b.ReadsBack) (hactions : rule.actions = front ++ a :: back)
    (hfront : ∀ b ∈ front, b.NamesOrdinary) {again : Rule} {others : List Rule}
    (h : compile rule.text = .ok (again :: others)) :
    ∃ follows us tail found, Stops follows ∧
      Token.tokens false (a.text.toList ++ follows) = .ok us ∧ tail <+: us ∧
      actionsAt tail = .ok found ∧ again.actions = front ++ found := by
  have hmem : ∀ b ∈ front, b ∈ rule.actions := fun b hb => hactions ▸ List.mem_append_left _ hb
  have hproper : ∀ b ∈ front, b.IsProper isWritable := fun b hb => hp.actions b (hmem b hb)
  have hordinary : ∀ b ∈ front, b.IsOrdinary := fun b hb =>
    Action.isOrdinary_iff.mpr ⟨hv.actions b (hmem b hb), hfront b hb⟩
  have hopening := opening_isOrdinary hk hv
  obtain ⟨follows, hfollows⟩ : ∃ cs, cs = back.flatMap fun b => ", ".toList ++ b.text.toList :=
    ⟨_, rfl⟩
  have hstops : Stops follows := by
    rw [hfollows]
    cases back with
    | nil => exact stops_nil
    | cons b back => exact stops_comma _
  -- Up to the action, the text is read as it was meant, whatever follows.
  have hspells : Spells (rule.opening.text.toList ++ ' ' :: earlierActions front)
      (rule.opening.tokens ++ earlierActionTokens front) (a.text.toList ++ follows) :=
    (spells hp.opening hopening hs (stops_blank _)).append
      (spells_earlierActions hproper hordinary _).blank_cons
  have htext : rule.text.toList =
      (rule.opening.text.toList ++ ' ' :: earlierActions front) ++ (a.text.toList ++ follows) := by
    rw [opening_text, hactions, actionsText_middle, hfollows]
    simp only [List.append_assoc, List.cons_append]
  obtain ⟨placed, hplaced⟩ := exists_tokens_of_compile h
  have htokens := tokens_of_tokenize hplaced
  rw [htext] at htokens
  obtain ⟨us, hus, hmap⟩ := hspells.tokens_rest htokens
  rw [hmap, ← htext] at htokens
  -- Up to there no token ends the statement, but one of the action may.
  have hinner : (rule.opening.body ++ earlierActionTokens front).all isInner = true := by
    rw [List.all_append, all_body hp.opening hopening, all_earlierActionTokens hproper hordinary]
    rfl
  obtain ⟨line, tail, hread, hprefix⟩ := statement_of_compile h hinner htokens
  have hbody : rule.opening.body ++ earlierActionTokens front ++ tail =
      [.symbol .pipe].intercalate (rule.events.map fun e => [.word e.tag]) ++
        entityToken rule.entity :: (conditionTokens rule.condition ++
          .word "THEN" :: (earlierActionTokens front ++ tail)) := by
    simp [body, opening]
  rw [hbody, statement_actions hp hk] at hread
  obtain ⟨actions, hall, rfl⟩ := map_eq_ok.mp hread
  obtain ⟨found, hfound, hsplit⟩ :=
    actionsAt_earlier hproper hordinary (fun b hb => hjson b (hmem b hb)) hall
  exact ⟨follows, us, tail, found, hstops, hus, hprefix, hfound, hsplit⟩

/-- Of the actions of a rule, the first whose names are not ordinary is not read with these
names. -/
theorem namesOrdinary_of_compile {rule : Rule} (hp : rule.IsProper isWritable)
    (hv : rule.ValuesOrdinary) (hs : rule.IsShielded) (hk : isKeyword rule.entity = false)
    (hjson : ∀ b ∈ rule.actions, b.ReadsBack) (hactions : rule.actions = front ++ a :: back)
    (hfront : ∀ b ∈ front, b.NamesOrdinary)
    (hc : ∀ name ∈ a.names, beginsComment name.toList = false) {again : Rule} {others : List Rule}
    (h : compile rule.text = .ok (again :: others))
    (hnames : again.actions.map Action.names = rule.actions.map Action.names) :
    a.NamesOrdinary := by
  have ha : a ∈ rule.actions := hactions ▸ List.mem_append_right _ List.mem_cons_self
  obtain ⟨follows, us, tail, found, hstops, hus, hprefix, hfound, hsplit⟩ :=
    exists_actionsAt_of_compile hp hv hs hk hjson hactions hfront h
  rw [hsplit, hactions, List.map_append, List.map_append, List.append_cancel_left_eq,
    List.map_cons] at hnames
  obtain ⟨b, last, rfl, hb, -⟩ := List.map_eq_cons_iff.mp hnames
  obtain ⟨more, hmore⟩ := (readsActions_of_actionsAt hfound).head
  exact namesOrdinary_of_reads (hp.actions a ha) hc hstops hus hprefix hmore hb

end Actions

/-- If names survive, they are ordinary, unless a comment begins one of them. -/
theorem NamesSurvive.namesOrdinary {rule : Rule} (hp : rule.IsProper isWritable)
    (hv : rule.ValuesOrdinary) (hs : rule.IsShielded) (hjson : ∀ a ∈ rule.actions, a.ReadsBack)
    (hc : ∀ a ∈ rule.actions, ∀ name ∈ a.names, beginsComment name.toList = false)
    (h : rule.NamesSurvive) : rule.NamesOrdinary := by
  obtain ⟨again, hagain, -, hnames⟩ := h
  have hk := notKeyword_entity_of_compile hp.events hagain
  refine ⟨hk, ?_⟩
  by_contra hnot
  simp only [not_forall] at hnot
  obtain ⟨a, ha, hnot⟩ := hnot
  obtain ⟨before, after, hsplit⟩ := List.append_of_mem ha
  obtain ⟨front, b, back, hactions, hb, hfront⟩ :=
    @exists_first _ (fun b _ => b.NamesOrdinary) _ ⟨before, a, after, hsplit, hnot⟩
  have hmem : b ∈ rule.actions := hactions ▸ List.mem_append_right _ List.mem_cons_self
  refine hb (namesOrdinary_of_compile hp hv hs hk hjson hactions (fun c hcs => ?_) (hc b hmem)
    hagain hnames)
  obtain ⟨start, rest, hrest⟩ := List.append_of_mem hcs
  exact hfront start c rest hrest

theorem NamesOrdinary.namesSurvive {rule : Rule} (hp : rule.IsProper isWritable)
    (hv : rule.ValuesOrdinary) (hs : rule.IsShielded) (hjson : ∀ a ∈ rule.actions, a.ReadsBack)
    (h : rule.NamesOrdinary) : rule.NamesSurvive := by
  have hproper : ∀ r ∈ [rule], r.IsProper isWritable := List.forall_mem_singleton.mpr hp
  obtain ⟨rules, hrules, hsame⟩ := compilesBack hproper
    (List.forall_mem_singleton.mpr (isOrdinary_iff.mpr ⟨hv, h⟩))
    (List.forall_mem_singleton.mpr hjson) (List.forall_mem_singleton.mpr hs)
  obtain ⟨again, rfl, hagain⟩ := List.map_eq_singleton_iff.mp hsame
  refine ⟨again, by simpa [joinWith] using hrules, ?_, ?_⟩
  · exact (Rule.mk.inj hagain).1
  · rw [(Rule.mk.inj hagain).2.2.2.1]

/-- Printing a rule and compiling it again: the entity and the names of every rule that compiles,
and whose other parts are read again, survive if the names are ordinary, and only then if no name
begins with a comment. -/
theorem names_survive_exact {source : String} {rules : List Rule} (h : compile source = .ok rules)
    {rule : Rule} (hr : rule ∈ rules) (hpatterns : ∀ p ∈ rule.patterns, p.IsSlashed)
    (hs : rule.IsShielded) (hv : rule.ValuesOrdinary) (hjson : ∀ a ∈ rule.actions, a.ReadsBack) :
    (rule.NamesOrdinary → rule.NamesSurvive) ∧
      ((∀ a ∈ rule.actions, ∀ name ∈ a.names, beginsComment name.toList = false) →
        rule.NamesSurvive → rule.NamesOrdinary) := by
  have hp : rule.IsProper isWritable :=
    hv.writable ((isRead_of_compile h rule hr).isProper_of_patterns hpatterns)
  exact ⟨NamesOrdinary.namesSurvive hp hv hs hjson, NamesSurvive.namesOrdinary hp hv hs hjson⟩

/-- A rule about an entity, with one action. -/
def naming (entity : String) (a : Action) : Rule := ⟨entity, [.get], none, [a], 1⟩

theorem naming_isShielded (entity : String) (a : Action) : (naming entity a).IsShielded := by
  intro before p after h
  cases before <;> cases h

theorem naming_valuesOrdinary {entity : String} {a : Action} (h : a.ValuesOrdinary) :
    (naming entity a).ValuesOrdinary where
  condition := by
    intro clauses hc
    cases hc
  actions := List.forall_mem_singleton.mpr h

/-- A subject that is one word survives, and one of two words does not. -/
theorem names_survive_exact_subject :
    compile "IF GET \"hot leads\" THEN SEND lead TO action.crm" =
        .ok [naming "hot leads" (.send "lead" "crm")] ∧
      (naming "hot leads" (.send "lead" "crm")).NamesSurvive ∧
      compile "IF GET \"hot leads\" THEN SEND \"big lead\" TO crm" =
        .ok [naming "hot leads" (.send "big lead" "crm")] ∧
      ¬(naming "hot leads" (.send "big lead" "crm")).NamesSurvive := by
  have hword : compile "IF GET \"hot leads\" THEN SEND lead TO action.crm" =
      .ok [naming "hot leads" (.send "lead" "crm")] := by
    with_unfolding_all rfl
  have hwords : compile "IF GET \"hot leads\" THEN SEND \"big lead\" TO crm" =
      .ok [naming "hot leads" (.send "big lead" "crm")] := by
    with_unfolding_all rfl
  have hpatterns (a : Action) : ∀ p ∈ (naming "hot leads" a).patterns, p.IsSlashed := by
    intro p hp
    cases hp
  have hexact {source : String} {subject : String}
      (h : compile source = .ok [naming "hot leads" (.send subject "crm")]) :=
    names_survive_exact h List.mem_cons_self (hpatterns _) (naming_isShielded _ _)
      (naming_valuesOrdinary trivial) (List.forall_mem_singleton.mpr trivial)
  refine ⟨hword, (hexact hword).1 ?_, hwords, fun hsurvive => ?_⟩
  · exact ⟨by decide, List.forall_mem_singleton.mpr ⟨⟨by decide, by decide⟩, by decide⟩⟩
  · have hnames := (hexact hwords).2 (by decide) hsurvive
    have hname : IsName "big lead" := (hnames.actions _ List.mem_cons_self).1
    exact absurd hname.1 (by decide)

theorem not_namesSurvive {rule : Rule} (h : (compile rule.text).isOk = false) :
    ¬rule.NamesSurvive := by
  rintro ⟨again, hagain, -⟩
  rw [hagain] at h
  cases h

/-- Names that are printed bare and read as no names: a keyword as entity, a subject of two words,
and keywords as handlers. -/
theorem names_not_survive :
    (compile "IF GET \"WHEN\" THEN END" = .ok [naming "WHEN" .stop] ∧
      ¬(naming "WHEN" .stop).NamesSurvive) ∧
    (compile "IF GET x THEN SEND \"big lead\" TO crm" =
        .ok [naming "x" (.send "big lead" "crm")] ∧
      ¬(naming "x" (.send "big lead" "crm")).NamesSurvive) ∧
    (compile "IF GET x THEN SEND lead TO action.IF" = .ok [naming "x" (.send "lead" "IF")] ∧
      ¬(naming "x" (.send "lead" "IF")).NamesSurvive) ∧
    compile "IF GET x THEN INVOKE action.NOT" = .ok [naming "x" (.invoke "NOT" [])] ∧
      ¬(naming "x" (.invoke "NOT" [])).NamesSurvive := by
  refine ⟨⟨?_, not_namesSurvive (by decide +kernel)⟩, ⟨?_, not_namesSurvive (by decide +kernel)⟩,
    ⟨?_, not_namesSurvive (by decide +kernel)⟩, ?_, not_namesSurvive (by decide +kernel)⟩
  all_goals with_unfolding_all rfl

end Rule

end Bylaw
