import Bylaw.Proofs.Rule.Joining

/-! Patterns of printed clauses. Main statement: a pattern that reading gave is read again between
slashes if and only if it is not empty, and neither a line feed, nor a backslash before a slash, nor
a backslash at its end stands in it by itself. -/

namespace Bylaw

open Token

namespace Rule

variable {ts rest : List Token}

/-- A statement whose condition is a clause. -/
def single (c : Clause) : Rule := ⟨"x", [.get], some [c], [.stop], 1⟩

theorem text_single (c : Clause) :
    (single c).text = "IF GET x WHEN " ++ c.text ++ " THEN END" := by
  have hentity : entityText "x" = "x" := by decide
  rw [← String.toList_inj]
  simp [single, text, hentity, Event.tag, joinWith, conditionText, Clause.allText, actionsText,
    Action.text]

theorem isProper_single {c : Clause} (hc : c.IsProper isWritable) :
    (single c).IsProper isWritable where
  entity := by simp [single]
  events := by simp [single]
  sorted := rfl
  condition := by
    rintro clauses ⟨⟩
    exact ⟨List.cons_ne_nil _ _, List.forall_mem_singleton.mpr hc⟩
  actions := List.forall_mem_singleton.mpr trivial

theorem isOrdinary_single {c : Clause} (hc : c.IsOrdinary) : (single c).IsOrdinary where
  entity := by simp [single, isKeyword, keywords]
  condition := by
    rintro clauses ⟨⟩
    exact List.forall_mem_singleton.mpr hc
  actions := List.forall_mem_singleton.mpr trivial

section

variable {field : FieldPath} {p : Pattern} {negated : Bool}

theorem conditionAt_pattern (hf : field.IsOperand) {source : String} {clauses : List Clause}
    (h : conditionAt (.word field.text :: (Clause.notTokens negated ++
      .word "MATCHES" :: .pattern source :: ts)) = .ok (clauses, rest)) :
    ∃ q others, clauses = .fits field q negated :: others ∧ q.source = source := by
  obtain ⟨⟨first, more⟩, hfirst, h⟩ := bind_eq_ok.mp h
  obtain ⟨⟨others, last⟩, -, heq⟩ := bind_eq_ok.mp h
  obtain ⟨rfl, -⟩ := Prod.mk.inj (Except.ok.inj heq)
  rw [clauseAt_field hf negated rfl, fieldTest, if_neg (by decide), if_pos rfl] at hfirst
  obtain ⟨⟨q, after⟩, hq, heq⟩ := map_eq_ok.mp hfirst
  obtain ⟨rfl, -⟩ := Prod.mk.inj heq
  obtain ⟨t, ht, hts | hts⟩ := patternAt_cases hq
  · obtain rfl := (List.cons.inj hts).1
    refine ⟨q, others, rfl, ?_⟩
    simpa [eq_comm] using ht
  · cases hts

/-- The tokens of a statement up to the pattern of its first clause. -/
def headTokens (field : FieldPath) (negated : Bool) : List Token :=
  cutTokens (single (.present field negated)) [] field negated

theorem headTokens_append (ts : List Token) :
    headTokens field negated ++ ts =
      [.symbol .pipe].intercalate
        ((single (.present field negated)).events.map fun e => [.word e.tag]) ++
          entityToken (single (.present field negated)).entity :: .word "WHEN" ::
            .word field.text :: (Clause.notTokens negated ++ .word "MATCHES" :: ts) := by
  simp [headTokens, cutTokens, Clause.earlierTokens]

theorem statement_pattern (hf : field.IsOperand) {line : Nat} {source : String} {rule : Rule}
    (h : statement line (.word "IF" :: (headTokens field negated ++ .pattern source :: ts)) =
      .ok rule) :
    ∃ q others, rule.condition = some (.fits field q negated :: others) ∧ q.source = source := by
  have hproper : (single (.present field negated)).IsProper isWritable := isProper_single hf
  have hordinary := isOrdinary_single (c := .present field negated) trivial
  rw [headTokens_append, statement_head hproper hordinary.entity line (by decide)] at h
  have hwhen (us : List Token) : afterKeyword? "WHEN" (.word "WHEN" :: us) = some us := by
    rw [afterKeyword?, if_pos rfl]
  simp only [hwhen] at h
  obtain ⟨⟨clauses, us⟩, hclauses, h⟩ := bind_eq_ok.mp h
  obtain ⟨q, others, rfl, hq⟩ := conditionAt_pattern hf hclauses
  simp only [pure_bind] at h
  split at h
  · cases h
  · obtain ⟨actions, -, h⟩ := bind_eq_ok.mp h
    obtain rfl := Except.ok.inj h
    exact ⟨q, others, rfl, hq⟩

/-- What a printed clause is read as is up to the scanner, from its pattern on. -/
theorem tokens_single (hf : field.IsOperand) :
    Token.tokens false (single (.fits field p negated)).text.toList =
      (Token.tokens true ('/' :: (slashText p.source.toList ++ '/' :: " THEN END".toList))).map
        (.word "IF" :: headTokens field negated ++ ·) := by
  obtain ⟨follows, hfollows⟩ : ∃ cs, cs = "MATCHES ".toList ++
    '/' :: (slashText p.source.toList ++ '/' :: " THEN END".toList) := ⟨_, rfl⟩
  have hordinary := isOrdinary_single (c := .present field negated) trivial
  have hspells := (spells_head hordinary (stops_blank _)).append
    ((spells_when _).append (spells_field hf negated follows))
  have htail : (single (.fits field p negated)).tailText = " THEN END".toList := by
    show " THEN".toList ++ (actionsText [.stop]).toList = _
    decide
  have hcondition : (conditionText (single (.fits field p negated)).condition).toList =
      " WHEN ".toList ++ (Clause.leadText field negated "MATCHES " ++
        '/' :: (slashText p.source.toList ++ ['/'])) := by
    rw [← Clause.text_fits]
    exact String.toList_append
  have htext : (single (.fits field p negated)).text.toList =
      (single (.present field negated)).headText ++ (" WHEN ".toList ++
        (field.text.toList ++ ' ' :: (Clause.notText negated).toList)) ++ follows := by
    rw [text_eq, htail, hcondition, Clause.leadText, hfollows]
    simp only [List.append_assoc, List.cons_append, List.nil_append]
    rfl
  rw [htext, hspells, hfollows, tokens_word_matches]
  cases Token.tokens true ('/' :: (slashText p.source.toList ++ '/' :: " THEN END".toList)) with
  | error e => rfl
  | ok us =>
    show Except.ok _ = Except.ok _
    simp [headTokens, cutTokens, Clause.earlierTokens]

theorem all_headTokens (hf : field.IsOperand) :
    (headTokens field negated).all isInner = true := by
  have hhead := all_head (isOrdinary_single (c := .present field negated) trivial)
  have htest : (Token.word "WHEN" :: .word field.text ::
      (Clause.notTokens negated ++ [.word "MATCHES"])).all isInner = true := by
    cases negated <;> simp [Clause.notTokens, isInner_name hf.notKeyword] <;> decide
  rw [← List.append_nil (headTokens field negated), headTokens_append, List.append_cons,
    List.all_append, hhead, htest]
  rfl

/-- What a pattern that is not empty is printed as is scanned as a pattern, if at all. -/
theorem tokens_printed (hne : p.source ≠ "") {rest : List Char}
    (h : Token.tokens true ('/' :: (slashText p.source.toList ++ rest)) = .ok ts) :
    ∃ v us, Slashed v ∧ ts = .pattern (.ofList v) :: us := by
  have hchars : p.source.toList ≠ [] := fun hnil => hne (String.toList_eq_nil_iff.mp hnil)
  rw [tokens_of_skipTrivia
    (skipTrivia_of_ne rfl (by decide) fun _ => head?_slashText hchars rest)] at h
  cases hbody : patternBody (slashText p.source.toList ++ rest) with
  | error fault => simp [scan, hbody] at h
  | ok r =>
    simp only [scan, hbody] at h
    obtain ⟨us, -, rfl⟩ := map_eq_ok.mp h
    exact ⟨r.value, us, slashed_of_patternBody ⟨r.shorter, hbody⟩, rfl⟩

/-- A printed pattern that is not empty is read again only if it can stand between slashes. -/
theorem isSlashed_of_compile (hf : field.IsOperand) (hne : p.source ≠ "") {rule : Rule}
    {q : Pattern} (h : compile (single (.fits field p negated)).text = .ok [rule])
    (hcondition : rule.condition = some [.fits field q negated]) (hq : q.source = p.source) :
    p.IsSlashed := by
  obtain ⟨placed, hplaced⟩ := exists_tokens_of_compile h
  have htokens := tokens_of_tokenize hplaced
  rw [tokens_single hf] at htokens
  obtain ⟨us, hus, -⟩ := map_eq_ok.mp htokens
  obtain ⟨v, tail, hv, rfl⟩ := tokens_printed hne hus
  have hinner : (headTokens field negated ++ [Token.pattern (.ofList v)]).all isInner = true := by
    rw [List.all_append, all_headTokens hf]
    rfl
  have hall : Token.tokens false (single (.fits field p negated)).text.toList =
      .ok (.word "IF" :: ((headTokens field negated ++ [.pattern (.ofList v)]) ++ tail)) := by
    rw [tokens_single hf, hus, List.append_assoc]
    rfl
  obtain ⟨line, others, hread, -⟩ := statement_of_compile h hinner hall
  rw [List.append_assoc, List.singleton_append] at hread
  obtain ⟨q', later, hclauses, hsource⟩ := statement_pattern hf hread
  rw [hcondition] at hclauses
  obtain ⟨-, rfl, -⟩ := Clause.fits.inj (List.cons.inj (Option.some.inj hclauses)).1
  rw [Pattern.IsSlashed, ← hq, hsource, String.toList_ofList]
  exact hv

theorem patterns_single {before after : List Pattern} {q : Pattern}
    (h : (single (.fits field p negated)).patterns = before ++ q :: after) :
    q = p ∧ after = [] := by
  have hone : [p] = before ++ q :: after := h
  cases before with
  | nil =>
    obtain ⟨rfl, rfl⟩ := List.cons.inj hone
    exact ⟨rfl, rfl⟩
  | cons r before => simp at hone

theorem compile_of_isSlashed (hf : field.IsOperand) (hne : p.source ≠ "") (hp : p.IsSlashed) :
    ∃ rule, compile (single (.fits field p negated)).text = .ok [rule] ∧
      rule.condition = some [.fits field p negated] := by
  have hshielded : (single (.fits field p negated)).IsShielded := by
    intro before q after hpatterns hempty
    exact absurd ((patterns_single hpatterns).1 ▸ hempty) hne
  have hproper : ∀ r ∈ [single (.fits field p negated)], r.IsProper isWritable :=
    List.forall_mem_singleton.mpr (isProper_single ⟨hf, hp⟩)
  obtain ⟨again, hagain, hsame⟩ := compilesBack hproper
    (List.forall_mem_singleton.mpr (isOrdinary_single trivial))
    (List.forall_mem_singleton.mpr (List.forall_mem_singleton.mpr trivial))
    (List.forall_mem_singleton.mpr hshielded)
  obtain ⟨rule, rfl, hrule⟩ := List.map_eq_singleton_iff.mp hsame
  refine ⟨rule, by simpa [joinWith] using hagain, ?_⟩
  exact (Rule.mk.inj hrule).2.2.1

/-- The slashes of a printed pattern that is empty begin a comment. -/
theorem not_compile_of_empty (hf : field.IsOperand) (hempty : p.source = "") (rules : List Rule) :
    compile (single (.fits field p negated)).text ≠ .ok rules := by
  have hslashed : p.IsSlashed := by
    rw [Pattern.IsSlashed, hempty]
    exact .nil
  have hreach : (single (.fits field p negated)).CommentsReachEnd := by
    intro before q after hpatterns _
    obtain ⟨-, rfl⟩ := patterns_single hpatterns
    exact nofun
  have hproper : ∀ r ∈ [single (.fits field p negated)], r.IsProper isWritable :=
    List.forall_mem_singleton.mpr (isProper_single ⟨hf, hslashed⟩)
  have hnot := not_compiles hproper (List.forall_mem_singleton.mpr (isOrdinary_single trivial))
    (List.forall_mem_singleton.mpr hreach) ?_ rules
  · simpa [joinWith] using hnot
  · intro hshielded
    cases List.forall_mem_singleton.mp hshielded [] p [] rfl hempty

end

/-- Printing a clause that tests a field against a pattern, and compiling it again. For every such
clause of a rule that compiles, however its pattern was written, the printed clause compiles to one
rule with no other clause, with the same field, the same negation and the same pattern, if and only
if the pattern is not empty and can stand between slashes. -/
theorem compile_printed_pattern {source : String} {rules : List Rule}
    (h : compile source = .ok rules) {rule : Rule} (hr : rule ∈ rules) {clauses : List Clause}
    (hc : rule.condition = some clauses) {field : FieldPath} {p : Pattern} {negated : Bool}
    (hp : .fits field p negated ∈ clauses) :
    (∃ again q, compile ("IF GET x WHEN " ++ (Clause.fits field p negated).text ++ " THEN END") =
        .ok [again] ∧ again.condition = some [.fits field q negated] ∧ q.source = p.source) ↔
      p.source ≠ "" ∧ Slashed p.source.toList := by
  have hf : field.IsOperand := (((isRead_of_compile h rule hr).condition clauses hc).2 _ hp).1
  rw [← text_single]
  constructor
  · rintro ⟨again, q, hagain, hcondition, hq⟩
    have hne : p.source ≠ "" := fun hempty => not_compile_of_empty hf hempty _ hagain
    exact ⟨hne, isSlashed_of_compile hf hne hagain hcondition hq⟩
  · rintro ⟨hne, hslashed⟩
    obtain ⟨again, hagain, hcondition⟩ := compile_of_isSlashed hf hne hslashed
    exact ⟨again, p, hagain, hcondition, rfl⟩

/-- A pattern with a slash, which a string holds as it is. -/
def slashed : Pattern where
  source := "a/b"
  node := .seq (.one (.single 'a')) (.seq (.one (.single '/')) (.seq (.one (.single 'b')) .empty))
  reads := by with_unfolding_all rfl

/-- A pattern in quotes that holds a slash is printed with a backslash before it. -/
theorem compile_printed_pattern_quoted :
    let path : FieldPath := ⟨["path"], by decide, by decide⟩
    compile "IF GET leads WHEN path NOT MATCHES \"a/b\" THEN DELETE" =
        .ok [⟨"leads", [.get], some [.fits path slashed true], [.delete], 1⟩] ∧
      ∃ again q, compile ("IF GET x WHEN " ++ (Clause.fits path slashed true).text ++ " THEN END") =
          .ok [again] ∧ again.condition = some [.fits path q true] ∧ q.source = "a/b" := by
  intro path
  have hcompile : compile "IF GET leads WHEN path NOT MATCHES \"a/b\" THEN DELETE" =
      .ok [⟨"leads", [.get], some [.fits path slashed true], [.delete], 1⟩] := by
    with_unfolding_all rfl
  have hslashed : Slashed slashed.source.toList :=
    .plain (by decide) (by decide) (.plain (by decide) (by decide)
      (.plain (by decide) (by decide) .nil))
  exact ⟨hcompile, (compile_printed_pattern hcompile List.mem_cons_self rfl
    List.mem_cons_self).mpr ⟨by decide, hslashed⟩⟩

/-- A pattern with a backslash before a slash, which a string holds if the backslash is doubled. -/
def escaped : Pattern where
  source := "a\\/b"
  node := .seq (.one (.single 'a')) (.seq (.one (.single '/')) (.seq (.one (.single 'b')) .empty))
  reads := by with_unfolding_all rfl

/-- Printed between slashes, the backslash has another one after it, and the slash ends the
pattern. -/
theorem escaped_not_compiled :
    let url : FieldPath := ⟨["url"], by decide, by decide⟩
    compile "IF GET x WHEN url MATCHES \"a\\\\/b\" THEN END" =
        .ok [⟨"x", [.get], some [.fits url escaped false], [.stop], 1⟩] ∧
      (Clause.fits url escaped false).text = "url MATCHES /a\\\\/b/" ∧
      ¬∃ again q,
        compile ("IF GET x WHEN " ++ (Clause.fits url escaped false).text ++ " THEN END") =
          .ok [again] ∧ again.condition = some [.fits url q false] ∧ q.source = escaped.source := by
  intro url
  have hfails : (compile ("IF GET x WHEN " ++ (Clause.fits url escaped false).text ++
      " THEN END")).isOk = false := by
    decide +kernel
  refine ⟨by with_unfolding_all rfl, by decide +kernel, ?_⟩
  rintro ⟨again, q, hagain, -⟩
  rw [hagain] at hfails
  cases hfails

end Rule

end Bylaw
