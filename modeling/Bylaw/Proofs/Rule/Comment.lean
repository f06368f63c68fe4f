import Bylaw.Proofs.Rule.Recompiling

/-! Empty patterns whose slashes begin a comment. Main statement: the lines of rules that hold one
do not compile, if the comment reaches the end of its rule. -/

namespace Bylaw

open Token

namespace Token

variable {rest more : List Char}

theorem tokens_slashes (h : dropLine rest = some more) (afterMatches : Bool) :
    tokens afterMatches ('/' :: '/' :: rest) = tokens afterMatches more := by
  have hcomment : dropComment ('/' :: '/' :: rest) = some more := h
  refine tokens_congr ?_ afterMatches
  rw [skipTrivia, if_neg (by decide)]
  split
  · rename_i after heq
    rw [hcomment] at heq
    rw [Option.some.inj heq]
  · rename_i heq
    rw [hcomment] at heq
    cases heq

end Token

namespace Rule

variable {rest more : List Char}

/-- The word `MATCHES`, after which a pattern may stand. -/
theorem tokens_word_matches (rest : List Char) :
    Token.tokens false ("MATCHES ".toList ++ rest) =
      (Token.tokens true rest).map (.word "MATCHES" :: ·) := by
  have htext : "MATCHES ".toList ++ rest = "MATCHES".toList ++ ' ' :: rest := by simp
  rw [htext, tokens_word rfl (stops_cons _ rfl)]
  show (Token.tokens true (' ' :: rest)).map _ = _
  rw [tokens_blank rfl]

/-- The word `MATCHES` in front of a comment: the pattern is looked for on the next line. -/
theorem tokens_matches (h : dropLine rest = some more) :
    Token.tokens false ("MATCHES ".toList ++ '/' :: '/' :: rest) =
      (Token.tokens true more).map (.word "MATCHES" :: ·) := by
  rw [tokens_word_matches, tokens_slashes h]

/-- The tokens of a rule after its first word, up to the pattern of a clause. -/
def cutTokens (rule : Rule) (before : List Clause) (field : FieldPath) (negated : Bool) :
    List Token :=
  [.symbol .pipe].intercalate (rule.events.map fun e => [.word e.tag]) ++
    entityToken rule.entity :: .word "WHEN" :: (Clause.earlierTokens before ++
      .word field.text :: (Clause.notTokens negated ++ [.word "MATCHES"]))

section

variable {rule : Rule} {before after : List Clause} {field : FieldPath} {p : Pattern}
  {negated : Bool}

theorem spells_field {field : FieldPath} (hf : field.IsOperand) (negated : Bool)
    (rest : List Char) :
    Spells (field.text.toList ++ ' ' :: (Clause.notText negated).toList)
      (.word field.text :: Clause.notTokens negated) rest :=
  (hf.toIsTarget.spells (stops_blank _)).append (Clause.spells_not negated rest).blank_cons

theorem tokens_cut (hp : rule.IsProper isWritable) (ho : rule.IsOrdinary)
    (hc : rule.condition = some (before ++ .fits field p negated :: after)) (hempty : p.source = "")
    (hfirst : ∀ b d a, before = b ++ d :: a → ∀ q ∈ d.pattern?, q.source = "" →
      (Clause.sources (a ++ .fits field p negated :: after)).find? endsLine = some '\r')
    (hdrop : dropLine (Clause.laterText after ++ (rule.tailText ++ rest)) = some more) :
    Token.tokens false (rule.text.toList ++ rest) =
      (Token.tokens true more).map (.word "IF" :: cutTokens rule before field negated ++ ·) := by
  have hproper : ∀ c ∈ before ++ .fits field p negated :: after, c.IsProper isWritable :=
    (hp.condition _ hc).2
  have hfield : field.IsOperand :=
    (hproper (.fits field p negated) (List.mem_append_right _ List.mem_cons_self)).1
  obtain ⟨follows, hfollows⟩ : ∃ cs, cs = "MATCHES ".toList ++
    '/' :: '/' :: (Clause.laterText after ++ (rule.tailText ++ rest)) := ⟨_, rfl⟩
  have hclause : (Clause.fits field p negated).text.toList ++
      (Clause.laterText after ++ (rule.tailText ++ rest)) =
        field.text.toList ++ ' ' :: (Clause.notText negated).toList ++ follows := by
    simp [hfollows, Clause.text_fits, Clause.leadText, hempty, slashText]
  -- The clauses before the test are read as written: none of their patterns is a comment.
  have hearlier : Spells (Clause.earlierText before) (Clause.earlierTokens before)
      (field.text.toList ++ ' ' :: (Clause.notText negated).toList ++ follows) := by
    rw [← hclause]
    refine spells_earlier (fun d hd => hproper d (List.mem_append_left _ hd)) ?_
    intro b d a hs q hq hq'
    refine Clause.dropLine_laterText (fun e he => hproper e ?_) (hfirst b d a hs q hq hq') _
    rw [hs, List.append_assoc]
    exact List.mem_append_right b (List.mem_cons_of_mem d he)
  have hspells := (spells_head ho (stops_blank _)).append
    ((spells_when _).append (hearlier.append (spells_field hfield negated follows)))
  have htext : rule.text.toList ++ rest = rule.headText ++ (" WHEN ".toList ++
      (Clause.earlierText before ++
        (field.text.toList ++ ' ' :: (Clause.notText negated).toList))) ++ follows := by
    simp [text_eq, hc, conditionText_middle, hfollows, Clause.text_fits, Clause.leadText, hempty,
      slashText]
  rw [htext, hspells, hfollows, tokens_matches hdrop]
  cases Token.tokens true more with
  | error e => rfl
  | ok ts =>
    show Except.ok _ = Except.ok _
    simp [cutTokens]

theorem unbroken_tailText (hp : rule.IsProper isWritable) (ho : rule.IsOrdinary) :
    Unbroken rule.tailText := by
  have hthen : Unbroken " THEN".toList := Unbroken.cons rfl (unbroken_of_isWord (w := "THEN") rfl)
  have hactions : ∀ s ∈ rule.actions.map Action.text, Unbroken s.toList := by
    intro s hs
    obtain ⟨a, ha, rfl⟩ := List.mem_map.mp hs
    exact Action.unbroken_text (hp.actions a ha) (ho.actions a ha)
  refine hthen.append ?_
  unfold actionsText
  split
  · exact Unbroken.nil
  · rw [String.toList_append]
    exact Unbroken.cons rfl (unbroken_joinWith unbroken_comma hactions)

/-- What is read of a statement that ends after the word `MATCHES`. -/
theorem clauseAt_cut (hf : field.IsOperand) (negated : Bool) :
    ∃ e, clauseAt (.word field.text :: (Clause.notTokens negated ++ [.word "MATCHES"])) =
      .error e := by
  have hpattern : fieldTest field negated "MATCHES" [] =
      (patternAt (.word "MATCHES") []).map fun read => (.fits field read.1 negated, read.2) := rfl
  cases hread : patternAt (.word "MATCHES") [] with
  | error e =>
    refine ⟨e, ?_⟩
    rw [clauseAt_field hf negated rfl, hpattern, hread]
    rfl
  | ok r => cases hread

theorem earlierTokens_cons (d : Clause) (before : List Clause) (ts : List Token) :
    Clause.earlierTokens (d :: before) ++ ts =
      d.tokens ++ .word "AND" :: (Clause.earlierTokens before ++ ts) := by
  simp [Clause.earlierTokens]

theorem moreClauses_cut (hc : ∀ d ∈ before, d.IsProper isWritable) {ts : List Token}
    {e : Rejection} (h : clauseAt ts = .error e) :
    moreClauses (.word "AND" :: (Clause.earlierTokens before ++ ts)) = .error e := by
  induction before with
  | nil =>
    rw [moreClauses, afterKeyword?, if_pos rfl]
    simp only [Clause.earlierTokens, List.flatMap_nil, List.nil_append, h]
  | cons d before ih =>
    rw [moreClauses, afterKeyword?, if_pos rfl, earlierTokens_cons]
    simp only [clauseAt_tokens (hc d List.mem_cons_self) (noOffset_word _ _)]
    rw [dif_pos (by simp only [List.length_cons, List.length_append]; omega),
      ih fun c hd => hc c (List.mem_cons_of_mem d hd)]
    rfl

theorem conditionAt_cut (hc : ∀ d ∈ before, d.IsProper isWritable) {ts : List Token}
    {e : Rejection} (h : clauseAt ts = .error e) :
    conditionAt (Clause.earlierTokens before ++ ts) = .error e := by
  cases before with
  | nil =>
    rw [Clause.earlierTokens, List.flatMap_nil, List.nil_append, conditionAt, h]
    rfl
  | cons d before =>
    rw [earlierTokens_cons, conditionAt, clauseAt_tokens (hc d List.mem_cons_self)
      (noOffset_word _ _), ok_bind]
    simp only [moreClauses_cut (fun c hd => hc c (List.mem_cons_of_mem d hd)) h]
    rfl

theorem statement_cut (hp : rule.IsProper isWritable) (ho : rule.IsOrdinary)
    (hc : rule.condition = some (before ++ .fits field p negated :: after)) (line : Nat)
    (r : Rule) :
    statement line (.word "IF" :: cutTokens rule before field negated) ≠ .ok r := by
  have hproper : ∀ c ∈ before ++ .fits field p negated :: after, c.IsProper isWritable :=
    (hp.condition _ hc).2
  have hfield : field.IsOperand :=
    (hproper (.fits field p negated) (List.mem_append_right _ List.mem_cons_self)).1
  obtain ⟨e, he⟩ := clauseAt_cut hfield negated
  have hcondition := conditionAt_cut (fun d hd => hproper d (List.mem_append_left _ hd)) he
  rw [cutTokens, statement_head hp ho.entity line (by decide)]
  simp [afterKeyword?, hcondition]

theorem all_cut (hp : rule.IsProper isWritable) (ho : rule.IsOrdinary)
    (hc : rule.condition = some (before ++ .fits field p negated :: after)) :
    (cutTokens rule before field negated).all isInner = true := by
  have hbody := all_body hp ho
  have hfits : (Clause.fits field p negated).tokens =
      .word field.text :: (Clause.notTokens negated ++ [.word "MATCHES"]) ++
        [.pattern p.source] := by
    simp [Clause.tokens]
  rw [body, hc, conditionTokens_middle, hfits] at hbody
  rw [cutTokens]
  simp only [List.all_append, List.all_cons, Bool.and_eq_true] at hbody ⊢
  tauto

end

/-- What a statement is collected from next. -/
theorem statementsFrom_subset (current : List Placed) (q : Placed) (placed : List Placed) :
    ∃ next, ∀ st ∈ statementsFrom next placed, st ∈ statementsFrom current (q :: placed) := by
  rw [statementsFrom]
  split
  · split
    · exact ⟨[], fun st h => h⟩
    · exact ⟨[], fun st h => List.mem_cons_of_mem _ h⟩
  split
  · exact ⟨[q], fun st h => List.mem_cons_of_mem _ h⟩
  · exact ⟨q :: current, fun st h => h⟩

theorem mem_statementsFrom {pre inner more : List Token} (hinner : inner.all isInner = true)
    (hmore : more = [] ∨ ∃ us, more = .word "IF" :: us) {current placed : List Placed}
    (h : placed.map Placed.token = pre ++ .word "IF" :: (inner ++ more)) :
    .word "IF" :: inner ∈ (statementsFrom current placed).map (·.map Placed.token) := by
  -- What stands in front is collected in some way or other; only the word `IF` matters.
  induction pre generalizing current placed with
  | nil =>
    obtain ⟨q, others, rfl, hq, hothers⟩ := List.map_eq_cons_iff.mp h
    obtain ⟨first, last, rfl, hfirst, hlast⟩ := List.map_eq_append_iff.mp hothers
    have hcollected : .word "IF" :: inner ∈
        (statementsFrom [q] (first ++ last)).map (·.map Placed.token) := by
      rw [statementsFrom_append (List.cons_ne_nil q []) (hfirst ▸ hinner)]
      rcases hmore with rfl | ⟨us, rfl⟩
      · obtain rfl : last = [] := by simpa using hlast
        simp [statementsFrom, hq, hfirst]
      · obtain ⟨r, later, rfl, hr, -⟩ := List.map_eq_cons_iff.mp hlast
        simp [statementsFrom, hr, hq, hfirst]
    rw [statementsFrom, hq]
    split
    · rename_i heq
      cases heq
    split
    · exact List.mem_cons_of_mem _ hcollected
    · rename_i hcurrent
      obtain rfl : current = [] := by simpa using hcurrent
      exact hcollected
  | cons t pre ih =>
    obtain ⟨q, others, rfl, -, hothers⟩ := List.map_eq_cons_iff.mp h
    obtain ⟨next, hnext⟩ := statementsFrom_subset current q others
    obtain ⟨st, hst, heq⟩ : ∃ st ∈ statementsFrom next others,
        st.map Placed.token = .word "IF" :: inner := List.mem_map.mp (ih hothers)
    exact List.mem_map.mpr ⟨st, hnext st hst, heq⟩

theorem ofStatement_of_mem {source : List Char} {sts : List (List Placed)} {rules : List Rule}
    (h : ofStatements source sts = .ok rules) {st : List Placed} (hst : st ∈ sts) :
    ∃ rule, ofStatement source st = .ok rule := by
  induction sts generalizing rules with
  | nil => cases hst
  | cons first sts ih =>
    rw [ofStatements] at h
    split at h
    · cases h
    · rename_i rule hrule
      split at h
      · rename_i others hothers
        rcases List.mem_cons.mp hst with rfl | hst
        · exact ⟨rule, hrule⟩
        · exact ih hothers hst
      · cases h

theorem exists_first {α : Type} {P : α → List α → Prop} {items : List α}
    (h : ∃ before x after, items = before ++ x :: after ∧ ¬ P x after) :
    ∃ before x after, items = before ++ x :: after ∧ ¬ P x after ∧
      ∀ b y a, before = b ++ y :: a → P y (a ++ x :: after) := by
  induction items with
  | nil =>
    obtain ⟨before, x, after, heq, -⟩ := h
    simp at heq
  | cons first items ih =>
    -- If the first item has the property, the one looked for is among the others.
    by_cases hfirst : P first items
    · have hmore : ∃ before x after, items = before ++ x :: after ∧ ¬ P x after := by
        obtain ⟨before, x, after, heq, hx⟩ := h
        cases before with
        | nil =>
          obtain ⟨rfl, rfl⟩ := List.cons.inj heq
          exact absurd hfirst hx
        | cons y before => exact ⟨before, x, after, (List.cons.inj heq).2, hx⟩
      obtain ⟨before, x, after, rfl, hx, hbefore⟩ := ih hmore
      refine ⟨first :: before, x, after, rfl, hx, ?_⟩
      intro b y a heq
      cases b with
      | nil =>
        obtain ⟨rfl, rfl⟩ := List.cons.inj heq
        exact hfirst
      | cons z b => exact hbefore b y a (List.cons.inj heq).2
    · refine ⟨[], first, items, rfl, hfirst, ?_⟩
      intro b y a heq
      simp at heq

/-- The first empty pattern of a rule whose slashes begin a comment. -/
theorem exists_comment {rule : Rule} (h : ¬ rule.IsShielded) :
    ∃ before field p negated after,
      rule.condition = some (before ++ .fits field p negated :: after) ∧ p.source = "" ∧
        (Clause.sources after).find? endsLine ≠ some '\r' ∧
        ∀ b d a, before = b ++ d :: a → ∀ q ∈ d.pattern?, q.source = "" →
          (Clause.sources (a ++ .fits field p negated :: after)).find? endsLine = some '\r' := by
  simp only [IsShielded, not_forall] at h
  obtain ⟨before, p, after, hpatterns, hempty, hends⟩ := h
  cases hcondition : rule.condition with
  | none =>
    rw [patterns, hcondition] at hpatterns
    simp at hpatterns
  | some clauses =>
    rw [patterns, hcondition] at hpatterns
    obtain ⟨earlier, later, hclauses, -, hlater⟩ := List.filterMap_eq_append_iff.mp hpatterns
    obtain ⟨skipped, c, after', rfl, -, hc, rfl⟩ := List.filterMap_eq_cons_iff.mp hlater
    have hsome : ∃ before c after, clauses = before ++ c :: after ∧
        ¬ ∀ q ∈ c.pattern?, q.source = "" →
          (Clause.sources after).find? endsLine = some '\r' := by
      refine ⟨earlier ++ skipped, c, after', ?_, ?_⟩
      · rw [List.append_assoc]
        exact hclauses
      · intro hall
        exact hends (hall p hc hempty)
    -- Of the clauses that are not shielded, the first.
    obtain ⟨before, c, after, rfl, hc, hfirst⟩ := exists_first hsome
    simp only [not_forall] at hc
    obtain ⟨q, hq, hempty, hends⟩ := hc
    cases c with
    | fits field p negated =>
      obtain rfl := Option.some.inj hq
      exact ⟨before, field, p, negated, after, rfl, hempty, hends, hfirst⟩
    | compare _ _ _ => cases hq
    | present _ _ => cases hq
    | contains _ _ _ => cases hq

theorem dropLine_laterLines (rules : List Rule) :
    dropLine (laterLines rules) = some (laterLines rules) := by
  cases rules <;> rfl

theorem tokens_laterLines {rules : List Rule} {afterMatches : Bool} {ts : List Token}
    (h : Token.tokens afterMatches (laterLines rules) = .ok ts) :
    ts = [] ∨ ∃ us, ts = .word "IF" :: us := by
  cases rules with
  | nil =>
    rw [laterLines, List.flatMap_nil, tokens_of_skipTrivia_nil skipTrivia.eq_1] at h
    exact .inl (Except.ok.inj h).symm
  | cons rule rules =>
    obtain ⟨more, hmore⟩ : ∃ more, rule.text.toList = "IF".toList ++ ' ' :: more := by
      rw [text_eq, headText]
      exact ⟨_, rfl⟩
    have htext : laterLines (rule :: rules) =
        '\n' :: ("IF".toList ++ ' ' :: (more ++ laterLines rules)) := by
      simp [laterLines, hmore]
    rw [htext, tokens_blank rfl, tokens_word rfl (stops_blank _)] at h
    obtain ⟨us, -, rfl⟩ := map_eq_ok.mp h
    exact .inr ⟨us, rfl⟩

/-- If the slashes of an empty pattern begin a comment, and all such comments reach the end of their
rule, the lines of the rules do not compile. -/
theorem not_compiles {rules : List Rule} (hp : ∀ r ∈ rules, r.IsProper isWritable)
    (ho : ∀ r ∈ rules, r.IsOrdinary) (hreach : ∀ r ∈ rules, r.CommentsReachEnd)
    (hs : ¬ ∀ r ∈ rules, r.IsShielded) (again : List Rule) :
    compile (joinWith "\n" (rules.map text)) ≠ .ok again := by
  intro h
  have hsome : ∃ before rule after, rules = before ++ rule :: after ∧ ¬ rule.IsShielded := by
    simp only [not_forall] at hs
    obtain ⟨rule, hr, hrule⟩ := hs
    obtain ⟨before, after, rfl⟩ := List.append_of_mem hr
    exact ⟨before, rule, after, rfl, hrule⟩
  obtain ⟨good, rule, others, rfl, hrule, hgood⟩ := exists_first hsome
  have hmem : rule ∈ good ++ rule :: others := List.mem_append_right good List.mem_cons_self
  obtain ⟨before, field, p, negated, after, hcondition, hempty, hends, hfirst⟩ :=
    exists_comment hrule
  have hafter : ∀ c ∈ after, c.IsProper isWritable := fun c hc =>
    ((hp rule hmem).condition _ hcondition).2 c
      (List.mem_append_right before (List.mem_cons_of_mem _ hc))
  -- The line of the comment ends with the rule.
  have hnone : (Clause.sources after).find? endsLine = none := by
    cases hfind : (Clause.sources after).find? endsLine with
    | none => rfl
    | some c =>
      have hc := List.find?_some hfind
      simp only [endsLine, Bool.or_eq_true, beq_iff_eq] at hc
      rcases hc with rfl | rfl
      · exact absurd hfind hends
      · exact absurd hfind (hreach rule hmem _ p _ (patterns_middle hcondition rfl) hempty)
  have hdrop : dropLine (Clause.laterText after ++ (rule.tailText ++ laterLines others)) =
      some (laterLines others) := by
    rw [dropLine_append (Clause.unbroken_laterText hafter hnone),
      dropLine_append (unbroken_tailText (hp rule hmem) (ho rule hmem)), dropLine_laterLines]
  have htokens := spells_earlierLines (fun r hr => hp r (List.mem_append_left _ hr))
    (fun r hr => ho r (List.mem_append_left _ hr)) (fun r hr => by
      obtain ⟨b, a, hsplit⟩ := List.append_of_mem hr
      exact hgood b r a hsplit) (rule.text.toList ++ laterLines others)
  rw [Spells, ← joinLines_middle,
    tokens_cut (hp rule hmem) (ho rule hmem) hcondition hempty hfirst hdrop] at htokens
  rw [compile] at h
  split at h
  · cases h
  · rename_i placed hplaced
    obtain ⟨us, hus, hall⟩ := map_eq_ok.mp (htokens.symm.trans (tokens_of_tokenize hplaced))
    obtain ⟨ts, hts, rfl⟩ := map_eq_ok.mp hus
    obtain ⟨st, hst, hcut⟩ : ∃ st ∈ statements placed,
        st.map Placed.token = .word "IF" :: cutTokens rule before field negated := by
      have hplaces : placed.map Placed.token = good.flatMap tokens ++
          .word "IF" :: (cutTokens rule before field negated ++ ts) := by
        rw [← hall, List.cons_append]
      exact List.mem_map.mp (mem_statementsFrom (all_cut (hp rule hmem) (ho rule hmem) hcondition)
        (tokens_laterLines hts) hplaces)
    obtain ⟨r, hr⟩ := ofStatement_of_mem h hst
    rw [ofStatement, hcut] at hr
    split at hr
    · rename_i hread
      exact statement_cut (hp rule hmem) (ho rule hmem) hcondition _ _ hread
    · cases hr

end Rule

end Bylaw
