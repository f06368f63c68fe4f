import Bylaw.Proofs.Rule.RoundTrip
import Bylaw.Proofs.Rule.Statements
import Bylaw.Proofs.Rule.Stuck

/-! Compiling two texts one after the other. Main statement: the rules are those of both, or the
error is that of the second, each so many lines further down, exactly if the end of the first text
leaves no slashes exposed. -/

namespace Bylaw

open Token

namespace Token

variable {am : Bool} {here : Cursor} {cs : List Char}

/-- Whether a text has no tokens, or the word `IF` is its first. -/
def Opens (cs : List Char) : Prop :=
  skipTrivia cs = [] ∨
    ∃ c rest after, skipTrivia cs = c :: rest ∧ Yields (scan false c rest) (.word "IF") after

/-- Whether a token of a text is exposed. -/
def Exposes (cs : List Char) : Prop :=
  ∃ placed, tokenize cs = .ok placed ∧ ∃ p ∈ placed, Exposed (cs.drop p.start)

/-- Only a carriage return at the end of a text exposes anything. -/
theorem not_exposes (h : cs.getLast? ≠ some '\r') : ¬Exposes cs := by
  rintro ⟨placed, -, p, -, line, -, hdrop⟩
  have hsplit : cs = (cs.take p.start ++ '/' :: '/' :: line) ++ ['\r'] := by
    rw [List.append_assoc, List.cons_append, List.cons_append, ← hdrop, List.take_append_drop]
  rw [hsplit, List.getLast?_concat] at h
  exact h rfl

/-- What comes before makes no difference to a text that opens. -/
theorem Opens.scanFrom_eq (h : Opens cs) (am : Bool) (here : Cursor) :
    scanFrom am here cs = scanFrom false here cs := by
  refine scanFrom_of_ne_slash (fun c hc => ?_) am here
  rintro rfl
  rcases h with hs | ⟨c, rest, after, hs, hscan⟩
  · rw [hs] at hc
    cases hc
  · rw [hs] at hc
    obtain rfl := Option.some.inj hc
    cases (yields_ok.mp hscan).1

theorem Opens.head (h : Opens cs) {placed : List Placed}
    (hplaced : scanFrom false here cs = .ok placed) :
    placed = [] ∨ ∃ p rest, placed = p :: rest ∧ p.token = .word "IF" := by
  cases placed with
  | nil => exact .inl rfl
  | cons p placed =>
    obtain ⟨there, left, hbegins, -⟩ := begins_of_scanFrom hplaced
    obtain ⟨c', rest', hs', hlt, hread⟩ := hbegins.scans
    rcases h with hs | ⟨c, rest, after, hs, hlt', hscan⟩
    · cases hs.symm.trans hs'
    · obtain ⟨rfl, rfl⟩ := List.cons.inj (hs.symm.trans hs')
      have heq := congrArg Reading.value (Except.ok.inj (hread.symm.trans hscan))
      exact .inr ⟨p, placed, rfl, heq⟩

theorem tokenize_line {a b : List Char} {kept lost : List Placed}
    (h : tokenize a = .ok (kept ++ lost)) (hkept : ∀ p ∈ kept, ¬Exposed (a.drop p.start))
    (hlost : ∀ p ∈ lost.head?, Exposed (a.drop p.start)) (hb : Opens b) :
    tokenize (a ++ '\n' :: b) =
      match tokenize b with
      | .ok placed =>
        .ok (kept ++ placed.map (Placed.shift (a.length + 1) (a.count '\n' + 1)))
      | .error e => .error { e with line := e.line + (a.count '\n' + 1) } := by
  have hthere : (⟨0, 1⟩ : Cursor).past (a ++ ['\n']) =
      (⟨0, 1⟩ : Cursor).shift (a.length + 1) (a.count '\n' + 1) := by
    simp [Cursor.past, Cursor.shift]
  rw [tokenize, scanFrom_line h List.drop_zero hkept hlost, hb.scanFrom_eq, hthere, scanFrom_shift,
    ← tokenize]
  cases tokenize b <;> rfl

/-- Lines are counted from one. -/
theorem tokenize_lines (cs : List Char) :
    (∀ placed, tokenize cs = .ok placed → ∀ p ∈ placed, 1 ≤ p.line) ∧
      ∀ e, tokenize cs = .error e → 1 ≤ e.line := by
  -- From line zero on the lines would be one less.
  have hshift := scanFrom_shift 0 1 false ⟨0, 0⟩ cs
  have hstart : (⟨0, 0⟩ : Cursor).shift 0 1 = ⟨0, 1⟩ := rfl
  rw [hstart, ← tokenize] at hshift
  rw [hshift]
  cases scanFrom false ⟨0, 0⟩ cs with
  | error e =>
    constructor
    · rintro _ ⟨⟩
    · rintro _ ⟨⟩
      exact Nat.le_add_left 1 e.line
  | ok placed =>
    constructor
    · rintro _ ⟨⟩ p hp
      obtain ⟨q, -, rfl⟩ := List.mem_map.mp hp
      exact Nat.le_add_left 1 q.line
    · rintro _ ⟨⟩

/-- The tokens from one on are read where the others end. -/
theorem scanFrom_split {source : List Char} {kept lost : List Placed}
    (h : scanFrom am here cs = .ok (kept ++ lost)) (hcs : source.drop here.offset = cs) :
    ∃ there after, scanFrom (patternAfter am kept) there after = .ok lost ∧
      source.drop there.offset = after := by
  induction kept generalizing am here cs with
  | nil => exact ⟨here, cs, h, hcs⟩
  | cons p kept ih =>
    obtain ⟨there, after, hbegins, hafter⟩ := begins_of_scanFrom h
    exact ih hafter (hbegins.drop_stop hcs)

end Token

namespace Rule

theorem Stuck.append_left {ts : List Token} (h : Stuck ts) (us : List Token) :
    Stuck (us ++ ts) := by
  induction us with
  | nil => exact h
  | cons u us ih => exact ih.cons u

theorem not_stuck_of_ofStatements {source : List Char} {sts : List (List Placed)}
    {rules : List Rule} (h : ofStatements source sts = .ok rules) {st : List Placed}
    (hst : st ∈ sts) : ¬Stuck (st.map Placed.token) := by
  obtain ⟨rule, hrule⟩ := ofStatement_of_mem h hst
  unfold ofStatement at hrule
  split at hrule
  · rename_i hread
    exact not_stuck_of_statement hread
  · cases hrule

theorem compile_of_tokenize {source : String} {placed : List Placed}
    (h : tokenize source.toList = .ok placed) :
    compile source = ofStatements source.toList (statements placed) := by
  rw [compile, h]

theorem compile_of_error {source : String} {e : FaultAt}
    (h : tokenize source.toList = .error e) :
    compile source = .error ⟨e.line, lineText source.toList e.line, .token e.fault⟩ := by
  rw [compile, h]

section

variable {a b : String} {rules : List Rule} {kept lost placed : List Placed}
  (htokens : tokenize a.toList = .ok (kept ++ lost))
  (hkept : ∀ p ∈ kept, ¬Exposed (a.toList.drop p.start))
  (hlost : ∀ p ∈ lost.head?, Exposed (a.toList.drop p.start)) (hb : Opens b.toList)

theorem toList_join (a b : String) :
    (a ++ "\n" ++ b).toList = a.toList ++ '\n' :: b.toList := by
  simp

include htokens hkept hlost hb

theorem compile_join_of_error {e : FaultAt} (he : tokenize b.toList = .error e) :
    compile (a ++ "\n" ++ b) = below rules (a.toList.count '\n' + 1) (compile b) := by
  have hjoin := tokenize_line htokens hkept hlost hb
  simp only [he] at hjoin
  rw [← toList_join] at hjoin
  rw [compile_of_error hjoin, compile_of_error he, toList_join,
    lineText_shift _ _ ((tokenize_lines _).2 e he)]
  rfl

/-- The statements of the text in two parts: those of the first, as far as it is kept, and those of
the second. -/
theorem compile_join_of_tokens (hplaced : tokenize b.toList = .ok placed) :
    compile (a ++ "\n" ++ b) =
      match ofStatements (a.toList ++ '\n' :: b.toList) (statements kept) with
      | .error e => .error e
      | .ok kept => below kept (a.toList.count '\n' + 1) (compile b) := by
  have hjoin := tokenize_line htokens hkept hlost hb
  simp only [hplaced] at hjoin
  rw [← toList_join] at hjoin
  -- The text of the second part stands below the first and its line feed.
  have hfront : a.toList ++ '\n' :: b.toList = (a.toList ++ ['\n']) ++ b.toList := by simp
  have hlength : a.toList.length + 1 = (a.toList ++ ['\n']).length := by simp
  have hopening : placed.map (Placed.shift (a.toList.length + 1) (a.toList.count '\n' + 1)) = [] ∨
      ∃ p rest, placed.map (Placed.shift (a.toList.length + 1) (a.toList.count '\n' + 1)) =
        p :: rest ∧ p.token = .word "IF" := by
    rcases hb.head hplaced with rfl | ⟨p, rest, rfl, hp⟩
    · exact .inl rfl
    · exact .inr ⟨_, _, rfl, hp⟩
  have hshifted : statements
      (placed.map (Placed.shift (a.toList.length + 1) (a.toList.count '\n' + 1))) =
        (statements placed).map
          (·.map (Placed.shift (a.toList.length + 1) (a.toList.count '\n' + 1))) :=
    @statementsFrom_map (Placed.shift _ _) (fun p => rfl) [] placed
  have hsecond := ofStatements_shift (a.toList ++ ['\n']) b.toList (a.toList.count '\n' + 1)
    fun st (hst : st ∈ statements placed) => ne_nil_of_mem_statementsFrom hst
  rw [← hfront, ← hlength, ← hshifted] at hsecond
  rw [compile_of_tokenize hjoin, compile_of_tokenize hplaced, toList_join, statements,
    statementsFrom_opening hopening, ofStatements_append, ← statements, ← statements, hsecond]
  cases ofStatements (a.toList ++ '\n' :: b.toList) (statements kept) with
  | error e => rfl
  | ok first =>
    simp only
    cases ofStatements b.toList (statements placed) <;> rfl

end

/-- A text whose tokens are all kept is followed by the rules of the other. -/
theorem compile_join_of_kept {a b : String} {rules : List Rule} {placed : List Placed}
    (ha : compile a = .ok rules) (htokens : tokenize a.toList = .ok placed)
    (hkept : ∀ p ∈ placed, ¬Exposed (a.toList.drop p.start)) (hb : Opens b.toList) :
    compile (a ++ "\n" ++ b) = below rules (a.toList.count '\n' + 1) (compile b) := by
  have hall : tokenize a.toList = .ok (placed ++ []) := by rw [List.append_nil, htokens]
  have hnone : ∀ p ∈ ([] : List Placed).head?, Exposed (a.toList.drop p.start) := by
    intro p hp
    cases hp
  cases hother : tokenize b.toList with
  | error e => exact compile_join_of_error hall hkept hnone hb hother
  | ok others =>
    rw [compile_of_tokenize htokens] at ha
    rw [compile_join_of_tokens hall hkept hnone hb hother, ofStatements_source ha]

theorem exists_matches {placed : List Placed} (h : patternAfter false placed = true) :
    ∃ before k, placed = before ++ [k] ∧ k.token = .word "MATCHES" := by
  rcases List.eq_nil_or_concat placed with rfl | ⟨before, k, hlast⟩
  · cases h
  · rw [List.concat_eq_append] at hlast
    subst hlast
    rw [patternAfter, List.foldl_append, List.foldl_cons, List.foldl_nil] at h
    refine ⟨before, k, rfl, ?_⟩
    unfold allowsPattern at h
    split at h
    · rename_i w hw
      rw [hw, beq_iff_eq.mp h]
    · cases h

/-- Tokens of a statement that is a rule are not stuck, with those that are left of it. -/
theorem exists_not_stuck {source : List Char} {rules : List Rule} {inner others : List Placed}
    (before : List Placed) (hne : inner ≠ []) (hinner : (inner.map Placed.token).all isInner = true)
    (h : ofStatements source (statements (before ++ (inner ++ others))) = .ok rules) :
    ∃ tail, tail <+: others ∧ ¬Stuck ((inner ++ tail).map Placed.token) := by
  obtain ⟨front, tail, hmem, hothers⟩ := @exists_statement inner others hne hinner [] before
  refine ⟨tail, hothers, fun hstuck => not_stuck_of_ofStatements h hmem ?_⟩
  rw [List.map_append]
  exact hstuck.append_left _

/-- In a text that compiles, two slashes are an empty pattern. -/
theorem pattern_of_slashes {source : String} {rules : List Rule} {kept lost : List Placed}
    {p : Placed} (h : compile source = .ok rules)
    (htokens : tokenize source.toList = .ok (kept ++ p :: lost))
    (hp : ['/', '/'] <+: source.toList.drop p.start) :
    patternAfter false kept = true ∧ p.token = .pattern "" := by
  obtain ⟨there, after, hscan, hafter⟩ := scanFrom_split htokens List.drop_zero
  obtain ⟨last, rest, hbegins, -⟩ := begins_of_scanFrom hscan
  obtain ⟨more, hmore⟩ := hp
  have hskip : skipTrivia after = '/' :: '/' :: more :=
    (hbegins.drop_start hafter).symm.trans hmore.symm
  cases hpattern : patternAfter false kept with
  | true =>
    rw [hpattern] at hbegins
    exact ⟨rfl, (hbegins.empty_pattern hskip).1⟩
  | false =>
    -- Slashes that divide would be next to each other.
    rw [hpattern] at hscan
    obtain ⟨htoken, q, others, rfl, hq⟩ := slashes_of_scanFrom hscan hskip
    rw [compile_of_tokenize htokens] at h
    obtain ⟨tail, -, hnot⟩ := @exists_not_stuck _ _ [p, q] others kept (List.cons_ne_nil _ _)
      (by simp [htoken, hq, isInner]) h
    refine absurd ?_ hnot
    simp only [List.map_append, List.map_cons, htoken, hq]
    exact Stuck.doubled _

/-- If a token is lost, a statement is left unfinished: the text fails at one of its own lines. -/
theorem compile_join_of_lost {a b : String} {rules : List Rule} {kept lost placed : List Placed}
    {p : Placed} (ha : compile a = .ok rules)
    (htokens : tokenize a.toList = .ok (kept ++ p :: lost))
    (hkept : ∀ q ∈ kept, ¬Exposed (a.toList.drop q.start))
    (hp : Exposed (a.toList.drop p.start)) (hb : Opens b.toList)
    (hplaced : tokenize b.toList = .ok placed) :
    ∃ e, compile (a ++ "\n" ++ b) = .error e ∧ e.line ≤ a.toList.count '\n' + 1 := by
  obtain ⟨hpattern, -⟩ := pattern_of_slashes ha htokens hp.slashes
  obtain ⟨before, k, rfl, hk⟩ := exists_matches hpattern
  have hlost : ∀ q ∈ (p :: lost).head?, Exposed (a.toList.drop q.start) := by
    rintro q hq
    obtain rfl := Option.some.inj hq
    exact hp
  rw [compile_join_of_tokens htokens hkept hlost hb hplaced]
  cases hread : ofStatements (a.toList ++ '\n' :: b.toList) (statements (before ++ [k])) with
  | ok first =>
    obtain ⟨tail, hnil, hnot⟩ := @exists_not_stuck _ _ [k] [] before
      (List.cons_ne_nil _ _) (by simp [hk, isInner]) hread
    rw [List.prefix_nil.mp hnil, List.append_nil, List.map_singleton, hk] at hnot
    exact absurd (Stuck.unfinished (.inl rfl)) hnot
  | error e =>
    obtain ⟨st, hst, q, hq, hline⟩ :=
      line_of_ofStatements hread fun st hst => ne_nil_of_mem_statementsFrom hst
    have hmem : q ∈ before ++ [k] := (infix_of_mem_statementsFrom hst).subset hq
    have hle := line_le_of_scanFrom htokens q (List.mem_append_left _ hmem)
    refine ⟨e, rfl, ?_⟩
    rw [hline]
    simpa [Cursor.past, Nat.add_comm] using hle

theorem one_le_line_of_compile {source : String} {e : CompileError}
    (h : compile source = .error e) : 1 ≤ e.line := by
  obtain ⟨hplaced, herror⟩ := tokenize_lines source.toList
  cases htokens : tokenize source.toList with
  | error fault =>
    rw [compile_of_error htokens] at h
    rw [← Except.error.inj h]
    exact herror fault htokens
  | ok placed =>
    rw [compile_of_tokenize htokens] at h
    obtain ⟨st, hst, p, hp, heq⟩ :=
      line_of_ofStatements h fun st hst => ne_nil_of_mem_statementsFrom hst
    rw [heq]
    exact hplaced placed htokens p ((infix_of_mem_statementsFrom hst).subset hp)

theorem exists_tokens_of_compile {source : String} {rules : List Rule}
    (h : compile source = .ok rules) : ∃ placed, tokenize source.toList = .ok placed := by
  cases htokens : tokenize source.toList with
  | error e =>
    rw [compile_of_error htokens] at h
    cases h
  | ok placed => exact ⟨placed, rfl⟩

/-- The rules of any text that compiles are such as reading can give. -/
theorem isRead_of_compile {source : String} {rules : List Rule} (h : compile source = .ok rules) :
    ∀ r ∈ rules, r.IsRead fun _ => True := by
  obtain ⟨placed, hplaced⟩ := exists_tokens_of_compile h
  have hany : ReadsPatterns (fun _ => True) (placed.map Placed.token) := fun _ _ _ _ _ => trivial
  exact compile_read h (tokens_of_tokenize hplaced) hany

/-- The first rule of a text is read of the tokens up to the first that begins or ends a
statement. -/
theorem statement_of_compile {source : String} {rule : Rule} {rules : List Rule}
    {inner us : List Token} (h : compile source = .ok (rule :: rules))
    (hinner : inner.all isInner = true)
    (ht : Token.tokens false source.toList = .ok (.word "IF" :: (inner ++ us))) :
    ∃ line tail, statement line (.word "IF" :: (inner ++ tail)) = .ok rule ∧ tail <+: us := by
  obtain ⟨placed, hplaced⟩ := exists_tokens_of_compile h
  have hmap : placed.map Placed.token = .word "IF" :: (inner ++ us) :=
    Except.ok.inj ((tokens_of_tokenize hplaced).symm.trans ht)
  obtain ⟨first, more, tail, hstatements, hfirst, hprefix⟩ := statements_first hinner hmap
  rw [compile_of_tokenize hplaced, hstatements] at h
  obtain ⟨line, hread⟩ := statement_of_ofStatements h
  exact ⟨line, tail, hfirst ▸ hread, hprefix⟩

theorem exists_until {α : Type} (P : α → Prop) (items : List α) :
    ∃ kept lost, items = kept ++ lost ∧ (∀ x ∈ kept, ¬P x) ∧ ∀ x ∈ lost.head?, P x := by
  induction items with
  | nil => exact ⟨[], [], rfl, by simp, by simp⟩
  | cons x items ih =>
    by_cases hx : P x
    · refine ⟨[], x :: items, rfl, by simp, fun y hy => ?_⟩
      rwa [← Option.some.inj hy]
    · obtain ⟨kept, lost, rfl, hkept, hlost⟩ := ih
      exact ⟨x :: kept, lost, rfl, List.forall_mem_cons.mpr ⟨hx, hkept⟩, hlost⟩

/-- The tokens of a text up to the first that is exposed. -/
theorem exists_kept (cs : List Char) (placed : List Placed) :
    ∃ kept lost, placed = kept ++ lost ∧ (∀ p ∈ kept, ¬Exposed (cs.drop p.start)) ∧
      ∀ p ∈ lost.head?, Exposed (cs.drop p.start) :=
  exists_until (fun p => Exposed (cs.drop p.start)) placed

/-- The rules of a text and of another one on the lines after it are those of the first, and those
of the other so many lines further down, and the error of the other is that of both, exactly if the
first text exposes no slashes or the other cannot be split into tokens. Otherwise the whole fails at
a line of the first text. -/
theorem compile_join_exact {a b : String} {rules : List Rule} (ha : compile a = .ok rules)
    (hb : Opens b.toList) :
    let lines := a.toList.count '\n' + 1
    (compile (a ++ "\n" ++ b) = below rules lines (compile b) ↔
        ¬Exposes a.toList ∨ ∃ e, tokenize b.toList = .error e) ∧
      (Exposes a.toList → ∀ placed, tokenize b.toList = .ok placed →
        ∃ e, compile (a ++ "\n" ++ b) = .error e ∧ e.line ≤ lines) := by
  intro lines
  obtain ⟨tokens, htokens⟩ := exists_tokens_of_compile ha
  obtain ⟨kept, lost, rfl, hkept, hlost⟩ := exists_kept a.toList tokens
  have hfails : Exposes a.toList → ∀ placed, tokenize b.toList = .ok placed →
      ∃ e, compile (a ++ "\n" ++ b) = .error e ∧ e.line ≤ lines := by
    rintro ⟨tokens, hread, p, hp, hexposed⟩ placed hplaced
    obtain rfl := Except.ok.inj (htokens.symm.trans hread)
    cases lost with
    | nil =>
      rw [List.append_nil] at hp
      exact absurd hexposed (hkept p hp)
    | cons q lost => exact compile_join_of_lost ha htokens hkept (hlost q rfl) hb hplaced
  refine ⟨⟨fun hjoin => ?_, ?_⟩, hfails⟩
  · by_contra hneither
    obtain ⟨hexposes, htext⟩ := not_or.mp hneither
    cases hplaced : tokenize b.toList with
    | error e => exact htext ⟨e, hplaced⟩
    | ok placed =>
      obtain ⟨e, hfail, hle⟩ := hfails (not_not.mp hexposes) placed hplaced
      rw [hfail] at hjoin
      -- An error of the other text is reported below the lines of the first.
      cases hother : compile b with
      | ok more =>
        rw [hother] at hjoin
        cases hjoin
      | error other =>
        rw [hother] at hjoin
        have hline : e.line = other.line + lines :=
          congrArg CompileError.line (Except.error.inj hjoin)
        have hone := one_le_line_of_compile hother
        omega
  · rintro (hnone | ⟨e, he⟩)
    · refine compile_join_of_kept ha htokens (fun p hp hexposed => hnone ?_) hb
      exact ⟨kept ++ lost, htokens, p, hp, hexposed⟩
    · exact compile_join_of_error htokens hkept hlost hb he

/-- A rule for deletions. -/
def removing : Rule where
  entity := "leads"
  events := [.post]
  condition := none
  actions := [.delete]
  line := 1

theorem removing_opens : Opens "IF POST leads THEN DELETE".toList :=
  .inr ⟨'I', "F POST leads THEN DELETE".toList, " POST leads THEN DELETE".toList,
    by decide +kernel, by decide +kernel, by with_unfolding_all rfl⟩

theorem removing_eq : compile "IF POST leads THEN DELETE" = .ok [removing] := by
  with_unfolding_all rfl

/-- A comment that the end of a text closes is closed by the line feed as well. -/
theorem compile_join_exact_comment :
    compile "IF POST leads THEN DELETE // last" = .ok [removing] ∧
      Opens "IF POST leads THEN DELETE".toList ∧
      compile ("IF POST leads THEN DELETE // last" ++ "\n" ++ "IF POST leads THEN DELETE") =
        .ok [removing, { removing with line := 2 }] := by
  have hcommented : compile "IF POST leads THEN DELETE // last" = .ok [removing] := by
    with_unfolding_all rfl
  refine ⟨hcommented, removing_opens, ?_⟩
  have hjoin := (compile_join_exact hcommented removing_opens).1.mpr
    (.inl (not_exposes (by decide +kernel)))
  rw [hjoin, removing_eq]
  rfl

/-- The slashes of an empty pattern begin a comment once the carriage return at the end of the text
is followed by a line feed. -/
theorem spoiled_not_joined :
    compile "IF GET leads WHEN x MATCHES // THEN DELETE\r" = .ok [spoiled] ∧
      Opens "IF POST leads THEN DELETE".toList ∧
      compile "IF POST leads THEN DELETE" = .ok [removing] ∧
      compile ("IF GET leads WHEN x MATCHES // THEN DELETE\r" ++ "\n" ++
          "IF POST leads THEN DELETE") =
        .error ⟨1, "IF GET leads WHEN x MATCHES",
          .expected "regex after MATCHES" (some (.word "MATCHES"))⟩ := by
  refine ⟨by with_unfolding_all rfl, removing_opens, removing_eq, by with_unfolding_all rfl⟩

end Rule

end Bylaw
