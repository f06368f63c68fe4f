import Bylaw.Proofs.Rule.Comment
import Bylaw.Proofs.Rule.Seam
import Bylaw.Proofs.Text.Splitting

/-! The statements of tokens, and what becomes of them further down. Main statement: statements that
stand below other text are the same rules, or are rejected for the same reason, so many lines
further down. -/

namespace Bylaw

open Token

namespace Rule

/-- A rule so many lines further down. -/
def down (lines : Nat) (rule : Rule) : Rule := { rule with line := rule.line + lines }

/-- The outcome of compiling a text that stands so many lines below the text of other rules. -/
def below (rules : List Rule) (lines : Nat) :
    Except CompileError (List Rule) → Except CompileError (List Rule)
  | .ok more => .ok (rules ++ more.map (down lines))
  | .error e => .error { e with line := e.line + lines }

theorem actions_down (entity : String) (events : List Event) (condition : Option (List Clause))
    (line lines : Nat) (ending : List Token) :
    (match afterKeyword? "THEN" ending with
      | none => rejectExpected "WHEN or THEN" ending
      | some rest => do
        let actions ← actionsAt rest
        pure ⟨entity, events, condition, actions, line + lines⟩) =
    (match afterKeyword? "THEN" ending with
      | none => rejectExpected "WHEN or THEN" ending
      | some rest => do
        let actions ← actionsAt rest
        pure (Rule.mk entity events condition actions line)).map (down lines) := by
  cases afterKeyword? "THEN" ending with
  | none => rfl
  | some rest =>
    simp only
    cases actionsAt rest <;> rfl

theorem statement_down (line lines : Nat) (ts : List Token) :
    statement (line + lines) ts = (statement line ts).map (down lines) := by
  unfold statement
  -- No reader asks for the line; it is handed through to the rule.
  cases expectKeyword "IF" ts with
  | error e => rfl
  | ok rest =>
    simp only [ok_bind]
    cases eventAt (.word "IF") rest with
    | error e => rfl
    | ok first =>
      simp only [ok_bind]
      cases moreEvents first.rest with
      | error e => rfl
      | ok more =>
        simp only [ok_bind]
        cases entityAt more.2 with
        | error e => rfl
        | ok entity =>
          simp only [ok_bind]
          cases afterKeyword? "WHEN" entity.2 with
          | none => exact actions_down _ _ none line lines entity.2
          | some rest =>
            simp only
            cases conditionAt rest with
            | error e => rfl
            | ok condition => exact actions_down _ _ (some condition.1) line lines condition.2

/-- The statements of tokens before others that open a statement. -/
theorem statementsFrom_opening {more : List Placed}
    (hmore : more = [] ∨ ∃ p rest, more = p :: rest ∧ p.token = .word "IF")
    (current placed : List Placed) :
    statementsFrom current (placed ++ more) =
      statementsFrom current placed ++ statementsFrom [] more := by
  induction placed generalizing current with
  | nil =>
    rcases hmore with rfl | ⟨p, rest, rfl, hp⟩
    · simp [statementsFrom]
    · cases current with
      | nil => simp [statementsFrom]
      | cons q current => simp [statementsFrom, hp]
  | cons p placed ih =>
    rw [List.cons_append, statementsFrom, statementsFrom]
    split
    · split
      · exact ih []
      · rw [ih, List.cons_append]
    split
    · rw [ih, List.cons_append]
    · exact ih (p :: current)

theorem statementsFrom_map {f : Placed → Placed} (hf : ∀ p, (f p).token = p.token)
    (current placed : List Placed) :
    statementsFrom (current.map f) (placed.map f) =
      (statementsFrom current placed).map (·.map f) := by
  induction placed generalizing current with
  | nil => cases current <;> simp [statementsFrom]
  | cons p placed ih =>
    have hnil := ih []
    have hone := ih [p]
    have hmore := ih (p :: current)
    simp only [List.map_cons, List.map_nil] at hnil hone hmore
    have hempty : (current.map f).isEmpty = current.isEmpty := by cases current <;> rfl
    rw [List.map_cons, statementsFrom, statementsFrom, hf, hempty]
    split
    · split
      · exact hnil
      · rw [hnil, List.map_cons, List.map_reverse]
    split
    · rw [hone, List.map_cons, List.map_reverse]
    · exact hmore

theorem ne_nil_of_mem_statementsFrom {current placed st : List Placed}
    (h : st ∈ statementsFrom current placed) : st ≠ [] := by
  induction placed generalizing current with
  | nil =>
    rw [statementsFrom] at h
    split at h
    · cases h
    · rename_i hne
      obtain rfl := List.mem_singleton.mp h
      simpa using hne
  | cons p placed ih =>
    have hfirst (hne : ¬current.isEmpty = true) {sts : List (List Placed)}
        (hsts : st ∈ sts → st ≠ []) (h : st ∈ current.reverse :: sts) : st ≠ [] := by
      rcases List.mem_cons.mp h with rfl | h
      · simpa using hne
      · exact hsts h
    rw [statementsFrom] at h
    split at h
    · split at h
      · exact ih h
      · exact hfirst ‹_› ih h
    split at h
    · rename_i hif
      exact hfirst (by simpa using hif.2) ih h
    · exact ih h

theorem ofStatements_append (source : List Char) (sts more : List (List Placed)) :
    ofStatements source (sts ++ more) =
      match ofStatements source sts with
      | .error e => .error e
      | .ok rules => (ofStatements source more).map (rules ++ ·) := by
  induction sts with
  | nil =>
    simp only [ofStatements, List.nil_append]
    cases ofStatements source more <;> rfl
  | cons st sts ih =>
    rw [List.cons_append, ofStatements, ofStatements, ih]
    cases ofStatement source st with
    | error e => rfl
    | ok rule =>
      simp only
      cases ofStatements source sts with
      | error e => rfl
      | ok rules =>
        simp only
        cases ofStatements source more <;> rfl

/-- Rules do not depend on the text around their tokens. -/
theorem ofStatements_source {source : List Char} {sts : List (List Placed)} {rules : List Rule}
    (h : ofStatements source sts = .ok rules) (other : List Char) :
    ofStatements other sts = .ok rules := by
  induction sts generalizing rules with
  | nil => exact h
  | cons st sts ih =>
    rw [ofStatements] at h ⊢
    split at h
    · cases h
    · rename_i rule hrule
      have hother : ofStatement other st = .ok rule := by
        unfold ofStatement at hrule ⊢
        split at hrule
        · exact hrule
        · cases hrule
      split at h
      · rename_i others hothers
        rw [hother, ih hothers]
        exact h
      · cases h

theorem rejectionLine_mem {st : List Placed} (hne : st ≠ []) (remaining : Nat) :
    ∃ p ∈ st, rejectionLine st remaining = p.line := by
  unfold rejectionLine
  split
  · rename_i p hp
    exact ⟨p, List.mem_of_getElem? hp, rfl⟩
  · exact ⟨st.getLast hne, List.getLast_mem hne, by simp [List.getLast?_eq_some_getLast hne]⟩

/-- The line of an error is that of a token. -/
theorem line_of_ofStatements {source : List Char} {sts : List (List Placed)} {e : CompileError}
    (h : ofStatements source sts = .error e) (hne : ∀ st ∈ sts, st ≠ []) :
    ∃ st ∈ sts, ∃ p ∈ st, e.line = p.line := by
  induction sts with
  | nil => cases h
  | cons st sts ih =>
    rw [ofStatements] at h
    split at h
    · rename_i e' he
      obtain rfl := Except.error.inj h
      unfold ofStatement at he
      split at he
      · cases he
      · obtain rfl := Except.error.inj he
        obtain ⟨p, hp, hline⟩ := rejectionLine_mem (hne st List.mem_cons_self) _
        exact ⟨st, List.mem_cons_self, p, hp, hline⟩
    · split at h
      · cases h
      · rename_i e' he
        obtain rfl := Except.error.inj h
        obtain ⟨other, hother, hp⟩ := ih he fun st hst => hne st (List.mem_cons_of_mem _ hst)
        exact ⟨other, List.mem_cons_of_mem st hother, hp⟩

theorem slice_shift (front cs : List Char) (start stop : Nat) :
    slice (front ++ cs) (start + front.length) (stop + front.length) = slice cs start stop := by
  rw [slice, slice, Nat.add_sub_add_right, Nat.add_comm start, ← List.drop_drop, List.drop_left]

theorem statementText_shift (front cs : List Char) (lines : Nat) (st : List Placed) :
    statementText (front ++ cs) (st.map (Placed.shift front.length lines)) =
      statementText cs st := by
  unfold statementText
  rw [List.head?_map, List.getLast?_map]
  cases st.head? with
  | none => rfl
  | some first =>
    cases st.getLast? with
    | none => rfl
    | some last =>
      have hslice := slice_shift front cs first.start last.stop
      show String.ofList (shorten (Text.collapse (slice (front ++ cs) _ _))) = _
      rw [Placed.shift, Placed.shift, hslice]

theorem rejectionLine_shift (chars lines remaining : Nat) {st : List Placed} (hne : st ≠ []) :
    rejectionLine (st.map (Placed.shift chars lines)) remaining =
      rejectionLine st remaining + lines := by
  unfold rejectionLine
  rw [List.length_map, List.getElem?_map, List.getLast?_map,
    List.getLast?_eq_some_getLast hne]
  cases st[st.length - remaining]? <;> rfl

theorem ofStatement_shift (front cs : List Char) (lines : Nat) {st : List Placed}
    (hne : st ≠ []) :
    ofStatement (front ++ cs) (st.map (Placed.shift front.length lines)) =
      match ofStatement cs st with
      | .ok rule => .ok (down lines rule)
      | .error e => .error { e with line := e.line + lines } := by
  have hline : (((st.map (Placed.shift front.length lines)).head?.map (·.line)).getD 1) =
      ((st.head?.map (·.line)).getD 1) + lines := by
    cases st with
    | nil => exact absurd rfl hne
    | cons p st => rfl
  have htokens : (st.map (Placed.shift front.length lines)).map (·.token) =
      st.map (·.token) := by
    rw [List.map_map]
    rfl
  unfold ofStatement
  rw [hline, htokens, statement_down, statementText_shift]
  cases statement ((st.head?.map (·.line)).getD 1) (st.map (·.token)) with
  | ok rule => rfl
  | error r =>
    simp only [Except.map, rejectionLine_shift _ _ _ hne]

theorem ofStatements_shift (front cs : List Char) (lines : Nat) {sts : List (List Placed)}
    (hne : ∀ st ∈ sts, st ≠ []) :
    ofStatements (front ++ cs) (sts.map (·.map (Placed.shift front.length lines))) =
      below [] lines (ofStatements cs sts) := by
  induction sts with
  | nil => rfl
  | cons st sts ih =>
    rw [List.map_cons, ofStatements, ofStatements,
      ofStatement_shift front cs lines (hne st List.mem_cons_self),
      ih fun st hst => hne st (List.mem_cons_of_mem _ hst)]
    cases ofStatement cs st with
    | error e => rfl
    | ok rule =>
      simp only
      cases ofStatements cs sts <;> rfl

theorem lineText_shift (a b : List Char) {line : Nat} (hline : 1 ≤ line) :
    lineText (a ++ '\n' :: b) (line + (a.count '\n' + 1)) = lineText b line := by
  have hcount : (Text.splitAt (· == '\n') a).length = a.count '\n' + 1 := Text.length_splitAt _ a
  have hindex : line + (a.count '\n' + 1) - 1 - (a.count '\n' + 1) = line - 1 := by omega
  -- The pieces of the first text come first, one more than it has line feeds.
  rw [lineText, Text.splitAt_append (· == '\n') (beq_self_eq_true '\n'),
    List.getElem?_append_right (by omega), hcount, hindex, lineText]

/-- The statement that is being collected is the first, and goes on with the tokens that follow. -/
theorem statementsFrom_first {current : List Placed} (hne : current ≠ []) (placed : List Placed) :
    ∃ tail more, statementsFrom current placed = (current.reverse ++ tail) :: more ∧
      tail <+: placed := by
  have hempty : current.isEmpty = false := by simpa using hne
  induction placed generalizing current with
  | nil => exact ⟨[], [], by simp [statementsFrom, hempty], List.nil_prefix⟩
  | cons p placed ih =>
    rw [statementsFrom, hempty]
    split
    · exact ⟨[], statementsFrom [] placed, by simp, List.nil_prefix⟩
    split
    · exact ⟨[], statementsFrom [p] placed, by simp, List.nil_prefix⟩
    · obtain ⟨tail, more, hmore, hprefix⟩ := ih (List.cons_ne_nil p current) rfl
      exact ⟨p :: tail, more, by simp [hmore], List.cons_prefix_cons.mpr ⟨rfl, hprefix⟩⟩

theorem statements_first {ts us : List Token} {placed : List Placed} (hts : ts.all isInner = true)
    (h : placed.map Placed.token = .word "IF" :: (ts ++ us)) :
    ∃ first more tail, statements placed = first :: more ∧
      first.map Placed.token = .word "IF" :: (ts ++ tail) ∧ tail <+: us := by
  obtain ⟨p, rest, rfl, hp, hrest⟩ := List.map_eq_cons_iff.mp h
  obtain ⟨inner, others, rfl, hinner, hothers⟩ := List.map_eq_append_iff.mp hrest
  have hsemicolon : p.token ≠ .symbol .semicolon := by
    rw [hp]
    decide
  have hcurrent : inner.reverse ++ [p] ≠ [] := by simp
  obtain ⟨tail, more, hmore, hprefix⟩ := statementsFrom_first hcurrent others
  refine ⟨p :: inner ++ tail, more, tail.map Placed.token, ?_, ?_, hothers ▸ hprefix.map _⟩
  · rw [statements, statementsFrom, if_neg hsemicolon, if_neg (by simp),
      statementsFrom_append (List.cons_ne_nil p []) (hinner ▸ hts), hmore]
    simp
  · simp [hp, hinner]

theorem statement_of_ofStatements {source : List Char} {first : List Placed}
    {more : List (List Placed)} {rule : Rule} {rules : List Rule}
    (h : ofStatements source (first :: more) = .ok (rule :: rules)) :
    ∃ line, statement line (first.map Placed.token) = .ok rule := by
  rw [ofStatements] at h
  split at h
  · cases h
  · rename_i read hread
    split at h
    · obtain ⟨rfl, -⟩ := List.cons.inj (Except.ok.inj h)
      rw [ofStatement] at hread
      split at hread
      · rename_i hstatement
        exact ⟨_, Except.ok.inj hread ▸ hstatement⟩
      · cases hread
    · cases h

/-- Tokens that neither begin nor end a statement stand in one. -/
theorem exists_statement {inner others : List Placed} (hne : inner ≠ [])
    (hinner : (inner.map Placed.token).all isInner = true) (current placed : List Placed) :
    ∃ front tail, front ++ (inner ++ tail) ∈ statementsFrom current (placed ++ (inner ++ others)) ∧
      tail <+: others := by
  induction placed generalizing current with
  | nil =>
    obtain ⟨p, rest, rfl⟩ := List.exists_cons_of_ne_nil hne
    rw [List.map_cons, List.all_cons, Bool.and_eq_true] at hinner
    have hsemicolon : p.token ≠ .symbol .semicolon := by
      intro heq
      rw [heq] at hinner
      cases hinner.1
    have hif : ¬(p.token = .word "IF" ∧ !current.isEmpty) := by
      rintro ⟨heq, -⟩
      rw [heq] at hinner
      cases hinner.1
    have hcollect :=
      @statementsFrom_append rest others (p :: current) (List.cons_ne_nil p current) hinner.2
    obtain ⟨tail, more, hmore, hprefix⟩ :=
      @statementsFrom_first (rest.reverse ++ p :: current) (by simp) others
    refine ⟨current.reverse, tail, ?_, hprefix⟩
    rw [List.nil_append, List.cons_append, statementsFrom, if_neg hsemicolon, if_neg hif, hcollect,
      hmore]
    simp
  | cons q placed ih =>
    obtain ⟨next, hnext⟩ := statementsFrom_subset current q (placed ++ (inner ++ others))
    obtain ⟨front, tail, hmem, hprefix⟩ := ih next
    exact ⟨front, tail, hnext _ hmem, hprefix⟩

end Rule

end Bylaw
