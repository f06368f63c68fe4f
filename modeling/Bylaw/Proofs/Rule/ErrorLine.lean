import Bylaw.Proofs.Rule.Blame
import Bylaw.Proofs.Rule.Compiled
import Bylaw.Proofs.Rule.Statements
import Bylaw.Proofs.Token.Coverage

/-! On which line an error is reported. Main statement: an error about the content of a token is on
its line if it is reported before the token is passed, and on the line of the next token but for a
parenthesis otherwise. -/

namespace Bylaw.Rule

open Token (Placed)

theorem line_of_scanFrom {am : Bool} {front cs : List Char} {placed : List Placed}
    (h : Token.scanFrom am (Token.Cursor.past ⟨0, 1⟩ front) cs = .ok placed) :
    ∀ p ∈ placed, p.line = 1 + ((front ++ cs).take p.start).count '\n' := by
  obtain ⟨_, _, _, hreads, -⟩ := Token.reads_of_scanFrom h
  intro p hp
  obtain ⟨rest, hat⟩ := hreads.isAt_of_mem ⟨front, rfl, rfl⟩ hp
  exact hat.line

/-- The statement in which an error is found comes after rules. -/
theorem ofStatements_eq_error {source : List Char} {sts : List (List Placed)} {e : CompileError}
    (h : ofStatements source sts = .error e) :
    ∃ done st more rules, sts = done ++ st :: more ∧ ofStatements source done = .ok rules ∧
      ofStatement source st = .error e := by
  induction sts with
  | nil => cases h
  | cons st sts ih =>
    rw [ofStatements] at h
    split at h
    · rename_i e' he
      obtain rfl := Except.error.inj h
      exact ⟨[], st, sts, [], rfl, rfl, he⟩
    · rename_i rule hrule
      split at h
      · cases h
      · rename_i e' he
        obtain rfl := Except.error.inj h
        obtain ⟨done, other, more, rules, rfl, hdone, hother⟩ := ih he
        refine ⟨st :: done, other, more, rule :: rules, rfl, ?_, hother⟩
        rw [ofStatements, hrule, hdone]

/-- The line of the token so many places after a token, or if there are not so many, of the last. -/
def lineAfter (lag : Nat) (p : Placed) (after : List Placed) : Nat :=
  (((p :: after)[lag]?).getD ((p :: after).getLast (List.cons_ne_nil p after))).line

theorem rejectionLine_eq_lineAfter (front : List Placed) (p : Placed) {after : List Placed}
    {remaining lag : Nat} (h : remaining + lag = (p :: after).length) :
    rejectionLine (front ++ p :: after) remaining = lineAfter lag p after := by
  have hindex : (front ++ p :: after).length - remaining = front.length + lag := by
    rw [List.length_append]
    omega
  unfold rejectionLine lineAfter
  rw [hindex, List.getElem?_append_right (Nat.le_add_right _ _), Nat.add_sub_cancel_left]
  cases (p :: after)[lag]? with
  | some q => rfl
  | none => simp [List.getLast?_append, List.getLast?_eq_some_getLast (List.cons_ne_nil p after)]

/-- The line of an error about the content of a token. All statements before that of the token are
rules, and reading it ends at that token or so many places after it, as what is wrong with the token
has it. The error is on the line of the token there, and if the statement ends before, on that of
its last token; so it is on the line of the token it is about if that is reported at once. -/
theorem compile_error_line {source : String} {placed : List Placed} {e : CompileError}
    (ht : Token.tokenize source.toList = .ok placed) (h : compile source = .error e)
    (hc : e.fault.isContent = true) :
    ∃ done st more rules, statements placed = done ++ st :: more ∧
      ofStatements source.toList done = .ok rules ∧
      ∃ front before p after lag line remaining, st = front ++ before :: p :: after ∧
        statement line (st.map Placed.token) = .error ⟨e.fault, remaining⟩ ∧
        Blames before.token p.token e.fault lag ∧ remaining + lag = (p :: after).length ∧
        p.line = 1 + (source.toList.take p.start).count '\n' ∧ e.line = lineAfter lag p after ∧
        (lag = 0 → e.line = p.line) := by
  rw [compile, ht] at h
  obtain ⟨done, st, more, rules, hsts, hdone, hst⟩ := ofStatements_eq_error h
  refine ⟨done, st, more, rules, hsts, hdone, ?_⟩
  unfold ofStatement at hst
  split at hst
  · cases hst
  rename_i r hr
  obtain rfl := Except.error.inj hst
  obtain ⟨front, before, t, after, lag, htokens, hblames, hlag⟩ := statement_located _ _ r hr hc
  obtain ⟨pfront, others, rfl, rfl, hothers⟩ := List.map_eq_append_iff.mp htokens
  obtain ⟨pbefore, ending, rfl, rfl, hending⟩ := List.map_eq_cons_iff.mp hothers
  obtain ⟨p, pafter, rfl, rfl, rfl⟩ := List.map_eq_cons_iff.mp hending
  have hremaining : r.remaining + lag = (p :: pafter).length := by simpa using hlag
  have hline := rejectionLine_eq_lineAfter (pfront ++ [pbefore]) p hremaining
  rw [List.append_assoc, List.singleton_append] at hline
  have hmem : p ∈ placed := by
    have hin : pfront ++ pbefore :: p :: pafter ∈ statements placed := by
      rw [hsts]
      simp
    exact (infix_of_mem_statementsFrom hin).subset (by simp)
  have hfeeds := @line_of_scanFrom false [] _ _ ht p hmem
  refine ⟨pfront, pbefore, p, pafter, lag, _, r.remaining, rfl, hr, hblames, hremaining, hfeeds,
    hline, ?_⟩
  rintro rfl
  exact hline

/-- A reference on the second line, which is reported before it is passed. -/
theorem compile_error_line_reference :
    let source := "IF GET x WHEN\na..b\n= 1 THEN END"
    ∃ placed e, Token.tokenize source.toList = .ok placed ∧ compile source = .error e ∧
      e.fault.isContent = true ∧ e.line = 2 ∧
      ∃ done st more rules, statements placed = done ++ st :: more ∧
        ofStatements source.toList done = .ok rules ∧
        ∃ front before p after lag line remaining, st = front ++ before :: p :: after ∧
          statement line (st.map Placed.token) = .error ⟨e.fault, remaining⟩ ∧
          Blames before.token p.token e.fault lag ∧ remaining + lag = (p :: after).length ∧
          p.line = 1 + (source.toList.take p.start).count '\n' ∧ e.line = lineAfter lag p after ∧
          (lag = 0 → e.line = p.line) := by
  intro source
  let placed : List Placed := [⟨.word "IF", 1, 0, 2⟩, ⟨.word "GET", 1, 3, 6⟩, ⟨.word "x", 1, 7, 8⟩,
    ⟨.word "WHEN", 1, 9, 13⟩, ⟨.word "a..b", 2, 14, 18⟩, ⟨.symbol .equal, 3, 19, 20⟩,
    ⟨.number (.ofNat 1), 3, 21, 22⟩, ⟨.word "THEN", 3, 23, 27⟩, ⟨.word "END", 3, 28, 31⟩]
  have htokens : Token.tokenize source.toList = .ok placed := by decide +kernel
  have hcompile : compile source =
      .error ⟨2, statementText source.toList placed, .badField "a..b"⟩ := by
    rw [compile, htokens]
    with_unfolding_all rfl
  exact ⟨_, _, htokens, hcompile, rfl, rfl, compile_error_line htokens hcompile rfl⟩

/-- A word that is no event tag, on the second line. The error is on the third. -/
theorem error_line_wrong :
    let source := "IF\nFETCH\nleads THEN END"
    let tag : Placed := ⟨.word "FETCH", 2, 3, 8⟩
    let placed : List Placed := [⟨.word "IF", 1, 0, 2⟩, tag, ⟨.word "leads", 3, 9, 14⟩,
      ⟨.word "THEN", 3, 15, 19⟩, ⟨.word "END", 3, 20, 23⟩]
    ∃ e, Token.tokenize source.toList = .ok placed ∧ compile source = .error e ∧
      e.fault = .unknownEvent "FETCH" ∧ e.fault.isContent = true ∧
      Blames (.word "IF") tag.token e.fault 1 ∧ e.line = 3 ∧ e.line ≠ tag.line := by
  intro source tag placed
  have htokens : Token.tokenize source.toList = .ok placed := by decide +kernel
  have hcompile : compile source =
      .error ⟨3, statementText source.toList placed, .unknownEvent "FETCH"⟩ := by
    rw [compile, htokens]
    with_unfolding_all rfl
  exact ⟨_, htokens, hcompile, rfl, rfl, .event (.inl rfl) (by decide), rfl, by decide⟩

end Bylaw.Rule
