import Bylaw.Proofs.Rule.Joining
import Bylaw.Proofs.Token.Notes

/-! Comments between the tokens of rules. Main statement: they change neither the rules nor the
reason for which there are none, unless one of them ends the line of an empty pattern that only a
carriage return keeps from being a comment. -/

namespace Bylaw.Rule

open Token

/-- What a text compiles to, apart from lines: its rules, or why they are none. -/
def outcome : Except CompileError (List Rule) → Except Fault (List Rule)
  | .ok rules => .ok (rules.map unplaced)
  | .error e => .error e.fault

/-- The rules of the tokens of statements, as if they stood on no line. -/
def rulesOf : List (List Token) → Except Fault (List Rule)
  | [] => .ok []
  | ts :: rest =>
    match statement 0 ts with
    | .error r => .error r.fault
    | .ok rule => (rulesOf rest).map (unplaced rule :: ·)

/-- What becomes of statements depends on their tokens, and not on where these stand. -/
theorem outcome_ofStatements (source : List Char) (sts : List (List Placed)) :
    outcome (ofStatements source sts) = rulesOf (sts.map (·.map Placed.token)) := by
  induction sts with
  | nil => rfl
  | cons st sts ih =>
    have hline := statement_down 0 ((st.head?.map (·.line)).getD 1) (st.map Placed.token)
    rw [Nat.zero_add] at hline
    rw [ofStatements, ofStatement, List.map_cons, rulesOf, ← ih, hline]
    cases statement 0 (st.map Placed.token) with
    | error r => rfl
    | ok rule =>
      simp only [Except.map]
      cases ofStatements source sts <;> rfl

theorem statements_congr {placed others : List Placed}
    (h : placed.map Placed.token = others.map Placed.token) :
    (statements placed).map (·.map Placed.token) =
      (statements others).map (·.map Placed.token) := by
  have hbare (placed : List Placed) : (statements placed).map (·.map Placed.token) =
      (statements ((placed.map Placed.token).map (⟨·, 0, 0, 0⟩))).map (·.map Placed.token) := by
    have hmap := @statementsFrom_map (fun p => ⟨p.token, 0, 0, 0⟩) (fun p => rfl) [] placed
    rw [List.map_nil, ← statements, ← statements] at hmap
    rw [List.map_map]
    show _ = (statements (placed.map fun p => ⟨p.token, 0, 0, 0⟩)).map _
    rw [hmap, List.map_map]
    refine List.map_congr_left fun st _ => ?_
    rw [Function.comp_apply, List.map_map]
    rfl
  rw [hbare placed, hbare others, h]

theorem outcome_congr {source other : String} {ts : List Token}
    (h : Token.tokens false source.toList = .ok ts)
    (h' : Token.tokens false other.toList = .ok ts) :
    outcome (compile source) = outcome (compile other) := by
  obtain ⟨placed, hplaced, rfl⟩ := tokenize_of_tokens h
  obtain ⟨others, hothers, hmap⟩ := tokenize_of_tokens h'
  rw [compile_of_tokenize hplaced, compile_of_tokenize hothers, outcome_ofStatements,
    outcome_ofStatements, statements_congr hmap]

/-- A text with notes in it. -/
def annotated (notes : Nat → Option Note) (source : String) : String :=
  .ofList (annotate notes 0 source.toList)

section

variable {source : String} {placed kept lost : List Placed} {p : Placed} {rules : List Rule}

/-- Notes between tokens that hide none of these make no difference. -/
theorem outcome_annotated (h : tokenize source.toList = .ok placed) {notes : Nat → Option Note}
    (hnotes : Between notes 0 placed) (hhides : ∀ p ∈ placed, ¬Hides notes source.toList p.start) :
    outcome (compile (annotated notes source)) = outcome (compile source) := by
  refine outcome_congr ?_ (tokens_of_tokenize h)
  rw [annotated, String.toList_ofList]
  exact tokens_annotate_of_not_hides h hnotes hhides

theorem goesOn_of_prefix {ts us : List Token} (h : ts <+: us) :
    ts = [] ∨ goesOn ts = goesOn us := by
  cases ts with
  | nil => exact .inl rfl
  | cons t ts =>
    obtain ⟨more, rfl⟩ := h
    right
    rw [List.cons_append]
    unfold goesOn
    split <;> split <;> simp_all

theorem goesOn_of_compile (h : compile source = .ok rules)
    (htokens : tokenize source.toList = .ok (kept ++ p :: lost)) {pattern : String}
    (hp : p.token = .pattern pattern) : goesOn (lost.map Placed.token) = true := by
  rw [compile_of_tokenize htokens] at h
  obtain ⟨tail, hlost, hnot⟩ := @exists_not_stuck _ _ [p] lost kept (List.cons_ne_nil _ _)
    (by simp [hp, isInner]) h
  by_contra hstops
  -- The pattern would be left dangling, at the end of its statement or before another token.
  refine hnot ?_
  rw [List.singleton_append, List.map_cons, hp]
  refine Stuck.dangling pattern ?_
  rcases goesOn_of_prefix (hlost.map Placed.token) with hnil | heq
  · rw [hnil]
    rfl
  · rw [heq]
    simpa using hstops

/-- A note behind the first token that begins with two slashes spoils a text that compiles. -/
theorem compile_annotated_behind (note : Note) (h : compile source = .ok rules)
    (htokens : tokenize source.toList = .ok (kept ++ p :: lost))
    (hkept : ∀ q ∈ kept, ¬['/', '/'] <+: source.toList.drop q.start)
    (hp : ['/', '/'] <+: source.toList.drop p.start) :
    ∃ e, compile (annotated (note.only p.stop) source) = .error e := by
  obtain ⟨hpattern, htoken⟩ := pattern_of_slashes h htokens hp
  have hgoes := goesOn_of_compile h htokens htoken
  have hlost : ∀ q ∈ lost.head?, q.token ≠ .symbol .slash := by
    intro q hq heq
    obtain ⟨others, rfl⟩ := List.head?_eq_some_iff.mp hq
    rw [List.map_cons, heq] at hgoes
    cases hgoes
  have hnoted := tokens_annotate_behind note htokens hkept hp hpattern hlost
  rw [← String.toList_ofList (l := annotate _ _ _), ← annotated] at hnoted
  obtain ⟨placed, hplaced, hmap⟩ := tokenize_of_tokens hnoted
  obtain ⟨before, k, rfl, hk⟩ := exists_matches hpattern
  rw [List.append_assoc, List.singleton_append] at hmap
  obtain ⟨first, rest, rfl, -, hrest⟩ := List.map_eq_append_iff.mp (hmap.trans List.map_append)
  obtain ⟨q, others, rfl, hq, hothers⟩ := List.map_eq_cons_iff.mp hrest
  cases hread : compile (annotated (note.only p.stop) source) with
  | error e => exact ⟨e, rfl⟩
  | ok rules =>
    -- Nothing that is left of the statement is a pattern after the word that calls for one.
    rw [compile_of_tokenize hplaced] at hread
    obtain ⟨tail, htail, hnot⟩ := @exists_not_stuck _ _ [q] others first (List.cons_ne_nil _ _)
      (by simp [hq, hk, isInner]) hread
    refine absurd ?_ hnot
    rw [List.singleton_append, List.map_cons, hq, hk]
    refine Stuck.unfinished ?_
    rw [← hgoes, ← hothers]
    exact goesOn_of_prefix (htail.map Placed.token)

/-- A comment that reads like the beginning of a rule. -/
def remark : Note := ⟨true, " IF \"x".toList, by decide⟩

/-- Notes between the tokens of a text change neither its rules, lines aside, nor the fault for
which there are none, if they hide no token. Of a text that compiles this holds of all notes between
its tokens exactly if none of these begins with two slashes. -/
theorem compile_annotated_exact (h : tokenize source.toList = .ok placed) :
    (∀ notes, Between notes 0 placed → (∀ p ∈ placed, ¬Hides notes source.toList p.start) →
      outcome (compile (annotated notes source)) = outcome (compile source)) ∧
    ∀ rules, compile source = .ok rules →
      ((∀ notes, Between notes 0 placed →
          outcome (compile (annotated notes source)) = outcome (compile source)) ↔
        ∀ p ∈ placed, ¬['/', '/'] <+: source.toList.drop p.start) := by
  refine ⟨fun notes => outcome_annotated h, fun rules hrules => ⟨fun hall => ?_, fun hnone => ?_⟩⟩
  · obtain ⟨kept, lost, rfl, hkept, hlost⟩ :=
      exists_until (fun p => ['/', '/'] <+: source.toList.drop p.start) placed
    cases lost with
    | nil => simpa using hkept
    | cons p lost =>
      obtain ⟨e, he⟩ := compile_annotated_behind remark hrules h hkept (hlost p rfl)
      have hsame := hall (remark.only p.stop) (remark.between_only (by simp))
      rw [he, hrules] at hsame
      cases hsame
  · intro notes hnotes
    exact outcome_annotated h hnotes fun p hp hhides => hnone p hp hhides.slashes

end

/-- What a comment says is no part of a rule, be it a word or a quote. -/
theorem compile_annotated_exact_remark :
    annotated (remark.only 2) "IF POST leads THEN DELETE" =
        "IF // IF \"x\n POST leads THEN DELETE" ∧
      outcome (compile (annotated (remark.only 2) "IF POST leads THEN DELETE")) =
        .ok [unplaced removing] := by
  have htokens : tokenize "IF POST leads THEN DELETE".toList =
      .ok [⟨.word "IF", 1, 0, 2⟩, ⟨.word "POST", 1, 3, 7⟩, ⟨.word "leads", 1, 8, 13⟩,
        ⟨.word "THEN", 1, 14, 18⟩, ⟨.word "DELETE", 1, 19, 25⟩] := by
    decide +kernel
  have hall := ((compile_annotated_exact htokens).2 _ removing_eq).mpr (by decide +kernel)
  refine ⟨by decide +kernel, ?_⟩
  rw [hall (remark.only 2) (remark.between_only (p := ⟨.word "IF", 1, 0, 2⟩) List.mem_cons_self),
    removing_eq]
  rfl

/-- A comment behind the slashes of an empty pattern ends their line before the carriage return
that spoils it. -/
theorem spoiled_not_annotated :
    (∃ placed, tokenize "IF GET leads WHEN x MATCHES // THEN DELETE\r".toList = .ok placed ∧
        Between (remark.only 30) 0 placed) ∧
      compile "IF GET leads WHEN x MATCHES // THEN DELETE\r" = .ok [spoiled] ∧
      annotated (remark.only 30) "IF GET leads WHEN x MATCHES // THEN DELETE\r" =
        "IF GET leads WHEN x MATCHES // // IF \"x\n THEN DELETE\r" ∧
      ∃ e, compile "IF GET leads WHEN x MATCHES // // IF \"x\n THEN DELETE\r" = .error e ∧
        e.fault = .expected "regex after MATCHES" (some (.word "THEN")) := by
  refine ⟨⟨[⟨.word "IF", 1, 0, 2⟩, ⟨.word "GET", 1, 3, 6⟩, ⟨.word "leads", 1, 7, 12⟩,
    ⟨.word "WHEN", 1, 13, 17⟩, ⟨.word "x", 1, 18, 19⟩, ⟨.word "MATCHES", 1, 20, 27⟩,
    ⟨.pattern "", 1, 28, 30⟩, ⟨.word "THEN", 1, 31, 35⟩, ⟨.word "DELETE", 1, 36, 42⟩],
    by decide +kernel, ?_⟩, by with_unfolding_all rfl, by decide +kernel, _,
    by with_unfolding_all rfl, rfl⟩
  exact remark.between_only (p := ⟨.pattern "", 1, 28, 30⟩) (by decide)

end Bylaw.Rule
