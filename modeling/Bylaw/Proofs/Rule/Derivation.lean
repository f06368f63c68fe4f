import Bylaw.Proofs.Rule.Grammar

/-! What readers find is derived from the tokens. Main statement: a rule that is read of a statement
has a derivation, so that what holds of all rules that are read is shown by induction on
derivations. -/

namespace Bylaw.Rule

variable {ts rest : List Token}

theorem readsLiteral_of_literal? {r : Reading Json ts} (h : literal? ts = some r) :
    ReadsLiteral ts r.value r.rest := by
  unfold literal? at h
  split at h
  · rw [← Option.some.inj h]
    exact .number _ _
  · rw [← Option.some.inj h]
    exact .str _ _
  · obtain ⟨v, hv, rfl⟩ := Option.map_eq_some_iff.mp h
    exact .word hv _
  · rw [← Option.some.inj h]
    exact .negative _ _
  · cases h

theorem readsDays_of_trails {offset : Int} (h : Trails (todayOffset ts) offset rest) :
    ReadsDays ts offset rest := by
  unfold todayOffset at h
  split at h
  · split at h
    · rename_i hn
      obtain ⟨rfl, rfl⟩ := trails_ok.mp h
      exact .earlier hn _
    · exact absurd h trails_error
  · split at h
    · rename_i hn
      obtain ⟨rfl, rfl⟩ := trails_ok.mp h
      exact .later hn _
    · exact absurd h trails_error
  · obtain ⟨rfl, rfl⟩ := trails_ok.mp h
    exact .none _

theorem literalWord?_of_literal? {w : String} (h : literal? (.word w :: ts) = none) :
    literalWord? w = none := by
  unfold literal? at h
  exact Option.map_eq_none_iff.mp h

theorem readsOperand_of_operandAt {x : Operand} (h : operandAt ts = .ok (x, rest)) :
    ReadsOperand ts x rest := by
  unfold operandAt at h
  split at h
  · rename_i r hr
    obtain ⟨rfl, rfl⟩ := Prod.mk.inj (Except.ok.inj h)
    exact .literal (readsLiteral_of_literal? hr)
  rename_i hnone
  split at h
  · split at h
    · rename_i ht
      obtain ⟨r, hr, heq⟩ := map_eq_ok.mp h
      obtain ⟨rfl, rfl⟩ := Prod.mk.inj heq
      exact .today ht (readsDays_of_trails ⟨r.notLonger, hr⟩)
    rename_i ht
    split at h
    · cases h
    rename_i hk
    split at h
    · rename_i hpath
      obtain ⟨rfl, rfl⟩ := Prod.mk.inj (Except.ok.inj h)
      exact .field ⟨literalWord?_of_literal? hnone, by simpa using ht, by simpa using hk, hpath⟩ _
    · cases h
  · cases h

theorem literalWord?_cases {w : String} {v : Json} (h : literalWord? w = some v) :
    v = .bool true ∨ v = .bool false ∨ v = .null := by
  unfold literalWord? at h
  simp only at h
  split at h
  · exact .inl (Option.some.inj h).symm
  split at h
  · exact .inr (.inl (Option.some.inj h).symm)
  split at h
  · exact .inr (.inr (Option.some.inj h).symm)
  · cases h

theorem isString_of_literalWord? {w : String} {v : Json} (h : literalWord? w = some v) :
    v.isString = false := by
  obtain rfl | rfl | rfl := literalWord?_cases h <;> rfl

mutual

theorem readsPhrase_of_sum (ts : List Token) {e : Expr} {rest : List Token}
    (h : Yields (sum ts) e rest) : ReadsPhrase ts (.sum e) rest := by
  obtain ⟨first, more, hfirst, htail⟩ := yields_sum.mp h
  have := hfirst.shorter
  exact readsPhrase_of_sumTail more (.sum (readsPhrase_of_product ts hfirst)) htail
  termination_by (ts.length, 4)

theorem readsPhrase_of_sumTail (ts : List Token) {us : List Token} {left e : Expr}
    {rest : List Token} (hl : ReadsPhrase us (.sum left) ts)
    (h : Trails (sumTail left ts) e rest) : ReadsPhrase us (.sum e) rest := by
  match ts with
  | [] =>
    obtain ⟨rfl, rfl⟩ := trails_sumTail_nil.mp h
    exact hl
  | t :: ts =>
    obtain ⟨-, rfl, rfl⟩ | ⟨op, right, more, hop, hright, htail⟩ := trails_sumTail_cons.mp h
    · exact hl
    · have := hright.shorter
      exact readsPhrase_of_sumTail more (.sumTail hl hop (readsPhrase_of_product ts hright)) htail
  termination_by (ts.length, 3)

theorem readsPhrase_of_product (ts : List Token) {e : Expr} {rest : List Token}
    (h : Yields (product ts) e rest) : ReadsPhrase ts (.product e) rest := by
  obtain ⟨first, more, hfirst, htail⟩ := yields_product.mp h
  have := hfirst.shorter
  exact readsPhrase_of_productTail more (.product (readsPhrase_of_factor ts hfirst)) htail
  termination_by (ts.length, 2)

theorem readsPhrase_of_productTail (ts : List Token) {us : List Token} {left e : Expr}
    {rest : List Token} (hl : ReadsPhrase us (.product left) ts)
    (h : Trails (productTail left ts) e rest) : ReadsPhrase us (.product e) rest := by
  match ts with
  | [] =>
    obtain ⟨rfl, rfl⟩ := trails_productTail_nil.mp h
    exact hl
  | t :: ts =>
    obtain ⟨-, rfl, rfl⟩ | ⟨op, right, more, hop, hright, htail⟩ := trails_productTail_cons.mp h
    · exact hl
    · have := hright.shorter
      exact readsPhrase_of_productTail more
        (.productTail hl hop (readsPhrase_of_factor ts hright)) htail
  termination_by (ts.length, 1)

theorem readsPhrase_of_factor (ts : List Token) {e : Expr} {rest : List Token}
    (h : Yields (factor ts) e rest) : ReadsPhrase ts (.factor e) rest := by
  match ts with
  | [] => exact absurd h not_yields_factor_nil
  | .pattern _ :: _ => exact absurd h not_yields_factor_pattern
  | .block _ :: _ => exact absurd h not_yields_factor_block
  | .str s :: ts =>
    obtain ⟨t, ht, rfl, rfl⟩ := yields_factor_str.mp h
    exact .template ht _
  | .number n :: ts =>
    obtain ⟨rfl, rfl⟩ := yields_factor_number.mp h
    exact .literal (.number n _) rfl
  | .symbol s :: ts =>
    -- Of the symbols, a parenthesis and a minus begin an operand.
    by_cases ho : s = .openParen
    · subst ho
      exact .enclosed (readsPhrase_of_sum ts (yields_factor_openParen.mp h))
    by_cases hm : s = .minus
    · subst hm
      by_cases hn : ∃ n more, ts = .number n :: more
      · obtain ⟨n, more, rfl⟩ := hn
        obtain ⟨rfl, rfl⟩ := yields_factor_minus_number.mp h
        exact .literal (.negative n _) rfl
      · have hne : ∀ n more, ts ≠ .number n :: more := fun n more heq => hn ⟨n, more, heq⟩
        obtain ⟨right, hright, rfl⟩ := (yields_factor_minus hne).mp h
        exact .minus (readsPhrase_of_factor ts hright)
    · exact absurd h (not_yields_factor_symbol ho hm)
  | .word w :: ts =>
    -- A word is a literal, today's date, a keyword, a call or a field, asked in this order.
    cases hl : literalWord? w with
    | some v =>
      obtain ⟨rfl, rfl⟩ := (yields_factor_literal hl).mp h
      exact .literal (.word hl _) (isString_of_literalWord? hl)
    | none =>
      cases ht : isToday w with
      | true =>
        obtain ⟨offset, ho, rfl⟩ := (yields_factor_today hl ht).mp h
        exact .today ht (readsDays_of_trails ho)
      | false =>
        cases hk : isKeyword w with
        | true => exact absurd h (yields_factor_keyword hl ht hk)
        | false =>
          by_cases hp : ts.head? = some (.symbol .openParen)
          · obtain ⟨more, rfl⟩ := List.head?_eq_some_iff.mp hp
            obtain ⟨handler, hh, hcall⟩ := (yields_factor_call hl ht hk).mp h
            rcases hcall with ⟨rfl, rfl⟩ | ⟨-, args, hargs, rfl⟩
            · exact .callEmpty hk hh _
            · exact .call hk hh (readsPhrase_of_arguments more hargs)
          · obtain ⟨path, hpath, rfl, rfl⟩ := (yields_factor_field hl ht hk hp).mp h
            exact .field ⟨hl, ht, hk, hpath⟩ _
  termination_by (ts.length, 0)

theorem readsPhrase_of_arguments (ts : List Token) {args : List Expr} {rest : List Token}
    (h : Yields (arguments ts) args rest) : ReadsPhrase ts (.arguments args) rest := by
  obtain ⟨first, more, hfirst, htail⟩ := yields_arguments.mp h
  have hsum := readsPhrase_of_sum ts hfirst
  have hshorter := hfirst.shorter
  rcases htail with ⟨others, after, rfl, hothers, rfl⟩ | ⟨rfl, rfl⟩
  · have : after.length < ts.length := Nat.lt_of_succ_lt hshorter
    exact .argument hsum (readsPhrase_of_arguments after hothers)
  · exact .lastArgument hsum
  termination_by (ts.length, 5)

end

theorem readsClause_of_fieldTest {field : FieldPath} {negated : Bool} {w : String} {c : Clause}
    {us : List Token}
    (hf : ReadsOperand us (.field field) (Clause.notTokens negated ++ .word w :: ts))
    (hw : isTest w = true) (h : fieldTest field negated w ts = .ok (c, rest)) :
    ReadsClause us c rest := by
  unfold fieldTest at h
  split at h
  · rename_i hexists
    subst hexists
    obtain ⟨rfl, rfl⟩ := Prod.mk.inj (Except.ok.inj h)
    exact .present hf
  rename_i hexists
  split at h
  · rename_i hmatches
    subst hmatches
    obtain ⟨⟨p, more⟩, hp, heq⟩ := map_eq_ok.mp h
    obtain ⟨rfl, rfl⟩ := Prod.mk.inj heq
    exact .fits hf hp
  · rename_i hmatches
    obtain rfl : w = "CONTAINS" := by simpa [isTest, hexists, hmatches] using hw
    obtain ⟨⟨needle, more⟩, hn, heq⟩ := map_eq_ok.mp h
    obtain ⟨rfl, rfl⟩ := Prod.mk.inj heq
    exact .contains hf (readsOperand_of_operandAt hn)

/-- A test is negated if the word `NOT` stands before it. -/
theorem notTokens_append (ts : List Token) :
    let r := match afterKeyword? "NOT" ts with
      | some after => (true, after)
      | none => (false, ts)
    Clause.notTokens r.1 ++ r.2 = ts := by
  cases hnot : afterKeyword? "NOT" ts with
  | some after => exact (afterKeyword?_eq hnot).symm
  | none => rfl

theorem readsClause_of_clauseAt {c : Clause} (h : clauseAt ts = .ok (c, rest)) :
    ReadsClause ts c rest := by
  unfold clauseAt at h
  obtain ⟨⟨left, more⟩, hleft, h⟩ := bind_eq_ok.mp h
  have hleft := readsOperand_of_operandAt hleft
  simp only at h
  split at h
  · split at h
    · rename_i op hop
      obtain ⟨⟨right, others⟩, hright, heq⟩ := bind_eq_ok.mp h
      obtain ⟨rfl, rfl⟩ := Prod.mk.inj (Except.ok.inj heq)
      exact .compare hleft hop (readsOperand_of_operandAt hright)
    · cases h
  · split at h
    · rename_i w after hafter
      split at h
      · rename_i htest
        split at h
        -- The operand was followed by the test, with or without the word before it.
        · refine readsClause_of_fieldTest ?_ htest h
          rw [← hafter]
          exact (congrArg (ReadsOperand ts _) (notTokens_append more)).mpr hleft
        · cases h
      · cases h
    · cases h

theorem readsClauses_of_moreClauses {clauses : List Clause}
    (h : moreClauses ts = .ok (clauses, rest)) : ReadsClauses ts clauses rest := by
  induction hn : ts.length using Nat.strong_induction_on generalizing ts clauses rest with
  | _ n ih =>
    rw [moreClauses] at h
    split at h
    · rename_i more hand
      obtain rfl := afterKeyword?_eq hand
      split at h
      · cases h
      · rename_i c others hc
        have hclause := readsClause_of_clauseAt hc
        split at h
        · rename_i hlt
          obtain ⟨⟨cs, last⟩, hcs, heq⟩ := map_eq_ok.mp h
          obtain ⟨rfl, rfl⟩ := Prod.mk.inj heq
          exact .cons hclause (ih others.length (hn ▸ hlt) hcs rfl)
        · obtain ⟨rfl, rfl⟩ := Prod.mk.inj (Except.ok.inj h)
          exact .cons hclause (.nil _)
    · split at h
      · cases h
      · obtain ⟨rfl, rfl⟩ := Prod.mk.inj (Except.ok.inj h)
        exact .nil _

theorem readsCondition_of_conditionAt {clauses : List Clause}
    (h : conditionAt ts = .ok (clauses, rest)) :
    ReadsCondition (.word "WHEN" :: ts) (some clauses) rest := by
  obtain ⟨⟨first, more⟩, hfirst, h⟩ := bind_eq_ok.mp h
  obtain ⟨⟨others, last⟩, hothers, heq⟩ := bind_eq_ok.mp h
  obtain ⟨rfl, rfl⟩ := Prod.mk.inj (Except.ok.inj heq)
  exact .some (readsClause_of_clauseAt hfirst) (readsClauses_of_moreClauses hothers)

theorem readsLiterals_of_literals {args : List Json} (h : literals ts = .ok (args, rest)) :
    ReadsLiterals ts args rest := by
  induction hn : ts.length using Nat.strong_induction_on generalizing ts args rest with
  | _ n ih =>
    rw [literals] at h
    split at h
    · cases h
    · rename_i first hfirst
      have hliteral := readsLiteral_of_literal? hfirst
      have hshorter := first.shorter
      split at h
      · rename_i more hcomma
        rw [eq_of_afterSymbol? hcomma] at hliteral hshorter
        obtain ⟨⟨values, last⟩, hvalues, hpair⟩ := map_eq_ok.mp h
        obtain ⟨rfl, rfl⟩ := Prod.mk.inj hpair
        have hlt : more.length < n := hn ▸ Nat.lt_of_succ_lt hshorter
        exact .cons hliteral (ih more.length hlt hvalues rfl)
      · obtain ⟨last, hclose, hpair⟩ := map_eq_ok.mp h
        obtain ⟨rfl, rfl⟩ := Prod.mk.inj hpair
        rw [expectSymbol_eq hclose] at hliteral
        exact .last hliteral

theorem readsHandler_of_handlerAt {handler : String} (h : handlerAt ts = .ok (handler, rest)) :
    ReadsHandler ts handler rest := by
  unfold handlerAt at h
  split at h
  · split at h
    · cases h
    rename_i hk
    split at h
    · rename_i hh
      obtain ⟨rfl, rfl⟩ := Prod.mk.inj (Except.ok.inj h)
      exact .word (by simpa using hk) hh _
    · cases h
  · cases h

theorem readsName_of_nameAt {what name : String} (h : nameAt what ts = .ok (name, rest)) :
    ReadsName ts name rest := by
  unfold nameAt at h
  split at h
  · split at h
    · cases h
    · rename_i hk
      obtain ⟨rfl, rfl⟩ := Prod.mk.inj (Except.ok.inj h)
      exact .word (by simpa using hk) _
  · split at h
    · cases h
    · obtain ⟨rfl, rfl⟩ := Prod.mk.inj (Except.ok.inj h)
      exact .str _ _
  · cases h

variable {a : Action}

theorem readsAction_of_updateAction (h : updateAction ts = .ok (a, rest)) :
    ReadsAction (.word "UPDATE" :: ts) a rest := by
  unfold updateAction at h
  split at h
  · split at h
    · cases h
    rename_i hk
    split at h
    · rename_i hpath
      rw [pure_bind] at h
      obtain ⟨after, hequal, h⟩ := bind_eq_ok.mp h
      obtain ⟨r, hr, h⟩ := bind_eq_ok.mp h
      obtain ⟨rfl, rfl⟩ := Prod.mk.inj (Except.ok.inj h)
      obtain rfl := expectSymbol_eq hequal
      exact .update (by simpa using hk) hpath (readsPhrase_of_sum after ⟨r.shorter, hr⟩)
    · cases h
  · cases h

theorem readsAction_of_notifyAction (h : notifyAction ts = .ok (a, rest)) :
    ReadsAction (.word "NOTIFY" :: ts) a rest := by
  unfold notifyAction at h
  split at h
  · split at h
    · rename_i ht
      obtain ⟨rfl, rfl⟩ := Prod.mk.inj (Except.ok.inj h)
      exact .notify ht _
    · cases h
  · cases h

theorem readsAction_of_createAction (h : createAction ts = .ok (a, rest)) :
    ReadsAction (.word "CREATE" :: ts) a rest := by
  obtain ⟨⟨kind, more⟩, hkind, h⟩ := bind_eq_ok.mp h
  obtain ⟨after, hwith, h⟩ := bind_eq_ok.mp h
  have hname := readsName_of_nameAt hkind
  rw [expectKeyword_eq hwith] at hname
  split at h
  · split at h
    · cases h
    rename_i hread
    split at h
    · cases h
    rename_i hobject
    split at h
    · rename_i hpayload
      obtain ⟨rfl, rfl⟩ := Prod.mk.inj (Except.ok.inj h)
      exact .create hname hread (by simpa using hobject) hpayload
    · cases h
  · cases h

theorem readsAction_of_sendAction (h : sendAction ts = .ok (a, rest)) :
    ReadsAction (.word "SEND" :: ts) a rest := by
  obtain ⟨⟨subject, more⟩, hsubject, h⟩ := bind_eq_ok.mp h
  obtain ⟨after, hto, h⟩ := bind_eq_ok.mp h
  obtain ⟨⟨handler, last⟩, hhandler, h⟩ := bind_eq_ok.mp h
  obtain ⟨rfl, rfl⟩ := Prod.mk.inj (Except.ok.inj h)
  have hname := readsName_of_nameAt hsubject
  rw [expectKeyword_eq hto] at hname
  exact .send hname (readsHandler_of_handlerAt hhandler)

theorem readsAction_of_invokeAction (h : invokeAction ts = .ok (a, rest)) :
    ReadsAction (.word "INVOKE" :: ts) a rest := by
  obtain ⟨⟨handler, more⟩, hhandler, h⟩ := bind_eq_ok.mp h
  have hname := readsHandler_of_handlerAt hhandler
  simp only at h
  split at h
  · obtain ⟨rfl, rfl⟩ := Prod.mk.inj (Except.ok.inj h)
    exact .invoke hname
  · rename_i after hopen
    rw [eq_of_afterSymbol? hopen] at hname
    split at h
    · rename_i last hclose
      obtain ⟨rfl, rfl⟩ := Prod.mk.inj (Except.ok.inj h)
      rw [eq_of_afterSymbol? hclose] at hname
      exact .invokeEmpty hname
    · obtain ⟨⟨args, last⟩, hargs, h⟩ := bind_eq_ok.mp h
      obtain ⟨rfl, rfl⟩ := Prod.mk.inj (Except.ok.inj h)
      exact .invokeWith hname (readsLiterals_of_literals hargs)

theorem readsAction_of_actionAt (h : actionAt ts = .ok (a, rest)) : ReadsAction ts a rest := by
  unfold actionAt at h
  split at h
  · exact readsAction_of_updateAction h
  · exact readsAction_of_notifyAction h
  · obtain ⟨rfl, rfl⟩ := Prod.mk.inj (Except.ok.inj h)
    exact .delete _
  · exact readsAction_of_createAction h
  · exact readsAction_of_sendAction h
  · exact readsAction_of_invokeAction h
  · obtain ⟨rfl, rfl⟩ := Prod.mk.inj (Except.ok.inj h)
    exact .stop _
  · cases h

theorem readsActions_of_actionsAt {actions : List Action} (h : actionsAt ts = .ok actions) :
    ReadsActions ts actions := by
  -- The induction is on how many tokens are left: each action takes up its verb at least.
  induction hn : ts.length using Nat.strong_induction_on generalizing ts actions with
  | _ n ih =>
    cases ts with
    | nil =>
      rw [actionsAt] at h
      obtain rfl := Except.ok.inj h
      exact .nil
    | cons t us =>
      rw [actionsAt] at h
      split at h
      · cases h
      rename_i a rest haction
      have ha := readsAction_of_actionAt haction
      rw [dif_pos ha.shorter] at h
      split at h
      · rename_i after hcomma
        obtain rfl := eq_of_afterSymbol? hcomma
        have hlt : after.length < (t :: us).length := Nat.lt_of_succ_lt ha.shorter
        split at h
        · cases h
        obtain ⟨others, hothers, rfl⟩ := map_eq_ok.mp h
        exact .comma ha (ih after.length (hn ▸ hlt) hothers rfl)
      · split at h
        · rename_i hempty
          obtain rfl := List.isEmpty_iff.mp hempty
          obtain rfl := Except.ok.inj h
          exact .next ha .nil
        split at h
        · obtain ⟨others, hothers, rfl⟩ := map_eq_ok.mp h
          exact .next ha (ih rest.length (hn ▸ ha.shorter) hothers rfl)
        · cases h

theorem readsEvent_of_eventAt {last : Token} {r : Reading Event ts} (h : eventAt last ts = .ok r) :
    ReadsEvent ts r.value r.rest := by
  cases ts with
  | nil => cases h
  | cons t more =>
    cases t with
    | word w =>
      rw [eventAt] at h
      split at h
      · rename_i he
        rw [← Except.ok.inj h]
        exact .tag he _
      · cases h
    | number _ | str _ | pattern _ | block _ | symbol _ => cases h

theorem readsEvents_of_moreEvents {events : List Event} (h : moreEvents ts = .ok (events, rest)) :
    ReadsEvents ts events rest := by
  -- Each event takes up a token at least, so the induction is on their number.
  induction hn : ts.length using Nat.strong_induction_on generalizing ts events rest with
  | _ n ih =>
    cases ts with
    | nil =>
      rw [moreEvents] at h
      obtain ⟨rfl, rfl⟩ := Prod.mk.inj (Except.ok.inj h)
      exact .nil _
    | cons t us =>
      rw [List.length_cons] at hn
      rw [moreEvents] at h
      split at h
      · rename_i hseparator
        split at h
        · cases h
        · rename_i r hr
          have hshorter := r.shorter
          obtain ⟨⟨others, last⟩, hothers, hpair⟩ := map_eq_ok.mp h
          obtain ⟨rfl, rfl⟩ := Prod.mk.inj hpair
          exact .separated hseparator (readsEvent_of_eventAt hr)
            (ih r.rest.length (by omega) hothers rfl)
      split at h
      · split at h
        · cases h
        · rename_i r hr
          have hshorter := r.shorter
          rw [List.length_cons] at hshorter
          obtain ⟨⟨others, last⟩, hothers, hpair⟩ := map_eq_ok.mp h
          obtain ⟨rfl, rfl⟩ := Prod.mk.inj hpair
          exact .next (readsEvent_of_eventAt hr) (ih r.rest.length (by omega) hothers rfl)
      · obtain ⟨rfl, rfl⟩ := Prod.mk.inj (Except.ok.inj h)
        exact .nil _

theorem readsEntity_of_entityAt {entity : String} (h : entityAt ts = .ok (entity, rest)) :
    ReadsEntity ts entity rest := by
  unfold entityAt at h
  split at h
  · split at h
    · cases h
    · rename_i hw
      obtain ⟨rfl, rfl⟩ := Prod.mk.inj (Except.ok.inj h)
      simp only [Bool.or_eq_true, not_or, Bool.not_eq_true] at hw
      exact .word hw.1 (fun hp => by simp [hp] at hw) _
  · split at h
    · cases h
    · rename_i hs
      obtain ⟨rfl, rfl⟩ := Prod.mk.inj (Except.ok.inj h)
      refine .str ?_ _
      rintro rfl
      exact hs rfl
  · cases h

theorem readsRule_of_statement {line : Nat} {rule : Rule} (h : statement line ts = .ok rule) :
    ReadsRule ts rule := by
  obtain ⟨more, hif, h⟩ := bind_eq_ok.mp h
  obtain ⟨first, hfirst, h⟩ := bind_eq_ok.mp h
  obtain ⟨⟨others, after⟩, hothers, h⟩ := bind_eq_ok.mp h
  obtain ⟨⟨entity, last⟩, hentity, h⟩ := bind_eq_ok.mp h
  rw [expectKeyword_eq hif]
  -- Whether there is a condition or not, the rule ends in the same way.
  have hend {condition : Option (List Clause)} {ending body : List Token}
      (hcondition : ReadsCondition last condition ending)
      (hthen : afterKeyword? "THEN" ending = some body)
      (h : (actionsAt body >>= fun actions => pure (Rule.mk entity
        (Event.sorted (first.value :: others)) condition actions line)) = .ok rule) :
      ReadsRule (.word "IF" :: more) rule := by
    obtain rfl := afterKeyword?_eq hthen
    obtain ⟨actions, hactions, h⟩ := bind_eq_ok.mp h
    obtain rfl := Except.ok.inj h
    exact .mk (readsEvent_of_eventAt hfirst) (readsEvents_of_moreEvents hothers)
      (readsEntity_of_entityAt hentity) hcondition (readsActions_of_actionsAt hactions) line
  simp only at h
  split at h
  · rename_i us hwhen
    obtain rfl := afterKeyword?_eq hwhen
    obtain ⟨⟨clauses, vs⟩, hread, h⟩ := bind_eq_ok.mp h
    simp only [pure_bind] at h
    split at h
    · cases h
    · exact hend (readsCondition_of_conditionAt hread) ‹_› h
  · simp only [pure_bind] at h
    split at h
    · cases h
    · exact hend (.none last) ‹_› h

end Bylaw.Rule
