import Bylaw.Proofs.Rule.Derivation

/-! Which token a rejection is about. Some readers report a token before they go past it; others
when they have, and then fewer tokens are left. Main statement: a statement that is rejected for the
content of a token is rejected so many places after it, which depends on what is wrong with it and
on the token before it. -/

namespace Bylaw.Rule

/-- Whether a fault is about the content of one token. -/
def Fault.isContent : Fault → Bool
  | .unknownEvent _ | .badField _ | .badHandler _ | .badTemplate _ | .badPattern _ _ | .badJson _
  | .notObject => true
  | _ => false

/-- Whether an operand of a condition may stand after a token. -/
def opensOperand (t : Token) : Prop :=
  t = .word "WHEN" ∨ t = .word "AND" ∨ t = .word "CONTAINS" ∨ ∃ s, t = .symbol s

/-- A token with the token before it, the fault of its content, and how many places after it the
fault is reported. -/
inductive Blames : (before t : Token) → Fault → (lag : Nat) → Prop
  | event {before : Token} {w : String}
      (hb : before = .word "IF" ∨ before = .symbol .pipe ∨ before = .symbol .comma)
      (hw : Event.ofTag? w = none) : Blames before (.word w) (.unknownEvent w) 1
  | pattern {t : Token} {source : String} {fault : Pattern.Fault}
      (ht : t = .pattern source ∨ t = .str source) (hp : Pattern.ofSource source = .error fault) :
      Blames (.word "MATCHES") t (.badPattern source fault) 1
  | enclosed {t : Token} {source : String} {fault : Pattern.Fault}
      (ht : t = .pattern source ∨ t = .str source) (hp : Pattern.ofSource source = .error fault) :
      Blames (.symbol .openParen) t (.badPattern source fault) 2
  | operand {before : Token} {w : String} (hb : opensOperand before)
      (hw : FieldPath.read? w.toList = none) : Blames before (.word w) (.badField w) 0
  | target {w : String} (hw : FieldPath.read? w.toList = none) :
      Blames (.word "UPDATE") (.word w) (.badField w) 1
  | value {s : Symbol} {text : String} {fault : Template.Fault}
      (ht : Template.read text = .error fault) :
      Blames (.symbol s) (.str text) (.badTemplate fault) 0
  | message {text : String} {fault : Template.Fault} (ht : Template.read text = .error fault) :
      Blames (.word "NOTIFY") (.str text) (.badTemplate fault) 1
  | call {s : Symbol} {w : String} (hw : handlerName? w = none) :
      Blames (.symbol s) (.word w) (.badHandler w) 0
  | handler {before : Token} {w : String} (hb : before = .word "TO" ∨ before = .word "INVOKE")
      (hw : handlerName? w = none) : Blames before (.word w) (.badHandler w) 0
  | json {raw : String} {fault : Json.ReadError} (hj : Json.read raw = .error fault) :
      Blames (.word "WITH") (.block raw) (.badJson fault) 1
  | object {raw : String} {v : Json} (hj : Json.read raw = .ok v) (hv : v.isObject = false) :
      Blames (.word "WITH") (.block raw) .notObject 1
  | payload {raw : String} {v : Json} {fault : Template.Fault} (hj : Json.read raw = .ok v)
      (hp : Payload.ofJson v = .error fault) :
      Blames (.word "WITH") (.block raw) (.badTemplate fault) 1

/-- Whether a rejection that is about the content of a token is about one of these, and is reported
as many places after it as it should be. -/
def Rejection.IsAbout (ts : List Token) (r : Rejection) : Prop :=
  r.fault.isContent = true → ∃ front before t after lag, ts = front ++ before :: t :: after ∧
    Blames before t r.fault lag ∧ r.remaining + lag = (t :: after).length

/-- Whether all rejections of a reader are about these tokens, as far as they are about the content
of tokens. -/
def Located {α : Type} (ts : List Token) (x : Except Rejection α) : Prop :=
  ∀ r, x = .error r → r.IsAbout ts

namespace Located

variable {α β : Type} {ts us : List Token} {x : Except Rejection α}

theorem ok (ts : List Token) (a : α) : Located ts (.ok a : Except Rejection α) := by
  intro r hr
  cases hr

theorem error {r : Rejection} (h : r.IsAbout ts) : Located ts (.error r : Except Rejection α) := by
  intro r' hr
  obtain rfl := Except.error.inj hr
  exact h

theorem reject {before t : Token} {fault : Fault} {lag : Nat} {rest : List Token}
    (h : Blames before t fault lag) (after : List Token)
    (hrest : rest.length + lag = (t :: after).length) :
    Located (before :: t :: after) (Rule.reject fault rest : Except Rejection α) :=
  error fun _ => ⟨[], before, t, after, lag, rfl, h, hrest⟩

theorem other {fault : Fault} (h : fault.isContent = false) (ts rest : List Token) :
    Located ts (Rule.reject fault rest : Except Rejection α) :=
  error fun hc => Bool.noConfusion (h.symm.trans hc)

theorem expected (what : String) (ts rest : List Token) :
    Located ts (rejectExpected what rest : Except Rejection α) :=
  other rfl ts rest

theorem expectedAfter (what : String) (last : Token) (ts rest : List Token) :
    Located ts (rejectAfter what last rest : Except Rejection α) :=
  other rfl ts rest

theorem of_suffix (h : Located us x) (hs : us <:+ ts) : Located ts x := by
  intro r hr hc
  obtain ⟨front, before, t, after, lag, rfl, hblames, hlag⟩ := h r hr hc
  obtain ⟨more, rfl⟩ := hs
  exact ⟨more ++ front, before, t, after, lag, by simp, hblames, hlag⟩

theorem cons (h : Located ts x) (t : Token) : Located (t :: ts) x :=
  h.of_suffix (List.suffix_cons t ts)

theorem bind {f : α → Except Rejection β} (h : Located ts x)
    (hf : ∀ a, x = .ok a → Located ts (f a)) : Located ts (x >>= f) := by
  cases x with
  | error r => exact error (h r rfl)
  | ok a => exact hf a rfl

theorem map {f : α → β} (h : Located ts x) : Located ts (x.map f) := by
  cases x with
  | error r => exact error (h r rfl)
  | ok a => exact ok ts (f a)

end Located

variable {ts : List Token}

theorem eventAt_located {last : Token}
    (hlast : last = .word "IF" ∨ last = .symbol .pipe ∨ last = .symbol .comma) (ts : List Token) :
    Located (last :: ts) (eventAt last ts) := by
  unfold eventAt
  split
  · rename_i w rest
    split
    · exact .ok _ _
    · exact .reject (.event hlast ‹_›) rest rfl
  · exact .expectedAfter _ _ _ _

theorem eventAt_of_tagThenEntity (h : tagThenEntity ts = true) (last : Token) :
    ∃ r, eventAt last ts = .ok r := by
  have htag {w : String} {more : List Token} (hw : (Event.ofTag? w).isSome = true) :
      ∃ r, eventAt last (.word w :: more) = .ok r := by
    obtain ⟨e, he⟩ := Option.isSome_iff_exists.mp hw
    exact ⟨.ofHead e, by simp only [eventAt, he]⟩
  unfold tagThenEntity at h
  split at h
  · rw [Bool.and_eq_true] at h
    exact htag h.1
  · exact htag h
  · cases h

theorem moreEvents_located (ts : List Token) : Located ts (moreEvents ts) := by
  induction hn : ts.length using Nat.strong_induction_on generalizing ts with
  | _ n ih =>
    cases ts with
    | nil =>
      rw [moreEvents]
      exact .ok _ _
    | cons t rest =>
      rw [List.length_cons] at hn
      rw [moreEvents]
      split
      · rename_i hseparator
        have hevent := eventAt_located (.inr hseparator) rest
        split
        · exact .error (hevent _ ‹_›)
        · rename_i r hr
          have hshorter := r.shorter
          have hsuffix := (readsEvent_of_eventAt hr).suffix
          exact (((ih _ (by omega) r.rest rfl).of_suffix hsuffix).cons t).map
      split
      · rename_i htag
        split
        · rename_i e he
          -- The tag was looked at before, so that reading it cannot fail.
          obtain ⟨r, hr⟩ := eventAt_of_tagThenEntity htag t
          rw [hr] at he
          cases he
        · rename_i r hr
          have hshorter := r.shorter
          rw [List.length_cons] at hshorter
          exact ((ih _ (by omega) r.rest rfl).of_suffix (readsEvent_of_eventAt hr).suffix).map
      · exact .ok _ _

theorem entityAt_located (ts us : List Token) : Located us (entityAt ts) := by
  unfold entityAt
  split
  · split
    · exact .expected _ _ _
    · exact .ok _ _
  · split
    · exact .expected _ _ _
    · exact .ok _ _
  · exact .expected _ _ _

theorem expectSymbol_located (s : Symbol) (what : String) (ts us : List Token) :
    Located us (expectSymbol s what ts) := by
  unfold expectSymbol
  split
  · exact .ok _ _
  · exact .expected _ _ _

theorem expectKeyword_located (keyword : String) (ts us : List Token) :
    Located us (expectKeyword keyword ts) := by
  unfold expectKeyword
  split
  · exact .ok _ _
  · exact .expected _ _ _

theorem todayOffset_located (ts us : List Token) : Located us (todayOffset ts) := by
  unfold todayOffset
  split
  · split
    · exact .ok _ _
    · exact .other rfl _ _
  · split
    · exact .ok _ _
    · exact .other rfl _ _
  · exact .ok _ _

theorem operandAt_located {before : Token} (hb : opensOperand before) (ts : List Token) :
    Located (before :: ts) (operandAt ts) := by
  unfold operandAt
  split
  · exact .ok _ _
  split
  · split
    · exact (todayOffset_located _ _).map
    split
    · exact .expected _ _ _
    split
    · exact .ok _ _
    · exact .reject (.operand hb ‹_›) _ rfl
  · exact .expected _ _ _

/-- The pattern between `before` and `rest` is reported at `rest`. -/
theorem ofSource_located {before t : Token} {source : String} {after rest : List Token}
    (hblames : ∀ fault, Pattern.ofSource source = .error fault →
      ∃ lag, Blames before t (.badPattern source fault) lag ∧
        rest.length + lag = (t :: after).length) :
    Located (before :: t :: after) (match Pattern.ofSource source with
      | .ok p => pure (p, rest)
      | .error fault => Rule.reject (.badPattern source fault) rest) := by
  split
  · exact .ok _ _
  · obtain ⟨lag, h, hrest⟩ := hblames _ ‹_›
    exact .reject h after hrest

/-- A pattern is reported when it has been read, and so has the parenthesis behind it. -/
theorem patternAt_located (ts : List Token) :
    Located (.word "MATCHES" :: ts) (patternAt (.word "MATCHES") ts) := by
  unfold patternAt
  cases hopen : afterSymbol? .openParen ts with
  | some us =>
    rw [eq_of_afterSymbol? hopen]
    simp only
    split
    case h_1 | h_2 =>
      rename_i source rest
      simp only [pure_bind, if_true]
      refine ((expectSymbol_located _ _ _ _).bind fun vs hclose => ?_).cons _
      obtain rfl := expectSymbol_eq hclose
      refine ofSource_located fun fault hfault => ⟨2, .enclosed (by simp) hfault, ?_⟩
      simp
    case h_3 => exact .expectedAfter _ _ _ _
  | none =>
    simp only
    split
    case h_1 | h_2 =>
      simp only [pure_bind, Bool.false_eq_true, if_false]
      exact ofSource_located fun fault hfault => ⟨1, .pattern (by simp) hfault, by simp⟩
    case h_3 => exact .expectedAfter _ _ _ _

theorem fieldTest_located (field : FieldPath) (negated : Bool) {w : String} (hw : isTest w = true)
    (ts : List Token) : Located (.word w :: ts) (fieldTest field negated w ts) := by
  unfold fieldTest
  split
  · exact .ok _ _
  split
  · rename_i hmatches
    subst hmatches
    exact (patternAt_located ts).map
  · have hcontains : w = "CONTAINS" := by
      simp only [isTest, Bool.or_eq_true, beq_iff_eq] at hw
      tauto
    subst hcontains
    exact (operandAt_located (.inr (.inr (.inl rfl))) ts).map

theorem clauseAt_located {before : Token} (hb : opensOperand before) (ts : List Token) :
    Located (before :: ts) (clauseAt ts) := by
  unfold clauseAt
  refine (operandAt_located hb ts).bind fun ⟨left, rest⟩ hleft => ?_
  have hrest := (readsOperand_of_operandAt hleft).suffix
  refine Located.cons ?_ before
  simp only
  split
  · rename_i s after
    split
    · have hright := operandAt_located (.inr (.inr (.inr ⟨s, rfl⟩))) after
      exact (hright.bind fun _ _ => .ok _ _).of_suffix hrest
    · exact .expected _ _ _
  · split
    · rename_i w after hafter
      -- The word `NOT` is taken up or not; in both cases a suffix is left.
      have hnext : .word w :: after <:+ ts := by
        rw [← hafter]
        exact (List.suffix_append _ _).trans
          ((congrArg (· <:+ ts) (notTokens_append rest)).mpr hrest)
      split
      · rename_i htest
        split
        · exact (fieldTest_located _ _ htest after).of_suffix hnext
        · exact .other rfl _ _
      · exact .other rfl _ _
    · exact .other rfl _ _

theorem moreClauses_located (ts : List Token) : Located ts (moreClauses ts) := by
  induction hn : ts.length using Nat.strong_induction_on generalizing ts with
  | _ n ih =>
    rw [moreClauses]
    split
    · rename_i rest hand
      obtain rfl := afterKeyword?_eq hand
      have hclause := clauseAt_located (.inr (.inl rfl)) rest
      split
      · exact .error (hclause _ ‹_›)
      · rename_i c others hc
        split
        · rename_i hlt
          have hothers := (readsClause_of_clauseAt hc).suffix
          exact (((ih _ (hn ▸ hlt) others rfl).of_suffix hothers).cons _).map
        · exact .ok _ _
    · split
      · exact .other rfl _ _
      · exact .ok _ _

theorem conditionAt_located (ts : List Token) :
    Located (.word "WHEN" :: ts) (conditionAt ts) := by
  refine (clauseAt_located (.inl rfl) ts).bind fun ⟨first, rest⟩ hfirst => ?_
  have hothers := (moreClauses_located rest).of_suffix (readsClause_of_clauseAt hfirst).suffix
  exact (hothers.cons _).bind fun _ _ => .ok _ _

mutual

theorem sum_located (s : Symbol) (ts : List Token) : Located (.symbol s :: ts) (sum ts) := by
  have hproduct := product_located s ts
  rw [sum.eq_def]
  split
  · exact .error (hproduct _ ‹_›)
  · rename_i left hleft
    have := left.shorter
    have htail := (sumTail_located left.value left.rest).of_suffix
      (readsPhrase_of_product ts ⟨left.shorter, hleft⟩).suffix
    split
    · exact .error ((htail.cons _) _ ‹_›)
    · exact .ok _ _
  termination_by (ts.length, 4)

theorem sumTail_located (left : Expr) (ts : List Token) : Located ts (sumTail left ts) := by
  match ts with
  | [] =>
    rw [sumTail.eq_def]
    exact .ok _ _
  | t :: rest =>
    rw [sumTail.eq_def]
    simp only
    split
    · exact .ok _ _
    · rename_i op hop
      obtain ⟨s, rfl⟩ : ∃ s, t = .symbol s := by
        cases t with
        | symbol s => exact ⟨s, rfl⟩
        | _ => cases hop
      have hproduct := product_located s rest
      split
      · exact .error (hproduct _ ‹_›)
      · rename_i right hright
        have := right.shorter
        have htail := (sumTail_located (.binary op left right.value) right.rest).of_suffix
          (readsPhrase_of_product rest ⟨right.shorter, hright⟩).suffix
        split
        · exact .error ((htail.cons _) _ ‹_›)
        · exact .ok _ _
  termination_by (ts.length, 3)

theorem product_located (s : Symbol) (ts : List Token) :
    Located (.symbol s :: ts) (product ts) := by
  have hfactor := factor_located s ts
  rw [product.eq_def]
  split
  · exact .error (hfactor _ ‹_›)
  · rename_i left hleft
    have := left.shorter
    have htail := (productTail_located left.value left.rest).of_suffix
      (readsPhrase_of_factor ts ⟨left.shorter, hleft⟩).suffix
    split
    · exact .error ((htail.cons _) _ ‹_›)
    · exact .ok _ _
  termination_by (ts.length, 2)

theorem productTail_located (left : Expr) (ts : List Token) :
    Located ts (productTail left ts) := by
  match ts with
  | [] =>
    rw [productTail.eq_def]
    exact .ok _ _
  | t :: rest =>
    rw [productTail.eq_def]
    simp only
    split
    · exact .ok _ _
    · rename_i op hop
      obtain ⟨s, rfl⟩ : ∃ s, t = .symbol s := by
        cases t with
        | symbol s => exact ⟨s, rfl⟩
        | _ => cases hop
      have hfactor := factor_located s rest
      split
      · exact .error (hfactor _ ‹_›)
      · rename_i right hright
        have := right.shorter
        have htail := (productTail_located (.binary op left right.value) right.rest).of_suffix
          (readsPhrase_of_factor rest ⟨right.shorter, hright⟩).suffix
        split
        · exact .error ((htail.cons _) _ ‹_›)
        · exact .ok _ _
  termination_by (ts.length, 1)

theorem factor_located (s : Symbol) (ts : List Token) :
    Located (.symbol s :: ts) (factor ts) := by
  rw [factor.eq_def]
  split
  · split
    · exact .ok _ _
    · exact .reject (.value ‹_›) _ rfl
  · rename_i rest
    have hinner := (sum_located .openParen rest).cons (.symbol s)
    split
    · exact .error (hinner _ ‹_›)
    · split
      · exact .ok _ _
      · exact .expected _ _ _
  · exact .ok _ _
  · rename_i rest _
    have hinner := (factor_located .minus rest).cons (.symbol s)
    split
    · exact .error (hinner _ ‹_›)
    · exact .ok _ _
  · exact .ok _ _
  · rename_i w rest
    split
    · exact .ok _ _
    split
    · split
      · exact .error (todayOffset_located _ _ _ ‹_›)
      · exact .ok _ _
    split
    · exact .expected _ _ _
    split
    · rename_i after
      split
      · exact .reject (.call ‹_›) _ rfl
      · split
        · exact .ok _ _
        -- What is wrong inside the parentheses of a call is reported by the arguments.
        · have hargs := ((arguments_located .openParen after).cons (.word w)).cons (.symbol s)
          split
          · exact .error (hargs _ ‹_›)
          · exact .ok _ _
    · split
      · exact .ok _ _
      · exact .reject (.operand (.inr (.inr (.inr ⟨s, rfl⟩))) ‹_›) _ rfl
  · exact .expected _ _ _
  termination_by (ts.length, 0)

theorem arguments_located (s : Symbol) (ts : List Token) :
    Located (.symbol s :: ts) (arguments ts) := by
  have hsum := sum_located s ts
  rw [arguments.eq_def]
  split
  · exact .error (hsum _ ‹_›)
  · rename_i first hfirst
    have hshorter := first.shorter
    split
    · rename_i rest hrest
      have : rest.length < ts.length := by
        rw [hrest, List.length_cons] at hshorter
        omega
      have hothers := arguments_located .comma rest
      rw [← hrest] at hothers
      have hts := hothers.of_suffix (readsPhrase_of_sum ts ⟨first.shorter, hfirst⟩).suffix
      split
      · exact .error ((hts.cons _) _ ‹_›)
      · exact .ok _ _
    · exact .ok _ _
    · exact .expected _ _ _
  termination_by (ts.length, 5)

end

theorem literals_located (ts us : List Token) : Located us (literals ts) := by
  induction hn : ts.length using Nat.strong_induction_on generalizing ts with
  | _ n ih =>
    rw [literals]
    split
    · exact .other rfl _ _
    · rename_i first hfirst
      have hshorter := first.shorter
      split
      · rename_i more hcomma
        rw [eq_of_afterSymbol? hcomma] at hshorter
        exact (ih _ (hn ▸ Nat.lt_of_succ_lt hshorter) more rfl).map
      · exact (expectSymbol_located _ _ _ _).map

theorem nameAt_located (what : String) (ts us : List Token) : Located us (nameAt what ts) := by
  unfold nameAt
  split
  · split
    · exact .expected _ _ _
    · exact .ok _ _
  · split
    · exact .expected _ _ _
    · exact .ok _ _
  · exact .expected _ _ _

theorem handlerAt_located {before : Token} (hb : before = .word "TO" ∨ before = .word "INVOKE")
    (ts : List Token) : Located (before :: ts) (handlerAt ts) := by
  unfold handlerAt
  split
  · split
    · exact .expected _ _ _
    split
    · exact .ok _ _
    · exact .reject (.handler hb ‹_›) _ rfl
  · exact .expected _ _ _

theorem updateAction_located (ts : List Token) :
    Located (.word "UPDATE" :: ts) (updateAction ts) := by
  unfold updateAction
  split
  · rename_i w rest
    split
    · exact .expected _ _ _
    split
    · rw [pure_bind]
      refine (expectSymbol_located _ _ _ _).bind fun after hequal => ?_
      obtain rfl := expectSymbol_eq hequal
      exact (((sum_located .equal after).cons _).cons _).bind fun _ _ => .ok _ _
    · exact .reject (.target ‹_›) _ rfl
  · exact .expectedAfter _ _ _ _

theorem notifyAction_located (ts : List Token) :
    Located (.word "NOTIFY" :: ts) (notifyAction ts) := by
  unfold notifyAction
  split
  · split
    · exact .ok _ _
    · exact .reject (.message ‹_›) _ rfl
  · exact .expectedAfter _ _ _ _

theorem createAction_located (ts : List Token) : Located ts (createAction ts) := by
  refine (nameAt_located _ _ _).bind fun ⟨kind, rest⟩ hkind => ?_
  refine (expectKeyword_located _ _ _).bind fun more hwith => ?_
  obtain rfl := expectKeyword_eq hwith
  refine Located.of_suffix ?_ (readsName_of_nameAt hkind).suffix
  split
  · split
    · exact .reject (.json ‹_›) _ rfl
    · rename_i v hv
      split
      · rename_i hobject
        exact .reject (.object hv (by simpa using hobject)) _ rfl
      split
      · exact .ok _ _
      · exact .reject (.payload hv ‹_›) _ rfl
  · exact .expectedAfter _ _ _ _

theorem sendAction_located (ts : List Token) : Located ts (sendAction ts) := by
  refine (nameAt_located _ _ _).bind fun ⟨subject, rest⟩ hsubject => ?_
  refine (expectKeyword_located _ _ _).bind fun more hto => ?_
  obtain rfl := expectKeyword_eq hto
  have hhandler := handlerAt_located (.inl rfl) more
  exact (hhandler.bind fun _ _ => .ok _ _).of_suffix (readsName_of_nameAt hsubject).suffix

theorem invokeAction_located (ts : List Token) :
    Located (.word "INVOKE" :: ts) (invokeAction ts) := by
  refine (handlerAt_located (.inr rfl) ts).bind fun ⟨handler, rest⟩ _ => ?_
  simp only
  split
  · exact .ok _ _
  split
  · exact .ok _ _
  · exact (literals_located _ _).bind fun _ _ => .ok _ _

theorem actionAt_located (ts : List Token) : Located ts (actionAt ts) := by
  unfold actionAt
  split
  · exact updateAction_located _
  · exact notifyAction_located _
  · exact .ok _ _
  · exact (createAction_located _).cons _
  · exact (sendAction_located _).cons _
  · exact invokeAction_located _
  · exact .ok _ _
  · exact .other rfl _ _

theorem actionsAt_located (ts : List Token) : Located ts (actionsAt ts) := by
  induction hn : ts.length using Nat.strong_induction_on generalizing ts with
  | _ n ih =>
    cases ts with
    | nil =>
      rw [actionsAt]
      exact .ok _ _
    | cons t us =>
      have haction := actionAt_located (t :: us)
      rw [actionsAt]
      split
      · exact .error (haction _ ‹_›)
      · rename_i a rest ha
        -- What is left after an action is a suffix, so that a later report is one of these tokens.
        have hrest := (readsAction_of_actionAt ha).suffix
        split
        · rename_i hlt
          split
          · rename_i after hcomma
            obtain rfl := eq_of_afterSymbol? hcomma
            split
            · exact .other rfl _ _
            split
            · rename_i hlt'
              exact (((ih _ (hn ▸ hlt') after rfl).cons _).of_suffix hrest).map
            · exact .ok _ _
          · split
            · exact .ok _ _
            split
            · exact ((ih _ (hn ▸ hlt) rest rfl).of_suffix hrest).map
            · exact .expected _ _ _
        · exact .ok _ _

/-- What is wrong with the content of a token of a statement is reported where it should be. -/
theorem statement_located (line : Nat) (ts : List Token) : Located ts (statement line ts) := by
  refine (expectKeyword_located _ _ _).bind fun rest hif => ?_
  obtain rfl := expectKeyword_eq hif
  refine (eventAt_located (.inl rfl) rest).bind fun first hfirst => ?_
  have hevents := (readsEvent_of_eventAt hfirst).suffix
  refine (((moreEvents_located first.rest).of_suffix hevents).cons _).bind fun more hmore => ?_
  obtain ⟨others, more⟩ := more
  refine (entityAt_located _ _).bind fun after hentity => ?_
  obtain ⟨entity, after⟩ := after
  have hentities := (readsEvents_of_moreEvents hmore).suffix.trans hevents
  have hafter := (readsEntity_of_entityAt hentity).suffix.trans hentities
  refine Located.cons (Located.of_suffix ?_ hafter) _
  -- Whether there is a condition or not, actions take up the rest.
  have hactions {us ending : List Token} (hthen : afterKeyword? "THEN" ending = some us)
      (f : List Action → Rule) :
      Located ending (do let actions ← actionsAt us; pure (f actions)) := by
    obtain rfl := afterKeyword?_eq hthen
    exact ((actionsAt_located us).cons _).bind fun _ _ => .ok _ _
  simp only
  split
  · rename_i us hwhen
    obtain rfl := afterKeyword?_eq hwhen
    refine (conditionAt_located us).bind fun ending hcondition => ?_
    obtain ⟨clauses, ending⟩ := ending
    refine Located.of_suffix ?_ (readsCondition_of_conditionAt hcondition).suffix
    simp only [pure_bind]
    split
    · exact .expected _ _ _
    · exact hactions ‹_› _
  · simp only [pure_bind]
    split
    · exact .expected _ _ _
    · exact hactions ‹_› _

section

variable {front front' after after' : List Token} {before before' t t' : Token} {fault : Fault}
  {lag lag' remaining : Nat}

/-- A token that is reported later than another one at the same place stands before it. -/
theorem eq_before (h : front ++ before :: t :: after = front' ++ before' :: t' :: after')
    (hr : remaining + lag = (t :: after).length)
    (hr' : remaining + (lag + 1) = (t' :: after').length) : t' = before := by
  have hsplit : front ++ before :: (t :: after) = (front' ++ [before']) ++ t' :: after' := by
    rw [h]
    simp
  have hlength : (before :: t :: after).length = (t' :: after').length := by
    rw [List.length_cons]
    omega
  exact (List.cons.inj (List.append_inj' hsplit hlength).2).1.symm

/-- What may stand before a token that is reported early is not reported late with the same
fault. -/
theorem Blames.not_before (h : Blames before t fault lag)
    (h' : Blames before' before fault (lag + 1)) : False := by
  cases h with
  | operand hb hw =>
    cases h' with
    | target hw' =>
      obtain hb | hb | hb | ⟨s, hb⟩ := hb <;> cases hb
      all_goals exact absurd hw' (by decide)
  | value => cases h'
  | pattern ht =>
    cases h' with
    | enclosed ht' => simp at ht'
  | _ => cases h'

/-- A fault and the place where it is reported tell which token it is about. -/
theorem Blames.unique (h : Blames before t fault lag) (h' : Blames before' t' fault lag')
    (hts : front ++ before :: t :: after = front' ++ before' :: t' :: after')
    (hr : remaining + lag = (t :: after).length) (hr' : remaining + lag' = (t' :: after').length) :
    after = after' ∧ lag = lag' := by
  have hlags : lag = lag' ∨ lag' = lag + 1 ∨ lag = lag' + 1 := by
    cases h <;> cases h' <;> simp
  obtain rfl | rfl | rfl := hlags
  · have hlength : (before :: t :: after).length = (before' :: t' :: after').length := by
      simp only [List.length_cons] at hr hr' ⊢
      omega
    exact ⟨(List.cons.inj (List.cons.inj (List.append_inj' hts hlength).2).2).2, rfl⟩
  · obtain rfl := eq_before hts hr hr'
    exact (h.not_before h').elim
  · obtain rfl := eq_before hts.symm hr' hr
    exact (h'.not_before h).elim

end

end Bylaw.Rule
