import Bylaw.Proofs.Engine.Batch
import Bylaw.Proofs.Engine.Order
import Bylaw.Proofs.Run.Ending

/-! Where the run of a record ends. An action ends it by saying so, or by a call that is answered
with the terminal status. Main statement: a record is terminated exactly if the run comes to such an
action, and nothing that stands after it, in its rule or in later rules, makes a difference. -/

namespace Bylaw

variable {σ : Type}

/-- The rule with other actions. -/
def Rule.withActions (rule : Rule) (actions : List Action) : Rule := { rule with actions }

theorem Rule.withActions_eq_self {rule : Rule} {actions : List Action}
    (h : rule.actions = actions) :
    rule.withActions actions = rule := by rw [← h, withActions]

namespace Action

/-- The calls that an action waits for. -/
def awaited (ctx : Context σ) (draft : Draft) (s : Session σ) : Action → Trail σ
  | .update _ value => (value.eval ctx draft.record s.trail).2
  | .create kind payload =>
    (s.trail.call ctx.catalog (ctx.invocation createHandler draft.record
      (.ofFields [("kind", .str kind), ("data", payload.render draft.record)]))).2
  | .invoke handler args =>
    (s.trail.call ctx.catalog (ctx.invocation handler draft.record (.arr args))).2
  | _ => s.trail

/-- Whether an action ends the run of a record: it is the one that says so, or it waits for a call
that is answered with the terminal status. -/
def Ends (ctx : Context σ) (draft : Draft) (s : Session σ) : Action → Prop
  | .stop => True
  | action => ∃ p ∈ (action.awaited ctx draft s).patches, p.isTerminal = true

end Action

section

variable {ctx : Context σ} {draft : Draft} {s : Session σ}

/-- Calls that answer the terminal status end a run that has not ended, and only those do. -/
theorem Session.verdictAfter_absorb (h : s.reply.terminated = false) (trail : Trail σ) :
    s.verdictAfter (s.absorb trail) =
      if trail.patches.any Patch.isTerminal then .terminate else .proceed := by
  simp [verdictAfter, absorb, Reply.terminated_merge, h]

theorem ActionError.verdict_eq_terminate {e : ActionError} {otherwise : Verdict}
    (h : e.verdict otherwise = .terminate) : otherwise = .terminate := by
  cases e with
  | unknownHandler name => cases h
  | _ => exact h

theorem ActionError.verdict_ne_proceed {e : ActionError} {otherwise : Verdict}
    (h : otherwise ≠ .proceed) : e.verdict otherwise ≠ .proceed := by
  cases e with
  | unknownHandler name => simp [verdict]
  | _ => exact h

theorem Action.ends_of_verdict {action : Action} (h : s.reply.terminated = false)
    (hv : (action.perform ctx draft s).verdict = .terminate) : action.Ends ctx draft s := by
  -- Calls end the run by answering a terminal patch, and an action that waits for none does not.
  have hcalls {trail : Trail σ} (hv : s.verdictAfter (s.absorb trail) = .terminate) :
      ∃ p ∈ trail.patches, p.isTerminal = true := by
    rw [Session.verdictAfter_absorb h] at hv
    split at hv
    · rename_i hany
      exact List.any_eq_true.mp hany
    · cases hv
  have hawait {handler : String} {params : Json}
      (hv : (ctx.await handler params draft s).verdict = .terminate) :
      ∃ p ∈ (s.trail.call ctx.catalog (ctx.invocation handler draft.record params)).2.patches,
        p.isTerminal = true := by
    simp only [Context.await] at hv
    split at hv
    · exact hcalls hv
    · cases ActionError.verdict_eq_terminate hv
  have hdetach {handler : String} {params : Json} :
      (ctx.detach handler params draft s).verdict ≠ .terminate := by
    unfold Context.detach
    split <;> simp
  cases action with
  | update field value =>
    simp only [perform, Context.setField] at hv
    split at hv
    · exact hcalls hv
    · exact hcalls (ActionError.verdict_eq_terminate hv)
  | notify message => exact absurd hv hdetach
  | delete => cases hv
  | create kind payload => exact hawait hv
  | send subject handler => exact absurd hv hdetach
  | invoke handler args => exact hawait hv
  | stop => trivial

theorem Action.Ends.verdict_ne {action : Action} (h : s.reply.terminated = false)
    (he : action.Ends ctx draft s) : (action.perform ctx draft s).verdict ≠ .proceed := by
  have hcalls {trail : Trail σ} (ht : ∃ p ∈ trail.patches, p.isTerminal = true) :
      s.verdictAfter (s.absorb trail) ≠ .proceed := by
    rw [Session.verdictAfter_absorb h, if_pos (List.any_eq_true.mpr ht)]
    simp
  have hnone : ¬∃ p ∈ s.trail.patches, p.isTerminal = true := by simp [Session.trail]
  have hawait {handler : String} {params : Json}
      (ht : ∃ p ∈ (s.trail.call ctx.catalog
        (ctx.invocation handler draft.record params)).2.patches, p.isTerminal = true) :
      (ctx.await handler params draft s).verdict ≠ .proceed := by
    simp only [Context.await]
    split
    · exact hcalls ht
    · -- A call that fails answers no patch.
      rename_i e hfails
      rw [Trail.patches_call_of_error hfails] at ht
      exact absurd ht hnone
  cases action with
  | update field value =>
    simp only [perform, Context.setField]
    split
    · exact hcalls he
    · exact ActionError.verdict_ne_proceed (hcalls he)
  | notify message => exact absurd he hnone
  | delete => exact absurd he hnone
  | create kind payload => exact hawait he
  | send subject handler => exact absurd he hnone
  | invoke handler args => exact hawait he
  | stop => simp [perform]

theorem Action.performAll_append {ran : List Action}
    (h : (performAll ctx ran draft s).verdict = .proceed) (rest : List Action) :
    performAll ctx (ran ++ rest) draft s =
      performAll ctx rest (performAll ctx ran draft s).draft
        (performAll ctx ran draft s).session := by
  induction ran generalizing draft s with
  | nil => rfl
  | cons action ran ih =>
    simp only [List.cons_append, performAll] at h ⊢
    split at h
    · exact ih h
    · cases h
    · cases h

/-- An action after which the run does not go on is as good as the last one. -/
theorem Action.performAll_cons_of_ne {action : Action}
    (h : (action.perform ctx draft s).verdict ≠ .proceed) (more : List Action) :
    performAll ctx (action :: more) draft s = performAll ctx [action] draft s ∧
      (performAll ctx [action] draft s).verdict ≠ .proceed := by
  simp only [performAll]
  split
  · rename_i hv
    exact absurd hv h
  · exact ⟨rfl, by simp⟩
  · exact ⟨rfl, by simp⟩

/-- A rule after which the run does not go on is as good as the last one. -/
theorem Run.ofRules_cons_of_over {rule : Rule} (hm : rule.isMatch (ctx.scope draft.record) = true)
    (h : (rule.perform ctx draft s).verdict ≠ .proceed) (rest : List Rule) :
    ofRules ctx (rule :: rest) draft s = ⟨rule.perform ctx draft s, 1⟩ := by
  rw [ofRules, if_pos hm]
  dsimp only
  split
  · rename_i hv
    exact absurd hv h
  · rfl

theorem Run.ofRules_append {before : List Rule}
    (h : (ofRules ctx before draft s).verdict = .proceed) (rest : List Rule) :
    let run := ofRules ctx before draft s
    let more := ofRules ctx rest run.draft run.session
    ofRules ctx (before ++ rest) draft s = { more with matched := more.matched + run.matched } := by
  induction before generalizing draft s with
  | nil => rfl
  | cons rule before ih =>
    simp only [List.cons_append, ofRules] at h ⊢
    by_cases hm : rule.isMatch (ctx.scope draft.record) = true
    · simp only [if_pos hm] at h ⊢
      split at h
      · rename_i hv
        rw [ih h]
        rfl
      · rename_i hv
        exact absurd h hv
    · simp only [if_neg hm] at h ⊢
      exact ih h

end

/-- The run of a record goes on after the rules `before`, then comes to a rule that matches, goes on
after the actions `ran` of that rule, and is ended by the next one. -/
structure Run.EndsAt (ctx : Context σ) (draft : Draft) (s : Session σ) (before : List Rule)
    (rule : Rule) (ran : List Action) (action : Action) : Prop where
  comes : (ofRules ctx before draft s).verdict = .proceed
  isMatch : rule.isMatch (ctx.scope (ofRules ctx before draft s).draft.record) = true
  goesOn : (Action.performAll ctx ran (ofRules ctx before draft s).draft
    (ofRules ctx before draft s).session).verdict = .proceed
  ends : action.Ends ctx
    (Action.performAll ctx ran (ofRules ctx before draft s).draft
      (ofRules ctx before draft s).session).draft
    (Action.performAll ctx ran (ofRules ctx before draft s).draft
      (ofRules ctx before draft s).session).session

theorem Step.Settled.of_proceed {step : Step σ} (h : step.Settled) (hv : step.verdict = .proceed) :
    step.session.reply.terminated = false ∧ step.draft.terminated = false := by
  simpa only [Settled, hv] using h

/-- After a settled step for which no handler was missing, the reply is terminated exactly if the
run is over. -/
theorem Step.Settled.terminated_iff {step : Step σ} (h : step.Settled)
    (hk : ∀ name, step.verdict ≠ .unknown name) :
    step.session.reply.terminated = true ↔ step.verdict = .terminate := by
  unfold Settled at h
  split at h <;> rename_i hv
  · simp [h.1, hv]
  · simp [h.1, hv]
  · exact absurd hv (hk _)

section

variable {ctx : Context σ} {draft : Draft} {s : Session σ}

/-- A run that ends at an action is over there, and is the same whatever stands after that action
and after its rule. -/
theorem Run.EndsAt.ofRules_eq {before : List Rule} {rule : Rule} {ran : List Action}
    {action : Action} (h : EndsAt ctx draft s before rule ran action)
    (hs : s.reply.terminated = false) (hd : draft.terminated = false) :
    ∃ run : Run σ, run.verdict ≠ .proceed ∧ ∀ more later,
      ofRules ctx (before ++ rule.withActions (ran ++ action :: more) :: later) draft s =
        run := by
  let first := ofRules ctx before draft s
  let next := Action.performAll ctx ran first.draft first.session
  -- Nothing before the action has terminated the reply, so the verdict hangs on the action.
  have hfirst := (ofRules_settled hs before hd).of_proceed h.comes
  have hnext := (Action.performAll_settled hfirst.1 ran hfirst.2).of_proceed h.goesOn
  have hne := h.ends.verdict_ne hnext.1
  let ended := Action.performAll ctx [action] next.draft next.session
  have hended : ended.verdict ≠ .proceed := (Action.performAll_cons_of_ne hne []).2
  refine ⟨⟨ended, 1 + first.matched⟩, hended, fun more later => ?_⟩
  have hperform : (rule.withActions (ran ++ action :: more)).perform ctx first.draft
      first.session = ended :=
    (Action.performAll_append h.goesOn _).trans (Action.performAll_cons_of_ne hne more).1
  have hmatch : (rule.withActions (ran ++ action :: more)).isMatch
      (ctx.scope first.draft.record) = true := h.isMatch
  rw [ofRules_append h.comes, ofRules_cons_of_over hmatch (by rwa [hperform]), hperform]

theorem Action.exists_ends {actions : List Action} (hs : s.reply.terminated = false)
    (h : (performAll ctx actions draft s).verdict = .terminate) :
    ∃ ran action more, actions = ran ++ action :: more ∧
      (performAll ctx ran draft s).verdict = .proceed ∧
      action.Ends ctx (performAll ctx ran draft s).draft (performAll ctx ran draft s).session := by
  induction actions generalizing draft s with
  | nil => cases h
  | cons first rest ih =>
    have hfirst : (first.perform ctx draft s).Decided := first.perform_decided hs draft
    simp only [performAll] at h
    split at h
    · rename_i hv
      simp only [Step.Decided, hv] at hfirst
      obtain ⟨ran, action, more, rfl, hran, hends⟩ := ih hfirst h
      refine ⟨first :: ran, action, more, rfl, ?_, ?_⟩
      · simpa only [performAll, hv] using hran
      · simpa only [performAll, hv] using hends
    · rename_i hv
      exact ⟨[], first, rest, rfl, rfl, ends_of_verdict hs hv⟩
    · cases h

theorem Run.exists_endsAt {rules : List Rule} (hs : s.reply.terminated = false)
    (hd : draft.terminated = false) (h : (ofRules ctx rules draft s).verdict = .terminate) :
    ∃ before rule after ran action more, rules = before ++ rule :: after ∧
      rule.actions = ran ++ action :: more ∧ EndsAt ctx draft s before rule ran action := by
  induction rules generalizing draft s with
  | nil => cases h
  | cons first rest ih =>
    -- A rule that goes on, or does not match, stands before the one looked for.
    by_cases hm : first.isMatch (ctx.scope draft.record) = true
    · simp only [ofRules, if_pos hm] at h
      split at h
      · rename_i hv
        have hfirst := (Action.performAll_settled hs first.actions hd).of_proceed hv
        obtain ⟨before, rule, after, ran, action, more, rfl, hactions, hends⟩ :=
          ih hfirst.1 hfirst.2 h
        refine ⟨first :: before, rule, after, ran, action, more, rfl, hactions, ?_⟩
        constructor <;> simp only [ofRules, if_pos hm, hv]
        · exact hends.comes
        · exact hends.isMatch
        · exact hends.goesOn
        · exact hends.ends
      · obtain ⟨ran, action, more, hactions, hran, hends⟩ := Action.exists_ends hs h
        exact ⟨[], first, rest, ran, action, more, rfl, hactions, rfl, hm, hran, hends⟩
    · simp only [ofRules, if_neg hm] at h
      obtain ⟨before, rule, after, ran, action, more, rfl, hactions, hends⟩ := ih hs hd h
      refine ⟨first :: before, rule, after, ran, action, more, rfl, hactions, ?_⟩
      constructor <;> simp only [ofRules, if_neg hm]
      · exact hends.comes
      · exact hends.isMatch
      · exact hends.goesOn
      · exact hends.ends

end

/-- Whether a rule is for the event and the entity of an occasion. -/
def Occasion.asks (occasion : Occasion) (rule : Rule) : Bool :=
  rule.entity = occasion.entity && rule.firesOn occasion.event

namespace Engine

variable {engine : Engine σ} {occasion : Occasion} {world : σ}

/-- Among all rules, those before a rule that is asked are asked before it. -/
theorem rulesFor_middle (engine : Engine σ) (before : List Rule) {rule : Rule}
    (h : occasion.asks rule = true) (after : List Rule) (version : Nat) :
    (engine.withRules (before ++ rule :: after) version).rulesFor occasion =
      before.filter occasion.asks ++ rule :: after.filter occasion.asks := by
  rw [rulesFor_withRules]
  show (before ++ rule :: after).filter occasion.asks = _
  rw [List.filter_append, List.filter_cons_of_pos h]

/-- The run of a record comes to a rule that is asked, which stands after the rules `before`, goes
on after its actions `ran`, and is ended by the next one. -/
structure EndsAt (engine : Engine σ) (occasion : Occasion) (world : σ) (record : Json)
    (before : List Rule) (rule : Rule) (ran : List Action) (action : Action) : Prop where
  asks : occasion.asks rule = true
  run : Run.EndsAt (engine.context occasion) { record } { world } (before.filter occasion.asks)
    rule ran action

/-- A run that is ended is ended at an action of one of all the rules. -/
theorem exists_endsAt {rules : List Rule} {version : Nat} {record : Json}
    (h : (Run.ofRecord (engine.context occasion)
      ((engine.withRules rules version).rulesFor occasion) record { world }).verdict = .terminate) :
    ∃ before rule after ran action more, rules = before ++ rule :: after ∧
      rule.actions = ran ++ action :: more ∧
      engine.EndsAt occasion world record before rule ran action := by
  obtain ⟨before, rule, after, ran, action, more, hasked, hactions, hends⟩ :=
    Run.exists_endsAt rfl rfl h
  rw [rulesFor_withRules] at hasked
  change rules.filter occasion.asks = _ at hasked
  obtain ⟨first, last, rfl, rfl, hlast⟩ := List.filter_eq_append_iff.mp hasked
  obtain ⟨skipped, rest, rfl, hskipped, hrule, -⟩ := List.filter_eq_cons_iff.mp hlast
  have hnone : skipped.filter occasion.asks = [] :=
    List.filter_eq_nil_iff.mpr fun r hr => hskipped r hr
  refine ⟨first ++ skipped, rule, rest, ran, action, more, (List.append_assoc _ _ _).symm, hactions,
    hrule, ?_⟩
  rwa [List.filter_append, hnone, List.append_nil]

/-- What a run that ends at an action comes to does not hang on what stands after it. -/
theorem EndsAt.process_eq {record : Json} {before : List Rule} {rule : Rule} {ran : List Action}
    {action : Action} (h : engine.EndsAt occasion world record before rule ran action)
    (ha : record.isArray = false) (version other : Nat) (more actions : List Action)
    (after later : List Rule) :
    let whole := before ++ rule.withActions (ran ++ action :: more) :: after
    let replaced := before ++ rule.withActions (ran ++ action :: actions) :: later
    (engine.withRules replaced other).process occasion record world =
      (engine.withRules whole version).process occasion record world := by
  intro whole replaced
  obtain ⟨run, -, hrun⟩ := h.run.ofRules_eq rfl rfl
  -- Which rules are asked does not depend on their actions.
  have hasks (actions : List Action) : occasion.asks (rule.withActions actions) = true := h.asks
  rw [process_single ha, process_single ha]
  simp only [processRecord, whole, replaced, rulesFor_middle engine before (hasks _), Run.ofRecord]
  have hcontext (rules : List Rule) (version : Nat) :
      (engine.withRules rules version).context occasion = engine.context occasion := rfl
  rw [hcontext, hcontext, hrun, hrun]

/-- A record is terminated exactly if its run comes to an action that ends it. Everything that
stands after that action, in its rule and after its rule, may be replaced: the record, what was
counted, the reply and the calls come out the same. -/
theorem process_ending (engine : Engine σ) (rules : List Rule) (version : Nat)
    {occasion : Occasion} {record : Json} (ha : record.isArray = false) {world : σ} {o : Outcome}
    (h : ((engine.withRules rules version).process occasion record world).outcome = .ok o) :
    (o.isTerminated = true ↔ ∃ before rule after ran action more,
      rules = before ++ rule :: after ∧ rule.actions = ran ++ action :: more ∧
        engine.EndsAt occasion world record before rule ran action) ∧
    ∀ before rule after ran action more, rules = before ++ rule :: after →
      rule.actions = ran ++ action :: more →
      engine.EndsAt occasion world record before rule ran action →
      ∀ actions later other,
        (engine.withRules (before ++ rule.withActions (ran ++ action :: actions) :: later)
          other).process occasion record world =
        (engine.withRules rules version).process occasion record world := by
  obtain ⟨hknown, rfl⟩ := (alone_eq_ok_iff ha o).mp h
  have hsettled : (Run.ofRecord (engine.context occasion)
      ((engine.withRules rules version).rulesFor occasion) record { world }).toStep.Settled :=
    Run.ofRules_settled rfl _ rfl
  have hiff := hsettled.terminated_iff hknown
  refine ⟨hiff.trans ⟨exists_endsAt, ?_⟩, ?_⟩
  · rintro ⟨before, rule, after, ran, action, more, rfl, hactions, hends⟩
    obtain ⟨run, hover, hrun⟩ := hends.run.ofRules_eq rfl rfl
    have hasked := hrun more (after.filter occasion.asks)
    rw [Rule.withActions_eq_self hactions,
      ← rulesFor_middle engine before hends.asks after version] at hasked
    have hk : ∀ name, run.verdict ≠ .unknown name := by
      rw [← hasked]
      exact hknown
    rw [Run.ofRecord, hasked]
    cases hv : run.verdict with
    | proceed => exact absurd hv hover
    | terminate => rfl
    | unknown name => exact absurd hv (hk name)
  · rintro before rule after ran action more rfl hactions hends actions later other
    have heq := hends.process_eq ha version other more actions after later
    rwa [Rule.withActions_eq_self hactions] at heq

/-- An update that calls a handler for the end of the run, and then has no value to set. -/
def dividing : Action :=
  .update ⟨["share"], by decide, by decide⟩
    (.binary .div (.call "respond" [.literal (.ofNat 1000)]) (.literal (.ofNat 0)))

/-- Leads are closed by a failing update, after which a field would be set. -/
def closing : Rule where
  entity := "leads"
  events := [.get]
  condition := none
  actions := [dividing, .update ⟨["closed"], by decide, by decide⟩ (.literal (.bool true))]
  line := 3

theorem process_ending_dividing :
    let record := Json.obj [("score", .ofNat 3)]
    let engine := answering.withRules [ranking, closing, marking] 1
    record.isArray = false ∧ answering.EndsAt readingLeads () record [ranking] closing [] dividing ∧
      ∃ o, (engine.process readingLeads record ()).outcome = .ok o ∧ o.isTerminated = true ∧
        ∀ actions later,
          (answering.withRules (ranking :: closing.withActions (dividing :: actions) :: later)
            2).process readingLeads record () = engine.process readingLeads record () := by
  intro record engine
  have hends : answering.EndsAt readingLeads () record [ranking] closing [] dividing :=
    ⟨rfl, rfl, rfl, rfl, { status := some 1000 }, List.mem_singleton_self _, rfl⟩
  obtain ⟨o, ho⟩ : ∃ o, (engine.process readingLeads record ()).outcome = .ok o := ⟨_, rfl⟩
  obtain ⟨hiff, hreplace⟩ := process_ending answering [ranking, closing, marking] 1 rfl ho
  refine ⟨rfl, hends, o, ho, ?_, fun actions later => ?_⟩
  · exact hiff.mpr ⟨[ranking], closing, [marking], [], dividing, _, rfl, rfl, hends⟩
  · exact hreplace [ranking] closing [marking] [] dividing _ rfl rfl hends actions later 2

end Engine

end Bylaw
