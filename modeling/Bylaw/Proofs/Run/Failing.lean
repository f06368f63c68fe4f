import Bylaw.Handlers
import Bylaw.Proofs.Run.Ending

/-! Calls that fail. An action whose call fails, other than for want of a handler, leaves no trace
but the call. Main statement: where answers do not hang on the world, such actions can be left out
of a rule, and it comes to the same. -/

namespace Bylaw

variable {σ : Type}

/-- An error that a run goes on after. -/
def ActionError.IsRecoverable : ActionError → Prop
  | .unknownHandler _ => False
  | _ => True

theorem ActionError.IsRecoverable.verdict {e : ActionError} (h : e.IsRecoverable)
    (otherwise : Verdict) : e.verdict otherwise = otherwise := by
  cases e with
  | unknownHandler name => exact h.elim
  | _ => rfl

namespace Action

/-- The call that an action consists of, if it waits for the answer. -/
def request? (ctx : Context σ) (record : Json) : Action → Option Invocation
  | .create kind payload =>
    some (ctx.invocation createHandler record
      (.ofFields [("kind", .str kind), ("data", payload.render record)]))
  | .invoke handler args => some (ctx.invocation handler record (.arr args))
  | _ => none

/-- An action consists of a call that fails, but not for want of a handler. -/
def Fails (ctx : Context σ) (record : Json) (world : σ) (action : Action) : Prop :=
  ∃ inv ∈ action.request? ctx record, ∃ e, (ctx.catalog.call inv world).1 = .error e ∧
    e.IsRecoverable

end Action

/-- Sessions with the same reply and the same calls set aside. -/
structure Session.Alike (s t : Session σ) : Prop where
  reply : s.reply = t.reply
  detached : s.detached = t.detached

/-- Steps that come to the same but for the calls that were made. -/
structure Step.Alike (x y : Step σ) : Prop where
  draft : x.draft = y.draft
  verdict : x.verdict = y.verdict
  session : x.session.Alike y.session

namespace Session

variable {s t u : Session σ}

theorem Alike.refl (s : Session σ) : s.Alike s := ⟨rfl, rfl⟩

theorem Alike.trans (h : s.Alike t) (h' : t.Alike u) : s.Alike u :=
  ⟨h.reply.trans h'.reply, h.detached.trans h'.detached⟩

theorem Alike.terminated (h : s.Alike t) : s.reply.terminated = t.reply.terminated :=
  congrArg Reply.terminated h.reply

theorem Alike.reply_absorb (h : s.Alike t) {after after' : Trail σ}
    (hp : Trail.Parallel s.trail after t.trail after') :
    (s.absorb after).reply = (t.absorb after').reply := by
  obtain ⟨more, hpatches, hpatches'⟩ := hp.patches
  simp only [trail, List.nil_append] at hpatches hpatches'
  simp only [absorb, hpatches, hpatches', h.reply]

end Session

section

variable {ctx : Context σ} {s t : Session σ}

theorem Context.reply_detach (ctx : Context σ) (handler : String) (params : Json) (draft : Draft)
    (s : Session σ) : (ctx.detach handler params draft s).session.reply = s.reply := by
  rw [detach]
  split <;> rfl

theorem Action.reply_perform (hs : ctx.catalog.Stateless) (draft : Draft) (h : s.Alike t)
    (action : Action) :
    (action.perform ctx draft s).session.reply = (action.perform ctx draft t).session.reply := by
  cases action with
  | update field value =>
    simp only [perform, Context.session_setField]
    exact h.reply_absorb (value.eval_parallel hs draft.record s.trail t.trail).2
  | notify message => simp only [perform, Context.reply_detach, h.reply]
  | delete => exact h.reply
  | create kind payload =>
    simp only [perform, Context.session_await]
    exact h.reply_absorb (Trail.call_parallel hs _ s.trail t.trail).2
  | send subject handler => simp only [perform, Context.reply_detach, h.reply]
  | invoke handler args =>
    simp only [perform, Context.session_await]
    exact h.reply_absorb (Trail.call_parallel hs _ s.trail t.trail).2
  | stop => exact congrArg Reply.terminate h.reply

theorem Action.perform_alike (hs : ctx.catalog.Stateless) (draft : Draft) (h : s.Alike t)
    (action : Action) : (action.perform ctx draft s).Alike (action.perform ctx draft t) := by
  have hagrees := action.perform_agrees hs draft h.terminated
  obtain ⟨more, hmore, hmore'⟩ := (action.perform_parallel hs draft s t).detached
  exact ⟨hagrees.draft, hagrees.verdict, action.reply_perform hs draft h, by
    rw [hmore, hmore', h.detached]⟩

/-- A call that fails is made, and that is all. -/
theorem Context.await_of_fails {handler : String} {params : Json} {draft : Draft} {e : ActionError}
    (h : (ctx.catalog.call (ctx.invocation handler draft.record params) s.world).1 = .error e)
    (he : e.IsRecoverable) :
    (ctx.await handler params draft s).verdict = .proceed ∧
      (ctx.await handler params draft s).draft = draft ∧
      (ctx.await handler params draft s).session.Alike s := by
  have hanswer :
      (s.trail.call ctx.catalog (ctx.invocation handler draft.record params)).1 = .error e := by
    cases hc : ctx.catalog.contains handler with
    | true =>
      rw [Trail.call_of_contains hc]
      exact congrArg (Except.map Output.value) h
    | false =>
      have hnone : ctx.catalog.find? handler = none :=
        Option.isNone_iff_eq_none.mp (Option.isSome_eq_false_iff.mp hc)
      rw [Catalog.call, invocation, hnone] at h
      rw [← Except.error.inj h] at he
      exact he.elim
  have hpatches := Trail.patches_call_of_error hanswer
  simp only [await, hanswer, he.verdict]
  exact ⟨trivial, trivial, by rw [Session.absorb, hpatches]; rfl, rfl⟩

theorem Action.Fails.perform {action : Action} {draft : Draft}
    (h : action.Fails ctx draft.record s.world) :
    (action.perform ctx draft s).verdict = .proceed ∧ (action.perform ctx draft s).draft = draft ∧
      (action.perform ctx draft s).session.Alike s := by
  obtain ⟨inv, hinv, e, hcall, he⟩ := h
  cases action with
  | create kind payload =>
    obtain rfl := Option.some.inj hinv
    exact Context.await_of_fails hcall he
  | invoke handler args =>
    obtain rfl := Option.some.inj hinv
    exact Context.await_of_fails hcall he
  | _ => cases hinv

end

namespace Action

/-- All of the actions, those that are marked among them. -/
def all (marked : List (Action × Bool)) : List Action := marked.map Prod.fst

/-- The actions that are not marked. -/
def unmarked (marked : List (Action × Bool)) : List Action :=
  (marked.filter fun entry => !entry.2).map Prod.fst

/-- Each marked action that the run of all of them comes to fails there. -/
def FailWhereMarked (ctx : Context σ) (marked : List (Action × Bool)) (draft : Draft)
    (s : Session σ) : Prop :=
  ∀ before action after, marked = before ++ (action, true) :: after →
    let reached := performAll ctx (all before) draft s
    reached.verdict = .proceed → action.Fails ctx reached.draft.record reached.session.world

section

variable {ctx : Context σ} {s t : Session σ} {draft : Draft}

theorem FailWhereMarked.nil : FailWhereMarked ctx [] draft s :=
  fun before _ _ h =>
    absurd h.symm (List.append_ne_nil_of_right_ne_nil before (List.cons_ne_nil _ _))

theorem failWhereMarked_cons {action : Action} {leftOut : Bool} {rest : List (Action × Bool)} :
    FailWhereMarked ctx ((action, leftOut) :: rest) draft s ↔
      (leftOut = true → action.Fails ctx draft.record s.world) ∧
        ((action.perform ctx draft s).verdict = .proceed →
          FailWhereMarked ctx rest (action.perform ctx draft s).draft
            (action.perform ctx draft s).session) := by
  constructor
  · intro h
    refine ⟨?_, fun hv before other after hrest => ?_⟩
    · rintro rfl
      exact h [] action rest rfl rfl
    · have hwhole := h ((action, leftOut) :: before) other after (congrArg _ hrest)
      simpa only [all, List.map_cons, performAll, hv] using hwhole
  · rintro ⟨hfirst, hrest⟩ before other after hmarked
    cases before with
    | nil =>
      obtain ⟨heq, rfl⟩ := List.cons.inj hmarked
      obtain ⟨rfl, rfl⟩ := Prod.mk.inj heq
      exact fun _ => hfirst rfl
    | cons entry before =>
      obtain ⟨rfl, hafter⟩ := List.cons.inj hmarked
      simp only [all, List.map_cons, performAll]
      cases hv : (action.perform ctx draft s).verdict with
      | proceed => exact hrest hv before other after hafter
      | _ =>
        intro h
        cases h

/-- In a session that is alike, the run without the marked actions comes to what the run of all
comes to. -/
theorem performAll_unmarked (hs : ctx.catalog.Stateless) {marked : List (Action × Bool)}
    (hf : FailWhereMarked ctx marked draft s) (h : t.Alike s) :
    (performAll ctx (unmarked marked) draft t).Alike (performAll ctx (all marked) draft s) := by
  induction marked generalizing draft s t with
  | nil => exact ⟨rfl, rfl, h⟩
  | cons entry rest ih =>
    obtain ⟨action, leftOut⟩ := entry
    cases leftOut with
    | true =>
      obtain ⟨hfails, htail⟩ := failWhereMarked_cons.mp hf
      obtain ⟨hverdict, hdraft, hsession⟩ := (hfails rfl).perform
      have hrest := ih (htail hverdict) (h.trans ⟨hsession.reply.symm, hsession.detached.symm⟩)
      simp only [all, List.map_cons, performAll, hverdict]
      rwa [hdraft] at hrest ⊢
    | false =>
      have htail := (failWhereMarked_cons.mp hf).2
      have hstep := action.perform_alike hs draft h
      simp only [all, unmarked, List.map_cons, List.filter_cons, Bool.not_false, if_true,
        performAll, hstep.verdict, hstep.draft]
      cases hv : (action.perform ctx draft s).verdict with
      | proceed => exact ih (htail hv) hstep.session
      | terminate => exact ⟨rfl, rfl, hstep.session⟩
      | unknown handler => exact ⟨rfl, rfl, hstep.session⟩

end

end Action

/-- A rule some of whose actions are marked. If those that its run comes to consist of calls that
fail there, and not for want of a handler, then without any of the marked actions it comes to the
same: the run goes on or ends in the same way, the record and its flags are the same, and so are the
reply and the calls that are set aside. -/
theorem Rule.perform_without_failing {ctx : Context σ} (hs : ctx.catalog.Stateless) {rule : Rule}
    {marked : List (Action × Bool)} (hm : rule.actions = Action.all marked) (draft : Draft)
    (s : Session σ) (hf : Action.FailWhereMarked ctx marked draft s) :
    let whole := rule.perform ctx draft s
    let rest := Rule.perform ctx { rule with actions := Action.unmarked marked } draft s
    rest.verdict = whole.verdict ∧ rest.draft = whole.draft ∧
      rest.session.reply = whole.session.reply ∧
      rest.session.detached = whole.session.detached := by
  intro whole rest
  have halike := Action.performAll_unmarked hs hf (.refl s)
  rw [← hm] at halike
  exact ⟨halike.verdict, halike.draft, halike.session.reply, halike.session.detached⟩

/-- A call that fails before a field is set, another before the run is ended, and a third that the
run does not come to. -/
theorem Rule.perform_without_failing_between :
    let flaky : Handler Nat := fun inv count =>
      (.error (.handler inv.handler "upstream timeout"), count + 1)
    let catalog : Catalog Nat := ⟨[("create", flaky), ("flaky", flaky),
      ("respond", Handlers.respond)]⟩
    let ctx : Context Nat := ⟨catalog, .post, "leads", {}, ⟨0, by decide, by decide⟩⟩
    let seen : Action := .update ⟨["seen"], by decide, by decide⟩ (.literal (.bool true))
    let refuse : Action := .invoke "respond" [.num (.ofNat 409), .str "duplicate"]
    let rule : Rule := ⟨"leads", [.post], none,
      [.invoke "flaky" [], seen, refuse, .invoke "flaky" [], .stop, .invoke "flaky" []], 1⟩
    let rest : Rule := ⟨"leads", [.post], none, [seen, refuse, .stop], 1⟩
    let draft : Draft := { record := .obj [] }
    catalog.Stateless ∧
      (rule.perform ctx draft { world := 0 }).session.world = 2 ∧
      (rest.perform ctx draft { world := 0 }).session.world = 0 ∧
      (rest.perform ctx draft { world := 0 }).draft =
        (rule.perform ctx draft { world := 0 }).draft ∧
      (rest.perform ctx draft { world := 0 }).session.reply =
        (rule.perform ctx draft { world := 0 }).session.reply ∧
      (rest.perform ctx draft { world := 0 }).verdict = .terminate := by
  intro flaky catalog ctx seen refuse rule rest draft
  have hs : catalog.Stateless := by
    intro name handler hfind inv world other
    simp only [Catalog.find?, catalog, Keyed.get?] at hfind
    split_ifs at hfind <;> obtain rfl := Option.some.inj hfind
    · rfl
    · rfl
    · unfold Handlers.respond
      cases (inv.arg? 0).bind Handlers.status? <;> rfl
  let marked : List (Action × Bool) := [(.invoke "flaky" [], true), (seen, false), (refuse, false),
    (.invoke "flaky" [], true), (.stop, false), (.invoke "flaky" [], true)]
  have hfails (record : Json) (world : Nat) : (Action.invoke "flaky" []).Fails ctx record world :=
    ⟨_, rfl, _, rfl, trivial⟩
  have hf : Action.FailWhereMarked ctx marked draft { world := 0 } := by
    simp [marked, Action.failWhereMarked_cons, Action.FailWhereMarked.nil, hfails]
  obtain ⟨hverdict, hdraft, hreply, -⟩ :=
    @perform_without_failing _ ctx hs rule marked rfl draft { world := 0 } hf
  exact ⟨hs, rfl, rfl, hdraft, hreply, hverdict⟩

end Bylaw
