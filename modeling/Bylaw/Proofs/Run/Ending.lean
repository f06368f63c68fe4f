import Bylaw.Proofs.Run.Dependence

/-! What a run adds to its session, and how it ends. Under handlers whose answers do not hang on the
world, a run makes the same calls in every session whose reply is terminated, and in every one
whose reply is not; and where it begins with a reply that is not, it terminates the reply exactly
if it terminates its record. -/

namespace Bylaw

variable {σ : Type}

namespace Session

/-- From `s` to `s'` the same calls are made and set aside as from `t` to `t'`. -/
structure Parallel (s s' t t' : Session σ) : Prop where
  calls : ∃ more, s'.calls = s.calls ++ more ∧ t'.calls = t.calls ++ more
  detached : ∃ more, s'.detached = s.detached ++ more ∧ t'.detached = t.detached ++ more

theorem Parallel.refl (s t : Session σ) : Parallel s s t t := ⟨⟨[], by simp⟩, ⟨[], by simp⟩⟩

theorem Parallel.trans {s s' s'' t t' t'' : Session σ} (h : Parallel s s' t t')
    (h' : Parallel s' s'' t' t'') : Parallel s s'' t t'' := by
  obtain ⟨⟨cs, hc, hc'⟩, ps, hp, hp'⟩ := h
  obtain ⟨⟨ds, hd, hd'⟩, qs, hq, hq'⟩ := h'
  exact ⟨⟨cs ++ ds, by simp [hd, hc], by simp [hd', hc']⟩,
    ⟨ps ++ qs, by simp [hq, hp], by simp [hq', hp']⟩⟩

/-- Next to a session with no calls yet, what is added is all that the other one then has. -/
theorem Parallel.appends {s s' t t' : Session σ} (h : Parallel s s' t t') (hc : t.calls = [])
    (hd : t.detached = []) :
    s'.calls = s.calls ++ t'.calls ∧ s'.detached = s.detached ++ t'.detached := by
  obtain ⟨⟨cs, hcs, hcs'⟩, ds, hds, hds'⟩ := h
  simp only [hc, List.nil_append] at hcs'
  simp only [hd, List.nil_append] at hds'
  exact ⟨hcs' ▸ hcs, hds' ▸ hds⟩

theorem absorb_parallel {s t : Session σ} {after after' : Trail σ}
    (h : Trail.Parallel s.trail after t.trail after') :
    Parallel s (s.absorb after) t (t.absorb after') :=
  ⟨h.calls, [], by simp [absorb]⟩

end Session

namespace Context

variable {ctx : Context σ}

theorem setField_parallel (hs : ctx.catalog.Stateless) (field : FieldPath) (value : Expr)
    (draft : Draft) (s t : Session σ) :
    s.Parallel (ctx.setField field value draft s).session t
      (ctx.setField field value draft t).session := by
  have hp := Session.absorb_parallel (value.eval_parallel hs draft.record s.trail t.trail).2
  unfold setField
  dsimp only
  split <;> split <;> exact hp

theorem await_parallel (hs : ctx.catalog.Stateless) (handler : String) (params : Json)
    (draft : Draft) (s t : Session σ) :
    s.Parallel (ctx.await handler params draft s).session t
      (ctx.await handler params draft t).session := by
  have hp := Session.absorb_parallel (Trail.call_parallel hs
    (ctx.invocation handler draft.record params) s.trail t.trail).2
  unfold await
  dsimp only
  split <;> split <;> exact hp

theorem detach_parallel (ctx : Context σ) (handler : String) (params : Json) (draft : Draft)
    (s t : Session σ) :
    s.Parallel (ctx.detach handler params draft s).session t
      (ctx.detach handler params draft t).session := by
  unfold detach
  split
  · exact ⟨⟨[], by simp⟩, ⟨[_], rfl, rfl⟩⟩
  · exact .refl s t

end Context

section

variable {ctx : Context σ} {s t : Session σ}

theorem Action.perform_parallel (hs : ctx.catalog.Stateless) (draft : Draft) (s t : Session σ)
    (action : Action) :
    s.Parallel (action.perform ctx draft s).session t (action.perform ctx draft t).session := by
  cases action with
  | update field value => exact Context.setField_parallel hs field value draft s t
  | notify message => exact ctx.detach_parallel _ _ draft s t
  | delete => exact .refl s t
  | create kind payload => exact Context.await_parallel hs _ _ draft s t
  | send subject handler => exact ctx.detach_parallel _ _ draft s t
  | invoke handler args => exact Context.await_parallel hs _ _ draft s t
  | stop => exact ⟨⟨[], by simp [perform]⟩, ⟨[], by simp [perform]⟩⟩

theorem Action.performAll_parallel (hs : ctx.catalog.Stateless) (actions : List Action)
    (draft : Draft) (h : s.reply.terminated = t.reply.terminated) :
    s.Parallel (Action.performAll ctx actions draft s).session t
      (Action.performAll ctx actions draft t).session := by
  induction actions generalizing draft s t with
  | nil => exact .refl s t
  | cons action rest ih =>
    have ha := action.perform_agrees hs draft h
    have hp := action.perform_parallel hs draft s t
    simp only [Action.performAll, ← ha.verdict, ← ha.draft]
    split
    · exact hp.trans (ih _ ha.terminated)
    · exact hp
    · exact hp

/-- The runs of a record make and set aside the same calls if the replies that they begin with are
both terminated, or both not. -/
theorem Run.ofRules_parallel (hs : ctx.catalog.Stateless) (rules : List Rule) (draft : Draft)
    (h : s.reply.terminated = t.reply.terminated) :
    s.Parallel (Run.ofRules ctx rules draft s).session t
      (Run.ofRules ctx rules draft t).session := by
  induction rules generalizing draft s t with
  | nil => exact .refl s t
  | cons rule rest ih =>
    simp only [Run.ofRules]
    split
    · have ha := Action.performAll_agrees hs rule.actions draft h
      have hp := Action.performAll_parallel hs rule.actions draft h
      simp only [Rule.perform, ← ha.verdict, ← ha.draft]
      split
      · exact hp.trans (ih _ ha.terminated)
      · exact hp
    · exact ih draft h

end

/-- The state that an action leaves a record's run in: it goes on under a reply that is not
terminated, or is over under one that is, or has asked for a handler that does not exist. -/
def Step.Decided (step : Step σ) : Prop :=
  match step.verdict with
  | .proceed => step.session.reply.terminated = false
  | .terminate => step.session.reply.terminated = true
  | .unknown _ => True

/-- A decided step whose record is terminated exactly if its run is over. -/
def Step.Settled (step : Step σ) : Prop :=
  match step.verdict with
  | .proceed => step.session.reply.terminated = false ∧ step.draft.terminated = false
  | .terminate => step.session.reply.terminated = true ∧ step.draft.terminated = true
  | .unknown _ => True

/-- After a run that is settled and asked for no missing handler, the record is terminated exactly
if the reply is. -/
theorem Step.Settled.terminated_eq {step : Step σ} (h : step.Settled)
    (hk : ∀ name, step.verdict ≠ .unknown name) :
    step.draft.terminated = step.session.reply.terminated := by
  unfold Settled at h
  split at h
  · rw [h.1, h.2]
  · rw [h.1, h.2]
  · rename_i name hv
    exact absurd hv (hk name)

theorem Trail.patches_call_of_error {catalog : Catalog σ} {inv : Invocation} {trail : Trail σ}
    {e : ActionError} (h : (trail.call catalog inv).1 = .error e) :
    (trail.call catalog inv).2.patches = trail.patches := by
  unfold call at h ⊢
  split
  · rfl
  · rename_i handler hf
    simp only [hf] at h
    split
    · rename_i output world ho
      simp [ho] at h
    · rfl

namespace Context

variable {ctx : Context σ} {s : Session σ}

/-- The verdict after calls tells whether they terminated a reply. -/
theorem verdictAfter_decided (h : s.reply.terminated = false) (after : Session σ) (draft : Draft) :
    Step.Decided ⟨draft, after, s.verdictAfter after⟩ := by
  cases hr : after.reply.terminated <;> simp [Step.Decided, Session.verdictAfter, h, hr]

theorem setField_decided (h : s.reply.terminated = false) (field : FieldPath) (value : Expr)
    (draft : Draft) : (ctx.setField field value draft s).Decided := by
  unfold setField
  dsimp only
  split
  · exact verdictAfter_decided h _ _
  · rename_i e _
    cases e with
    | unknownHandler name => trivial
    | _ => exact verdictAfter_decided h _ _

theorem await_decided (h : s.reply.terminated = false) (handler : String) (params : Json)
    (draft : Draft) : (ctx.await handler params draft s).Decided := by
  unfold await
  dsimp only
  split
  · exact verdictAfter_decided h _ _
  · rename_i e he
    cases e with
    | unknownHandler name => trivial
    | _ =>
      have hp := Trail.patches_call_of_error he
      simp only [Session.trail] at hp
      simp [Step.Decided, ActionError.verdict, Session.absorb, Session.trail, hp, h]

theorem detach_decided (h : s.reply.terminated = false) (handler : String) (params : Json)
    (draft : Draft) : (ctx.detach handler params draft s).Decided := by
  unfold detach
  split
  · exact h
  · trivial

end Context

section

variable {ctx : Context σ} {s : Session σ}

theorem Action.perform_decided (h : s.reply.terminated = false) (draft : Draft)
    (action : Action) : (action.perform ctx draft s).Decided := by
  cases action with
  | update field value => exact Context.setField_decided h field value draft
  | notify message => exact Context.detach_decided h _ _ draft
  | delete => exact h
  | create kind payload => exact Context.await_decided h _ _ draft
  | send subject handler => exact Context.detach_decided h _ _ draft
  | invoke handler args => exact Context.await_decided h _ _ draft
  | stop => rfl

theorem Action.draft_terminated_perform (ctx : Context σ) (draft : Draft) (s : Session σ)
    (action : Action) : (action.perform ctx draft s).draft.terminated = draft.terminated := by
  cases action with
  | update field value => simp only [perform, Context.setField]; split <;> rfl
  | notify message => simp only [perform, Context.detach]; split <;> rfl
  | delete => rfl
  | create kind payload => simp only [perform, Context.await]; split <;> rfl
  | send subject handler => simp only [perform, Context.detach]; split <;> rfl
  | invoke handler args => simp only [perform, Context.await]; split <;> rfl
  | stop => rfl

theorem Action.performAll_settled (h : s.reply.terminated = false) (actions : List Action)
    {draft : Draft} (hd : draft.terminated = false) :
    (Action.performAll ctx actions draft s).Settled := by
  induction actions generalizing draft s with
  | nil => exact ⟨h, hd⟩
  | cons action rest ih =>
    have ha : (action.perform ctx draft s).Decided := action.perform_decided h draft
    have ht := action.draft_terminated_perform ctx draft s
    simp only [Action.performAll]
    split <;> rename_i hv <;> simp only [Step.Decided, hv] at ha
    · exact ih ha (ht.trans hd)
    · exact ⟨ha, rfl⟩
    · trivial

theorem Run.ofRules_settled (h : s.reply.terminated = false) (rules : List Rule) {draft : Draft}
    (hd : draft.terminated = false) : (Run.ofRules ctx rules draft s).toStep.Settled := by
  induction rules generalizing draft s with
  | nil => exact ⟨h, hd⟩
  | cons rule rest ih =>
    simp only [Run.ofRules]
    split
    · have ha : (rule.perform ctx draft s).Settled := Action.performAll_settled h rule.actions hd
      split
      · rename_i hv
        simp only [Step.Settled, hv] at ha
        exact ih ha.1 ha.2
      · exact ha
    · exact ih h hd

end

end Bylaw
