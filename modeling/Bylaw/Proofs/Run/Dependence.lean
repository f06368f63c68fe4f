import Bylaw.Proofs.Run.Growth
import Mathlib.Tactic.Common

/-! What the run of a record depends on. Under handlers whose answers do not hang on the world, the
only thing that a session tells a run is whether its reply is terminated. -/

namespace Bylaw

variable {σ : Type}

namespace Reply

theorem terminated_patch (r : Reply) (p : Patch) :
    (r.patch p).terminated = (r.terminated || p.isTerminal) := by
  cases hr : r.terminated with
  | true => simp [patch_of_terminated hr, hr]
  | false =>
    cases hw : p.isWellFormed with
    | true => simp [patch, patch?, hr, hw]
    | false =>
      have ht : p.isTerminal = false := by
        by_contra h
        simp only [Patch.isTerminal, beq_iff_eq, Bool.not_eq_false] at h
        simp [Patch.isWellFormed, h] at hw
      simp [patch, patch?, hr, hw, ht]

/-- A reply is terminated by the first patch that asks for it. -/
theorem terminated_merge (r : Reply) (ps : List Patch) :
    (r.merge ps).terminated = (r.terminated || ps.any Patch.isTerminal) := by
  induction ps generalizing r with
  | nil => simp
  | cons p ps ih => rw [merge_cons, ih, terminated_patch, List.any_cons, Bool.or_assoc]

end Reply

namespace Trail

/-- From `t` to `t'` the same calls and patches are added as from `u` to `u'`. -/
structure Parallel (t t' u u' : Trail σ) : Prop where
  calls : ∃ more, t'.calls = t.calls ++ more ∧ u'.calls = u.calls ++ more
  patches : ∃ more, t'.patches = t.patches ++ more ∧ u'.patches = u.patches ++ more

theorem Parallel.refl (t u : Trail σ) : Parallel t t u u := ⟨⟨[], by simp⟩, ⟨[], by simp⟩⟩

theorem Parallel.trans {t t' t'' u u' u'' : Trail σ} (h : Parallel t t' u u')
    (h' : Parallel t' t'' u' u'') : Parallel t t'' u u'' := by
  obtain ⟨⟨cs, hc, hc'⟩, ps, hp, hp'⟩ := h
  obtain ⟨⟨ds, hd, hd'⟩, qs, hq, hq'⟩ := h'
  exact ⟨⟨cs ++ ds, by simp [hd, hc], by simp [hd', hc']⟩,
    ⟨ps ++ qs, by simp [hq, hp], by simp [hq', hp']⟩⟩

/-- A call of a handler that does not look at the world is answered alike on every trail. -/
theorem call_parallel {catalog : Catalog σ} (hs : catalog.Stateless) (inv : Invocation)
    (t u : Trail σ) :
    (t.call catalog inv).1 = (u.call catalog inv).1 ∧
      Parallel t (t.call catalog inv).2 u (u.call catalog inv).2 := by
  unfold call
  cases hf : catalog.find? inv.handler with
  | none => exact ⟨rfl, Parallel.refl t u⟩
  | some handler =>
    have hw := hs _ handler hf inv t.world u.world
    rcases ht : handler inv t.world with ⟨a, w⟩
    rcases hu : handler inv u.world with ⟨b, v⟩
    rw [ht, hu] at hw
    obtain rfl : a = b := hw
    dsimp only
    rw [ht, hu]
    cases a with
    | ok output => exact ⟨rfl, ⟨[inv], rfl, rfl⟩, ⟨_, rfl, rfl⟩⟩
    | error e => exact ⟨rfl, ⟨[inv], rfl, rfl⟩, ⟨[], by simp⟩⟩

theorem Parallel.andThen {α β : Type} {t u : Trail σ} {x y : Except ActionError α × Trail σ}
    {f : α → Trail σ → Except ActionError β × Trail σ}
    (h : x.1 = y.1 ∧ Parallel t x.2 u y.2)
    (hf : ∀ v t u, (f v t).1 = (f v u).1 ∧ Parallel t (f v t).2 u (f v u).2) :
    (Trail.andThen x f).1 = (Trail.andThen y f).1 ∧
      Parallel t (Trail.andThen x f).2 u (Trail.andThen y f).2 := by
  obtain ⟨hv, hp⟩ := h
  rcases x with ⟨e | v, t'⟩ <;> rcases y with ⟨_ | _, u'⟩ <;> cases hv
  · exact ⟨rfl, hp⟩
  · exact ⟨(hf v t' u').1, hp.trans (hf v t' u').2⟩

end Trail

namespace Expr

variable {ctx : Context σ}

mutual

/-- The value of an expression, and what its calls add, are the same on every trail. -/
theorem eval_parallel (hs : ctx.catalog.Stateless) (record : Json) :
    (e : Expr) → (t u : Trail σ) → (e.eval ctx record t).1 = (e.eval ctx record u).1 ∧
      Trail.Parallel t (e.eval ctx record t).2 u (e.eval ctx record u).2
  | .literal v, t, u => by simpa [eval] using Trail.Parallel.refl t u
  | .template p, t, u => by simpa [eval] using Trail.Parallel.refl t u
  | .field path, t, u => by simpa [eval] using Trail.Parallel.refl t u
  | .today offset, t, u => by
    cases hd : shiftDate ctx.today offset <;> simpa [eval, hd] using Trail.Parallel.refl t u
  | .binary op l r, t, u => by
    rw [eval_binary, eval_binary]
    exact Trail.Parallel.andThen (eval_parallel hs record l t u) fun v t u =>
      Trail.Parallel.andThen (eval_parallel hs record r t u) fun w t u =>
        ⟨rfl, Trail.Parallel.refl t u⟩
  | .call handler args, t, u => by
    rw [eval_call, eval_call]
    exact Trail.Parallel.andThen (evalArgs_parallel hs record args t u) fun params t u =>
      Trail.call_parallel hs (ctx.invocation handler record (.arr params)) t u

theorem evalArgs_parallel (hs : ctx.catalog.Stateless) (record : Json) :
    (es : List Expr) → (t u : Trail σ) →
      (evalArgs ctx record es t).1 = (evalArgs ctx record es u).1 ∧
      Trail.Parallel t (evalArgs ctx record es t).2 u (evalArgs ctx record es u).2
  | [], t, u => by simpa [evalArgs] using Trail.Parallel.refl t u
  | e :: es, t, u => by
    rw [evalArgs_cons, evalArgs_cons]
    exact Trail.Parallel.andThen (eval_parallel hs record e t u) fun v t u =>
      Trail.Parallel.andThen (evalArgs_parallel hs record es t u) fun vs t u =>
        ⟨rfl, Trail.Parallel.refl t u⟩

end

end Expr

/-- Two steps that come to the same for the record, after which both replies are terminated or
neither is. -/
structure Step.Agrees (x y : Step σ) : Prop where
  draft : x.draft = y.draft
  verdict : x.verdict = y.verdict
  terminated : x.session.reply.terminated = y.session.reply.terminated

namespace Session

/-- Trails that add the same to sessions whose replies are both terminated, or both not, leave them
so, and with one verdict. -/
theorem absorb_agrees {s t : Session σ} {after after' : Trail σ}
    (h : s.reply.terminated = t.reply.terminated)
    (hp : Trail.Parallel s.trail after t.trail after') :
    (s.absorb after).reply.terminated = (t.absorb after').reply.terminated ∧
      s.verdictAfter (s.absorb after) = t.verdictAfter (t.absorb after') := by
  obtain ⟨ps, hps, hps'⟩ := hp.patches
  have hmerge : (s.absorb after).reply.terminated = (t.absorb after').reply.terminated := by
    simp only [trail, List.nil_append] at hps hps'
    simp only [absorb, hps, hps', Reply.terminated_merge, h]
  exact ⟨hmerge, by simp only [verdictAfter, hmerge, h]⟩

end Session

namespace Context

variable {ctx : Context σ} {s t : Session σ}

theorem setField_agrees (hs : ctx.catalog.Stateless) (field : FieldPath) (value : Expr)
    (draft : Draft) (h : s.reply.terminated = t.reply.terminated) :
    (ctx.setField field value draft s).Agrees (ctx.setField field value draft t) := by
  obtain ⟨hv, hp⟩ := value.eval_parallel hs draft.record s.trail t.trail
  obtain ⟨ha, hd⟩ := Session.absorb_agrees h hp
  simp only [setField, hv, hd]
  split <;> exact ⟨rfl, rfl, ha⟩

theorem await_agrees (hs : ctx.catalog.Stateless) (handler : String) (params : Json)
    (draft : Draft) (h : s.reply.terminated = t.reply.terminated) :
    (ctx.await handler params draft s).Agrees (ctx.await handler params draft t) := by
  obtain ⟨hv, hp⟩ := Trail.call_parallel hs (ctx.invocation handler draft.record params)
    s.trail t.trail
  obtain ⟨ha, hd⟩ := Session.absorb_agrees h hp
  simp only [await, hv, hd]
  split <;> exact ⟨rfl, rfl, ha⟩

theorem detach_agrees (handler : String) (params : Json) (draft : Draft)
    (h : s.reply.terminated = t.reply.terminated) :
    (ctx.detach handler params draft s).Agrees (ctx.detach handler params draft t) := by
  unfold detach
  split <;> exact ⟨rfl, rfl, h⟩

end Context

section

variable {ctx : Context σ} {s t : Session σ}

theorem Action.perform_agrees (hs : ctx.catalog.Stateless) (draft : Draft)
    (h : s.reply.terminated = t.reply.terminated) (action : Action) :
    (action.perform ctx draft s).Agrees (action.perform ctx draft t) := by
  cases action with
  | update field value => exact Context.setField_agrees hs field value draft h
  | notify message => exact Context.detach_agrees _ _ draft h
  | delete => exact ⟨rfl, rfl, h⟩
  | create kind payload => exact Context.await_agrees hs _ _ draft h
  | send subject handler => exact Context.detach_agrees _ _ draft h
  | invoke handler args => exact Context.await_agrees hs _ _ draft h
  | stop => exact ⟨rfl, rfl, rfl⟩

theorem Action.performAll_agrees (hs : ctx.catalog.Stateless) (actions : List Action)
    (draft : Draft) (h : s.reply.terminated = t.reply.terminated) :
    (Action.performAll ctx actions draft s).Agrees (Action.performAll ctx actions draft t) := by
  induction actions generalizing draft s t with
  | nil => exact ⟨rfl, rfl, h⟩
  | cons action rest ih =>
    have ha := action.perform_agrees hs draft h
    simp only [Action.performAll, ← ha.verdict, ← ha.draft]
    split
    · exact ih _ ha.terminated
    · exact ⟨rfl, rfl, ha.terminated⟩
    · exact ⟨rfl, rfl, ha.terminated⟩

/-- The run of a record through rules depends on a session only by whether its reply is
terminated. -/
theorem Run.ofRules_agrees (hs : ctx.catalog.Stateless) (rules : List Rule) (draft : Draft)
    (h : s.reply.terminated = t.reply.terminated) :
    (Run.ofRules ctx rules draft s).toStep.Agrees (Run.ofRules ctx rules draft t).toStep ∧
      (Run.ofRules ctx rules draft s).matched = (Run.ofRules ctx rules draft t).matched := by
  induction rules generalizing draft s t with
  | nil => exact ⟨⟨rfl, rfl, h⟩, rfl⟩
  | cons rule rest ih =>
    simp only [Run.ofRules]
    split
    · have ha := Action.performAll_agrees hs rule.actions draft h
      simp only [Rule.perform, ← ha.verdict, ← ha.draft]
      split
      · obtain ⟨hrest, hm⟩ := ih (Action.performAll ctx rule.actions draft s).draft ha.terminated
        exact ⟨⟨hrest.draft, hrest.verdict, hrest.terminated⟩, by simp only [hm]⟩
      · exact ⟨⟨ha.draft, ha.verdict, ha.terminated⟩, rfl⟩
    · exact ih draft h

end

namespace Session

theorem absorb_terminated {s : Session σ} (h : s.reply.terminated = true) (trail : Trail σ) :
    (s.absorb trail).reply.terminated = true := by
  simp [absorb, Reply.terminated_merge, h]

end Session

theorem Action.perform_terminated (ctx : Context σ) {s : Session σ} (draft : Draft)
    (h : s.reply.terminated = true) (action : Action) :
    (action.perform ctx draft s).session.reply.terminated = true := by
  cases action with
  | update field value =>
    simp only [perform, Context.setField]
    split <;> exact Session.absorb_terminated h _
  | notify message => simp only [perform, Context.detach]; split <;> exact h
  | delete => exact h
  | create kind payload =>
    simp only [perform, Context.await]; split <;> exact Session.absorb_terminated h _
  | send subject handler => simp only [perform, Context.detach]; split <;> exact h
  | invoke handler args =>
    simp only [perform, Context.await]; split <;> exact Session.absorb_terminated h _
  | stop => rfl

theorem Action.performAll_terminated (ctx : Context σ) {s : Session σ} (actions : List Action)
    (draft : Draft) (h : s.reply.terminated = true) :
    (Action.performAll ctx actions draft s).session.reply.terminated = true := by
  induction actions generalizing draft s with
  | nil => exact h
  | cons action rest ih =>
    have ha := action.perform_terminated ctx draft h
    simp only [Action.performAll]
    split
    · exact ih _ ha
    · exact ha
    · exact ha

theorem Run.ofRules_terminated (ctx : Context σ) {s : Session σ} (rules : List Rule)
    (draft : Draft) (h : s.reply.terminated = true) :
    (Run.ofRules ctx rules draft s).session.reply.terminated = true := by
  induction rules generalizing draft s with
  | nil => exact h
  | cons rule rest ih =>
    have ha := Action.performAll_terminated ctx rule.actions draft h
    simp only [Run.ofRules]
    split
    · simp only [Rule.perform]
      split
      · exact ih _ ha
      · exact ha
    · exact ih _ h

end Bylaw
