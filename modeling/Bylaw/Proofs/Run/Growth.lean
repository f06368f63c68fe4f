import Bylaw.Run
import Mathlib.Data.List.Infix

/-! Runs one call after the other. The evaluation of an expression is a sequence of evaluations and
calls that the first failure ends. Main statement: whatever is evaluated or carried out only adds to
the calls that were made before. -/

namespace Bylaw

variable {σ : Type}

/-- The patch that a call brings. -/
def Output.patches : Except ActionError Output → List Patch
  | .ok output => output.response.toList
  | .error _ => []

namespace Trail

/-- A call of a handler that is there is added to the trail, with the patch that it is answered. -/
theorem call_of_contains {catalog : Catalog σ} {inv : Invocation}
    (hc : catalog.contains inv.handler) (t : Trail σ) :
    t.call catalog inv = ((catalog.call inv t.world).1.map Output.value,
      ⟨(catalog.call inv t.world).2, t.calls ++ [inv],
        t.patches ++ Output.patches (catalog.call inv t.world).1⟩) := by
  obtain ⟨handler, hf⟩ := Option.isSome_iff_exists.mp hc
  simp only [call, Catalog.call, hf]
  rcases handler inv t.world with ⟨answer, world⟩
  cases answer with
  | ok output => rfl
  | error e => simp [Output.patches, Except.map]

theorem call_of_not_contains {catalog : Catalog σ} {inv : Invocation}
    (hc : catalog.contains inv.handler = false) (t : Trail σ) :
    t.call catalog inv = (.error (.unknownHandler inv.handler), t) := by
  have hf : catalog.find? inv.handler = none :=
    Option.isNone_iff_eq_none.mp (Option.isSome_eq_false_iff.mp hc)
  rw [call, hf]

theorem calls_prefix_call (catalog : Catalog σ) (inv : Invocation) (t : Trail σ) :
    t.calls <+: (t.call catalog inv).2.calls := by
  cases hc : catalog.contains inv.handler with
  | true => rw [call_of_contains hc]; exact List.prefix_append t.calls [inv]
  | false => rw [call_of_not_contains hc]

/-- Goes on with a value, if there is one. -/
def andThen {α β : Type} (x : Except ActionError α × Trail σ)
    (f : α → Trail σ → Except ActionError β × Trail σ) : Except ActionError β × Trail σ :=
  match x with
  | (.ok v, t) => f v t
  | (.error e, t) => (.error e, t)

section

variable {α β : Type} {t : Trail σ} {x : Except ActionError α × Trail σ}
  {f : α → Trail σ → Except ActionError β × Trail σ}

theorem first_prefix_andThen (hf : ∀ v t, t.calls <+: (f v t).2.calls) :
    x.2.calls <+: (andThen x f).2.calls := by
  rcases x with ⟨_ | v, t⟩
  · exact List.prefix_rfl
  · exact hf v t

theorem calls_prefix_andThen (hx : t.calls <+: x.2.calls)
    (hf : ∀ v t, t.calls <+: (f v t).2.calls) : t.calls <+: (andThen x f).2.calls :=
  hx.trans (first_prefix_andThen hf)

end

end Trail

namespace Expr

open Trail

section Sequence

variable {ctx : Context σ} {record : Json}

theorem eval_binary (op : ArithOp) (l r : Expr) (t : Trail σ) :
    eval ctx record (.binary op l r) t = andThen (eval ctx record l t) fun v t =>
      andThen (eval ctx record r t) fun w t => ((op.apply v w).mapError .evaluation, t) := by
  rw [eval]
  rcases eval ctx record l t with ⟨_ | v, t⟩
  · rfl
  · dsimp only [andThen]
    rcases eval ctx record r t with ⟨_ | w, t⟩
    · rfl
    · dsimp only
      cases op.apply v w <;> rfl

theorem eval_call (handler : String) (args : List Expr) (t : Trail σ) :
    eval ctx record (.call handler args) t = andThen (evalArgs ctx record args t) fun params t =>
      t.call ctx.catalog (ctx.invocation handler record (.arr params)) := by
  rw [eval]
  rcases evalArgs ctx record args t with ⟨_ | params, t⟩ <;> rfl

theorem evalArgs_cons (e : Expr) (es : List Expr) (t : Trail σ) :
    evalArgs ctx record (e :: es) t = andThen (eval ctx record e t) fun v t =>
      andThen (evalArgs ctx record es t) fun vs t => (.ok (v :: vs), t) := by
  rw [evalArgs]
  rcases eval ctx record e t with ⟨_ | v, t⟩
  · rfl
  · dsimp only [andThen]
    rcases evalArgs ctx record es t with ⟨_ | vs, t⟩ <;> rfl

end Sequence

mutual

theorem calls_prefix_eval (ctx : Context σ) (record : Json) :
    (e : Expr) → (t : Trail σ) → t.calls <+: (e.eval ctx record t).2.calls
  | .literal v, t => by rw [eval]
  | .template p, t => by rw [eval]
  | .field path, t => by rw [eval]
  | .today offset, t => by rw [eval]; cases shiftDate ctx.today offset <;> exact List.prefix_rfl
  | .binary op l r, t => by
    rw [eval_binary]
    exact calls_prefix_andThen (calls_prefix_eval ctx record l t) fun v t =>
      calls_prefix_andThen (calls_prefix_eval ctx record r t) fun _ _ => List.prefix_rfl
  | .call handler args, t => by
    rw [eval_call]
    exact calls_prefix_andThen (calls_prefix_evalArgs ctx record args t) fun _ t =>
      calls_prefix_call ctx.catalog _ t

theorem calls_prefix_evalArgs (ctx : Context σ) (record : Json) :
    (es : List Expr) → (t : Trail σ) → t.calls <+: (evalArgs ctx record es t).2.calls
  | [], t => by rw [evalArgs]
  | e :: es, t => by
    rw [evalArgs_cons]
    exact calls_prefix_andThen (calls_prefix_eval ctx record e t) fun v t =>
      calls_prefix_andThen (calls_prefix_evalArgs ctx record es t) fun _ _ => List.prefix_rfl

end

end Expr

namespace Context

theorem session_setField (ctx : Context σ) (field : FieldPath) (value : Expr) (draft : Draft)
    (s : Session σ) : (ctx.setField field value draft s).session =
      s.absorb (value.eval ctx draft.record s.trail).2 := by
  simp only [setField]
  split <;> rfl

theorem session_await (ctx : Context σ) (handler : String) (params : Json) (draft : Draft)
    (s : Session σ) : (ctx.await handler params draft s).session =
      s.absorb (s.trail.call ctx.catalog (ctx.invocation handler draft.record params)).2 := by
  simp only [await]
  split <;> rfl

theorem calls_session_detach (ctx : Context σ) (handler : String) (params : Json) (draft : Draft)
    (s : Session σ) : (ctx.detach handler params draft s).session.calls = s.calls := by
  rw [detach]
  split <;> rfl

end Context

namespace Action

theorem calls_prefix_perform (ctx : Context σ) (draft : Draft) (s : Session σ) (action : Action) :
    s.calls <+: (action.perform ctx draft s).session.calls := by
  cases action with
  | update field value =>
    rw [perform, Context.session_setField]
    exact value.calls_prefix_eval ctx draft.record s.trail
  | notify message => rw [perform, Context.calls_session_detach]
  | delete => exact List.prefix_rfl
  | create kind payload =>
    rw [perform, Context.session_await]
    exact Trail.calls_prefix_call _ _ s.trail
  | send subject handler => rw [perform, Context.calls_session_detach]
  | invoke handler args =>
    rw [perform, Context.session_await]
    exact Trail.calls_prefix_call _ _ s.trail
  | stop => exact List.prefix_rfl

theorem calls_prefix_performAll (ctx : Context σ) (actions : List Action) (draft : Draft)
    (s : Session σ) : s.calls <+: (performAll ctx actions draft s).session.calls := by
  induction actions generalizing draft s with
  | nil => exact List.prefix_rfl
  | cons action rest ih =>
    have ha := action.calls_prefix_perform ctx draft s
    simp only [performAll]
    split
    · exact ha.trans (ih _ _)
    · exact ha
    · exact ha

theorem calls_perform_prefix_performAll (ctx : Context σ) (action : Action) (rest : List Action)
    (draft : Draft) (s : Session σ) : (action.perform ctx draft s).session.calls <+:
      (performAll ctx (action :: rest) draft s).session.calls := by
  simp only [performAll]
  split
  · exact calls_prefix_performAll ctx rest _ _
  · exact List.prefix_rfl
  · exact List.prefix_rfl

end Action

namespace Run

theorem calls_prefix_ofRules (ctx : Context σ) (rules : List Rule) (draft : Draft)
    (s : Session σ) : s.calls <+: (ofRules ctx rules draft s).session.calls := by
  induction rules generalizing draft s with
  | nil => exact List.prefix_rfl
  | cons rule rest ih =>
    have hrule := Action.calls_prefix_performAll ctx rule.actions draft s
    simp only [ofRules]
    split
    · split
      · exact hrule.trans (ih _ _)
      · exact hrule
    · exact ih draft s

theorem calls_perform_prefix_ofRules {ctx : Context σ} {rule : Rule} {draft : Draft}
    (hm : rule.isMatch (ctx.scope draft.record) = true) (rest : List Rule) (s : Session σ) :
    (rule.perform ctx draft s).session.calls <+:
      (ofRules ctx (rule :: rest) draft s).session.calls := by
  simp only [ofRules, if_pos hm]
  split
  · exact calls_prefix_ofRules ctx rest _ _
  · exact List.prefix_rfl

end Run

namespace Batch

/-- What becomes of the other records after the run of one. -/
def afterRun (ctx : Context σ) (rules : List Rule) (stops : Bool) (rest : List Json)
    (run : Run σ) : Batch σ :=
  if stops && run.draft.terminated then ⟨rest, 0, 0, run.session, none⟩
  else ofRecords ctx rules stops rest run.session

@[simp] theorem afterRun_false (ctx : Context σ) (rules : List Rule) (rest : List Json)
    (run : Run σ) :
    afterRun ctx rules false rest run = ofRecords ctx rules false rest run.session := rfl

theorem ofRecords_cons (ctx : Context σ) (rules : List Rule) (stops : Bool) (record : Json)
    (rest : List Json) (s : Session σ) :
    ofRecords ctx rules stops (record :: rest) s =
      match (Run.ofRecord ctx rules record s).verdict with
      | .unknown handler => ⟨[], 0, (Run.ofRecord ctx rules record s).matched,
          (Run.ofRecord ctx rules record s).session, some handler⟩
      | _ => prepend (Run.ofRecord ctx rules record s)
          (afterRun ctx rules stops rest (Run.ofRecord ctx rules record s)) := by
  simp only [ofRecords, afterRun]
  cases (Run.ofRecord ctx rules record s).verdict with
  | unknown handler => rfl
  | _ => dsimp only; split <;> rfl

theorem calls_prefix_ofRecords (ctx : Context σ) (rules : List Rule) (stops : Bool)
    (records : List Json) (s : Session σ) :
    s.calls <+: (ofRecords ctx rules stops records s).session.calls := by
  induction records generalizing s with
  | nil => exact List.prefix_rfl
  | cons record rest ih =>
    have hrun : s.calls <+: (Run.ofRecord ctx rules record s).session.calls :=
      Run.calls_prefix_ofRules ctx rules { record } s
    rw [ofRecords_cons]
    split
    · exact hrun
    · show s.calls <+: (afterRun ctx rules stops rest _).session.calls
      rw [afterRun]
      split
      · exact hrun
      · exact hrun.trans (ih _)

theorem calls_ofRecord_prefix_ofRecords (ctx : Context σ) (rules : List Rule) (stops : Bool)
    (record : Json) (rest : List Json) (s : Session σ) :
    (Run.ofRecord ctx rules record s).session.calls <+:
      (ofRecords ctx rules stops (record :: rest) s).session.calls := by
  rw [ofRecords_cons]
  split
  · exact List.prefix_rfl
  · show _ <+: (afterRun ctx rules stops rest _).session.calls
    rw [afterRun]
    split
    · exact List.prefix_rfl
    · exact calls_prefix_ofRecords ctx rules stops rest _

end Batch

end Bylaw
