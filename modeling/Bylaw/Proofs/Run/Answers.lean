import Bylaw.Proofs.Run.Calls

/-! Runs under different handlers. Two runs go abreast if they make the same calls, keep the same
reply, and set the same calls aside; their worlds may be of different types. Main statement: they do
so for as long as the calls that both wait for are answered alike. -/

namespace Bylaw

variable {σ τ : Type}

/-- Handlers, and the world that the first call finds. -/
structure Start (σ : Type) where
  catalog : Catalog σ
  first : σ

namespace Start

/-- The world that calls leave. -/
def after (p : Start σ) (made : List Invocation) : σ := p.catalog.settle made p.first

/-- The answer to a call that is made after others. -/
def answer (p : Start σ) (made : List Invocation) (inv : Invocation) :
    Except ActionError Output := (p.catalog.call inv (p.after made)).1

/-- A call that is among both lists, and made after the same calls in both, is answered alike. -/
def AnswersAlike (p : Start σ) (q : Start τ) (calls others : List Invocation) : Prop :=
  ∀ made inv, made ++ [inv] <+: calls → made ++ [inv] <+: others →
    p.answer made inv = q.answer made inv

variable {p : Start σ} {q : Start τ} {calls others : List Invocation}

theorem AnswersAlike.mono (h : p.AnswersAlike q calls others) {sooner : List Invocation}
    (hs : sooner <+: calls) {earlier : List Invocation} (he : earlier <+: others) :
    p.AnswersAlike q sooner earlier :=
  fun made inv hp hq => h made inv (hp.trans hs) (hq.trans he)

/-- Calls are answered alike if no world can make a difference to their answers. -/
theorem answersAlike_of_mem
    (h : ∀ inv ∈ calls, ∀ world other,
      (p.catalog.call inv world).1 = (q.catalog.call inv other).1) :
    p.AnswersAlike q calls others :=
  fun _ inv hp _ => h inv (hp.subset (by simp)) _ _

/-- Both catalogs have the same of the given handlers. -/
def HaveAlike (p : Start σ) (q : Start τ) (names : List String) : Prop :=
  ∀ name ∈ names, p.catalog.contains name = q.catalog.contains name

theorem haveAlike_append {names more : List String} :
    p.HaveAlike q (names ++ more) ↔ p.HaveAlike q names ∧ p.HaveAlike q more := by
  simp only [HaveAlike, List.forall_mem_append]

theorem haveAlike_cons {name : String} {names : List String} :
    p.HaveAlike q (name :: names) ↔
      p.catalog.contains name = q.catalog.contains name ∧ p.HaveAlike q names := by
  simp only [HaveAlike, List.forall_mem_cons]

end Start

namespace Trail

/-- Trails of the same calls and patches, each of which has left its own world. -/
structure Abreast (p : Start σ) (q : Start τ) (t : Trail σ) (u : Trail τ) : Prop where
  calls : t.calls = u.calls
  patches : t.patches = u.patches
  world : t.world = p.after t.calls
  otherWorld : u.world = q.after u.calls

/-- Results that are the same, of trails that are abreast, if the calls on them are answered
alike. -/
def Coupled {α : Type} (p : Start σ) (q : Start τ) (x : Except ActionError α × Trail σ)
    (y : Except ActionError α × Trail τ) : Prop :=
  p.AnswersAlike q x.2.calls y.2.calls → x.1 = y.1 ∧ Abreast p q x.2 y.2

variable {p : Start σ} {q : Start τ} {t : Trail σ} {u : Trail τ}

/-- A call, made after the same calls on both sides. -/
theorem call_coupled {inv : Invocation}
    (hc : p.catalog.contains inv.handler = q.catalog.contains inv.handler)
    (h : Abreast p q t u) : Coupled p q (t.call p.catalog inv) (u.call q.catalog inv) := by
  intro ha
  cases hp : p.catalog.contains inv.handler with
  | false =>
    rw [call_of_not_contains hp, call_of_not_contains (hc ▸ hp)]
    exact ⟨rfl, h⟩
  | true =>
    rw [call_of_contains hp, call_of_contains (hc ▸ hp)] at ha ⊢
    have hanswer := ha t.calls inv List.prefix_rfl (h.calls ▸ List.prefix_rfl)
    simp only [Start.answer, ← h.world] at hanswer
    rw [h.calls, ← h.otherWorld] at hanswer
    refine ⟨by rw [hanswer], ?_, ?_, ?_, ?_⟩
    · exact congrArg (· ++ [inv]) h.calls
    · rw [h.patches, hanswer]
    · rw [Start.after, Catalog.settle_concat, ← Start.after, ← h.world]
    · rw [Start.after, Catalog.settle_concat, ← Start.after, ← h.otherWorld]

section

variable {α β : Type} {x : Except ActionError α × Trail σ} {y : Except ActionError α × Trail τ}
  {f : α → Trail σ → Except ActionError β × Trail σ}
  {g : α → Trail τ → Except ActionError β × Trail τ}

theorem andThen_coupled (hx : Coupled p q x y) (hf : ∀ v t, t.calls <+: (f v t).2.calls)
    (hg : ∀ v u, u.calls <+: (g v u).2.calls)
    (hfg : ∀ v t u, Abreast p q t u → Coupled p q (f v t) (g v u)) :
    Coupled p q (andThen x f) (andThen y g) := by
  intro ha
  obtain ⟨hv, h⟩ := hx (ha.mono (first_prefix_andThen hf) (first_prefix_andThen hg))
  rcases x with ⟨e | v, t⟩ <;> rcases y with ⟨_ | _, u⟩ <;> cases hv
  · exact ⟨rfl, h⟩
  · exact hfg v t u h ha

end

end Trail

/-- The same circumstances with other handlers. -/
def Context.withCatalog (ctx : Context σ) (other : Catalog τ) : Context τ :=
  ⟨other, ctx.event, ctx.entity, ctx.facts, ctx.today⟩

@[simp] theorem Context.catalog_withCatalog (ctx : Context σ) (other : Catalog τ) :
    (ctx.withCatalog other).catalog = other := rfl

@[simp] theorem Context.invocation_withCatalog (ctx : Context σ) (other : Catalog τ)
    (handler : String) (record params : Json) :
    (ctx.withCatalog other).invocation handler record params =
      ctx.invocation handler record params := rfl

section Coupling

variable {ctx : Context σ} {p : Start σ} {q : Start τ}

namespace Expr

open Trail

mutual

theorem eval_coupled (record : Json) : (e : Expr) → (t : Trail σ) → (u : Trail τ) →
    p.HaveAlike q e.handlers → Abreast p q t u →
      Coupled p q (e.eval (ctx.withCatalog p.catalog) record t)
        (e.eval (ctx.withCatalog q.catalog) record u)
  | .literal v, t, u, _, h => by simp only [eval]; exact fun _ => ⟨rfl, h⟩
  | .template l, t, u, _, h => by simp only [eval]; exact fun _ => ⟨rfl, h⟩
  | .field path, t, u, _, h => by simp only [eval]; exact fun _ => ⟨rfl, h⟩
  | .today offset, t, u, _, h => by
    simp only [eval, Context.withCatalog]
    cases shiftDate ctx.today offset <;> exact fun _ => ⟨rfl, h⟩
  | .binary op l r, t, u, hc, h => by
    obtain ⟨hl, hr⟩ := Start.haveAlike_append.mp hc
    rw [eval_binary, eval_binary]
    refine andThen_coupled (eval_coupled record l t u hl h) (fun v t => ?_) (fun v u => ?_)
      fun v t u h => andThen_coupled (eval_coupled record r t u hr h)
        (fun _ _ => List.prefix_rfl) (fun _ _ => List.prefix_rfl) fun w t u h _ => ⟨rfl, h⟩
    · exact calls_prefix_andThen (calls_prefix_eval _ record r t) fun _ _ => List.prefix_rfl
    · exact calls_prefix_andThen (calls_prefix_eval _ record r u) fun _ _ => List.prefix_rfl
  | .call handler args, t, u, hc, h => by
    obtain ⟨hhandler, hargs⟩ := Start.haveAlike_cons.mp hc
    rw [eval_call, eval_call]
    exact andThen_coupled (evalArgs_coupled record args t u hargs h)
      (fun _ t => calls_prefix_call _ _ t) (fun _ u => calls_prefix_call _ _ u)
      fun params t u h => call_coupled hhandler h

theorem evalArgs_coupled (record : Json) : (es : List Expr) → (t : Trail σ) → (u : Trail τ) →
    p.HaveAlike q (handlersOfArgs es) → Abreast p q t u →
      Coupled p q (evalArgs (ctx.withCatalog p.catalog) record es t)
        (evalArgs (ctx.withCatalog q.catalog) record es u)
  | [], t, u, _, h => by simp only [evalArgs]; exact fun _ => ⟨rfl, h⟩
  | e :: es, t, u, hc, h => by
    obtain ⟨he, hes⟩ := Start.haveAlike_append.mp hc
    rw [evalArgs_cons, evalArgs_cons]
    refine andThen_coupled (eval_coupled record e t u he h) (fun v t => ?_) (fun v u => ?_)
      fun v t u h => andThen_coupled (evalArgs_coupled record es t u hes h)
        (fun _ _ => List.prefix_rfl) (fun _ _ => List.prefix_rfl) fun vs t u h _ => ⟨rfl, h⟩
    · exact calls_prefix_andThen (calls_prefix_evalArgs _ record es t) fun _ _ => List.prefix_rfl
    · exact calls_prefix_andThen (calls_prefix_evalArgs _ record es u) fun _ _ => List.prefix_rfl

end

end Expr

/-- Sessions of the same calls, reply and calls set aside, each of which has left its own world. -/
structure Session.Abreast (p : Start σ) (q : Start τ) (s : Session σ) (s' : Session τ) :
    Prop where
  reply : s.reply = s'.reply
  calls : s.calls = s'.calls
  detached : s.detached = s'.detached
  world : s.world = p.after s.calls
  otherWorld : s'.world = q.after s'.calls

/-- Steps that come to the same, and leave their sessions abreast. -/
structure Step.Abreast (p : Start σ) (q : Start τ) (x : Step σ) (y : Step τ) : Prop where
  draft : x.draft = y.draft
  verdict : x.verdict = y.verdict
  session : x.session.Abreast p q y.session

/-- Steps that are abreast if the calls of their sessions are answered alike. -/
def Step.Coupled (p : Start σ) (q : Start τ) (x : Step σ) (y : Step τ) : Prop :=
  p.AnswersAlike q x.session.calls y.session.calls → x.Abreast p q y

/-- Runs that are abreast if the calls of their sessions are answered alike, and are then of as many
rules. -/
def Run.Coupled (p : Start σ) (q : Start τ) (x : Run σ) (y : Run τ) : Prop :=
  p.AnswersAlike q x.session.calls y.session.calls →
    x.toStep.Abreast p q y.toStep ∧ x.matched = y.matched

/-- Batches that come to the same, and leave their sessions abreast, if the calls of these are
answered alike. -/
def Batch.Coupled (p : Start σ) (q : Start τ) (x : Batch σ) (y : Batch τ) : Prop :=
  p.AnswersAlike q x.session.calls y.session.calls →
    x.records = y.records ∧ x.excluded = y.excluded ∧ x.matched = y.matched ∧
      x.unknown? = y.unknown? ∧ x.session.Abreast p q y.session

variable {s : Session σ} {s' : Session τ}

namespace Session.Abreast

theorem trail (h : s.Abreast p q s') : s.trail.Abreast p q s'.trail :=
  ⟨h.calls, rfl, h.world, h.otherWorld⟩

variable {t : Trail σ} {u : Trail τ}

theorem absorb (h : s.Abreast p q s') (ht : t.Abreast p q u) :
    (s.absorb t).Abreast p q (s'.absorb u) where
  reply := by simp only [Session.absorb, h.reply, ht.patches]
  calls := ht.calls
  detached := h.detached
  world := ht.world
  otherWorld := ht.otherWorld

theorem verdictAfter (h : s.Abreast p q s') {after : Session σ} {after' : Session τ}
    (ha : after.Abreast p q after') : s.verdictAfter after = s'.verdictAfter after' := by
  rw [Session.verdictAfter, Session.verdictAfter, h.reply, ha.reply]

end Session.Abreast

namespace Context

theorem setField_coupled (field : FieldPath) {value : Expr} (draft : Draft)
    (hc : p.HaveAlike q value.handlers) (h : s.Abreast p q s') :
    Step.Coupled p q ((ctx.withCatalog p.catalog).setField field value draft s)
      ((ctx.withCatalog q.catalog).setField field value draft s') := by
  intro ha
  rw [session_setField, session_setField] at ha
  obtain ⟨hv, ht⟩ := value.eval_coupled draft.record s.trail s'.trail hc h.trail ha
  have hafter := h.absorb ht
  simp only [setField, hv, h.verdictAfter hafter]
  split <;> exact ⟨rfl, rfl, hafter⟩

theorem await_coupled {handler : String} (params : Json) (draft : Draft)
    (hc : p.catalog.contains handler = q.catalog.contains handler) (h : s.Abreast p q s') :
    Step.Coupled p q ((ctx.withCatalog p.catalog).await handler params draft s)
      ((ctx.withCatalog q.catalog).await handler params draft s') := by
  intro ha
  simp only [session_await, catalog_withCatalog, invocation_withCatalog] at ha
  obtain ⟨hv, ht⟩ := Trail.call_coupled hc h.trail ha
  have hafter := h.absorb ht
  simp only [await, catalog_withCatalog, invocation_withCatalog, hv, h.verdictAfter hafter]
  split <;> exact ⟨rfl, rfl, hafter⟩

/-- What is set aside on both sides needs no answer. -/
theorem detach_coupled {handler : String} (params : Json) (draft : Draft)
    (hc : p.catalog.contains handler = q.catalog.contains handler) (h : s.Abreast p q s') :
    Step.Coupled p q ((ctx.withCatalog p.catalog).detach handler params draft s)
      ((ctx.withCatalog q.catalog).detach handler params draft s') := by
  intro _
  have hboth : (ctx.withCatalog p.catalog).catalog.contains handler =
      (ctx.withCatalog q.catalog).catalog.contains handler := hc
  rw [detach, detach]
  by_cases hq : (ctx.withCatalog q.catalog).catalog.contains handler
  · rw [if_pos (hboth.trans hq), if_pos hq]
    exact ⟨rfl, rfl, h.reply, h.calls, congrArg (· ++ [_]) h.detached, h.world, h.otherWorld⟩
  · rw [if_neg (hboth ▸ hq), if_neg hq]
    exact ⟨rfl, rfl, h⟩

end Context

namespace Action

theorem perform_coupled {action : Action} (draft : Draft) (hc : p.HaveAlike q action.handlers)
    (h : s.Abreast p q s') :
    Step.Coupled p q (action.perform (ctx.withCatalog p.catalog) draft s)
      (action.perform (ctx.withCatalog q.catalog) draft s') := by
  cases action with
  | update field value => exact Context.setField_coupled field draft hc h
  | notify message => exact Context.detach_coupled _ draft (hc _ List.mem_cons_self) h
  | delete => exact fun _ => ⟨rfl, rfl, h⟩
  | create kind payload => exact Context.await_coupled _ draft (hc _ List.mem_cons_self) h
  | send subject handler => exact Context.detach_coupled _ draft (hc _ List.mem_cons_self) h
  | invoke handler args => exact Context.await_coupled _ draft (hc _ List.mem_cons_self) h
  | stop =>
    exact fun _ => ⟨rfl, rfl, congrArg Reply.terminate h.reply, h.calls, h.detached, h.world,
      h.otherWorld⟩

theorem performAll_coupled {actions : List Action} (draft : Draft)
    (hc : p.HaveAlike q (actions.flatMap Action.handlers)) (h : s.Abreast p q s') :
    Step.Coupled p q (performAll (ctx.withCatalog p.catalog) actions draft s)
      (performAll (ctx.withCatalog q.catalog) actions draft s') := by
  induction actions generalizing draft s s' with
  | nil => exact fun _ => ⟨rfl, rfl, h⟩
  | cons action rest ih =>
    intro ha
    obtain ⟨hfirst, hrest⟩ := Start.haveAlike_append.mp hc
    -- The first action's calls begin those of both runs, so they are answered alike.
    have hstep := perform_coupled draft hfirst h
      (ha.mono (calls_perform_prefix_performAll _ action rest draft s)
        (calls_perform_prefix_performAll _ action rest draft s'))
    revert ha
    simp only [performAll, ← hstep.draft, ← hstep.verdict]
    split
    · exact ih _ hrest hstep.session
    · exact fun _ => ⟨rfl, rfl, hstep.session⟩
    · exact fun _ => ⟨rfl, rfl, hstep.session⟩

end Action

namespace Run

theorem ofRules_coupled {rules : List Rule} (draft : Draft)
    (hc : p.HaveAlike q (rules.flatMap Rule.handlers)) (h : s.Abreast p q s') :
    Run.Coupled p q (ofRules (ctx.withCatalog p.catalog) rules draft s)
      (ofRules (ctx.withCatalog q.catalog) rules draft s') := by
  induction rules generalizing draft s s' with
  | nil => exact fun _ => ⟨⟨rfl, rfl, h⟩, rfl⟩
  | cons rule rest ih =>
    intro ha
    obtain ⟨hrule, hrest⟩ := Start.haveAlike_append.mp hc
    -- Whether a rule matches hangs on no catalog.
    by_cases hm : rule.isMatch (ctx.scope draft.record)
    · have hp : rule.isMatch ((ctx.withCatalog p.catalog).scope draft.record) := hm
      have hq : rule.isMatch ((ctx.withCatalog q.catalog).scope draft.record) := hm
      have hstep := Action.performAll_coupled draft hrule h
        (ha.mono (calls_perform_prefix_ofRules hp rest s)
          (calls_perform_prefix_ofRules hq rest s'))
      revert ha
      simp only [ofRules, if_pos hp, if_pos hq, Rule.perform, ← hstep.draft, ← hstep.verdict]
      split
      · intro ha
        obtain ⟨hrun, hmatched⟩ := ih _ hrest hstep.session ha
        exact ⟨⟨hrun.draft, hrun.verdict, hrun.session⟩, congrArg (· + 1) hmatched⟩
      · exact fun _ => ⟨hstep, rfl⟩
    · have hp : ¬rule.isMatch ((ctx.withCatalog p.catalog).scope draft.record) := hm
      have hq : ¬rule.isMatch ((ctx.withCatalog q.catalog).scope draft.record) := hm
      revert ha
      simp only [ofRules, if_neg hp, if_neg hq]
      exact ih draft hrest h

end Run

namespace Batch

theorem prepend_coupled {run : Run σ} {run' : Run τ} {batch : Batch σ} {batch' : Batch τ}
    (hdraft : run.draft = run'.draft) (hmatched : run.matched = run'.matched)
    (h : Batch.Coupled p q batch batch') :
    Batch.Coupled p q (prepend run batch) (prepend run' batch') := by
  intro ha
  obtain ⟨hrecords, hexcluded, hsum, hunknown, hsession⟩ := h ha
  simp only [prepend, hdraft, hmatched, hrecords, hexcluded, hsum]
  exact ⟨trivial, trivial, trivial, hunknown, hsession⟩

theorem ofRecords_coupled {rules : List Rule} (stops : Bool) (records : List Json)
    (hc : p.HaveAlike q (rules.flatMap Rule.handlers)) (h : s.Abreast p q s') :
    Batch.Coupled p q (ofRecords (ctx.withCatalog p.catalog) rules stops records s)
      (ofRecords (ctx.withCatalog q.catalog) rules stops records s') := by
  induction records generalizing s s' with
  | nil => exact fun _ => ⟨rfl, rfl, rfl, rfl, h⟩
  | cons record rest ih =>
    intro ha
    obtain ⟨hrun, hmatched⟩ := Run.ofRules_coupled { record } hc h
      (ha.mono (calls_ofRecord_prefix_ofRecords _ rules stops record rest s)
        (calls_ofRecord_prefix_ofRecords _ rules stops record rest s'))
    revert ha
    simp only [ofRecords_cons, Run.ofRecord, ← hrun.verdict]
    split
    · exact fun _ => ⟨rfl, rfl, hmatched, rfl, hrun.session⟩
    · refine prepend_coupled hrun.draft hmatched ?_
      rw [afterRun, afterRun, ← hrun.draft]
      split
      · exact fun _ => ⟨rfl, rfl, rfl, rfl, hrun.session⟩
      · exact ih hrun.session

end Batch

end Coupling

end Bylaw
