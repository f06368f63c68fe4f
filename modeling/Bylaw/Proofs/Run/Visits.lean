import Bylaw.Handlers
import Bylaw.Proofs.Run.Growth

/-! The order of an evaluation. The nodes of an expression are visited one after the other, each
after its operands and these from left to right, and the values of those that no other node has
taken yet wait on a stack. Main statement: setting a field makes the calls of the nodes that are
visited, each once and with the values of its arguments, the first visit that fails is the last one,
and what the calls answered changes the reply in any case. -/

namespace Bylaw

variable {σ : Type}

namespace Expr

/-- An expression without its operands and arguments. -/
inductive Node where
  | literal (value : Json)
  | template (t : Template)
  | field (path : FieldPath)
  | today (offset : Int)
  | binary (op : ArithOp)
  | call (handler : String) (arity : Nat)

/-- The number of values that a node takes. -/
def Node.arity : Node → Nat
  | .binary _ => 2
  | .call _ arity => arity
  | _ => 0

mutual

/-- The nodes of an expression: left operands before right ones, and operands and arguments before
what they are for. -/
def postorder : Expr → List Node
  | .literal v => [.literal v]
  | .template t => [.template t]
  | .field path => [.field path]
  | .today offset => [.today offset]
  | .binary op left right => postorder left ++ (postorder right ++ [.binary op])
  | .call handler args => postorderOfArgs args ++ [.call handler args.length]

def postorderOfArgs : List Expr → List Node
  | [] => []
  | e :: es => postorder e ++ postorderOfArgs es

end

/-- What a node comes to, given the values that it takes. -/
def Node.act (ctx : Context σ) (record : Json) (world : σ) :
    Node → List Json → Except ActionError Output × σ
  | .literal v, _ => (.ok { value := v }, world)
  | .template t, _ => (.ok { value := t.renderValue record }, world)
  | .field path, _ => (.ok { value := ((ctx.scope record).resolve? path).getD .null }, world)
  | .today offset, _ =>
    (((shiftDate ctx.today offset).map fun d => { value := .ofDate d }).mapError .evaluation, world)
  | .binary op, [v, w] =>
    (((op.apply v w).map fun result => { value := result }).mapError .evaluation, world)
  | .binary _, _ => (.ok {}, world)
  | .call handler _, values =>
    ctx.catalog.call (ctx.invocation handler record (.arr values)) world

end Expr

open Bylaw.Expr (Node)

/-- A visit of a node: the values that it took, and what it came to. -/
structure Visit where
  node : Node
  values : List Json
  answer : Except ActionError Output

namespace Visit

/-- The call that is made on a visit. -/
def call? (ctx : Context σ) (record : Json) (visit : Visit) : Option Invocation :=
  match visit.node with
  | .call handler _ => some (ctx.invocation handler record (.arr visit.values))
  | _ => none

/-- The patch that is answered on a visit. -/
def patches (visit : Visit) : List Patch := Output.patches visit.answer

/-- Whether a visit came to a value. -/
def Succeeds (visit : Visit) : Prop := ∃ output, visit.answer = .ok output

end Visit

/-- Visits one after the other: what came of them, which are the values that nobody has taken, the
last one first, or an error; and the world that they left. -/
structure Walk (σ : Type) where
  visits : List Visit
  outcome : Except ActionError (List Json)
  world : σ

namespace Walk

/-- Goes on from the values that are there, unless a visit has failed. -/
def andThen (walk : Walk σ) (next : List Json → σ → Walk σ) : Walk σ :=
  match walk.outcome with
  | .ok stack =>
    let more := next stack walk.world
    ⟨walk.visits ++ more.visits, more.outcome, more.world⟩
  | .error _ => walk

/-- The visit of one node, which takes its values from the stack and leaves its own. -/
def visit (ctx : Context σ) (record : Json) (node : Node) (stack : List Json) (world : σ) :
    Walk σ :=
  let values := (stack.take node.arity).reverse
  let (answer, after) := node.act ctx record world values
  ⟨[⟨node, values, answer⟩], answer.map fun output => output.value :: stack.drop node.arity, after⟩

/-- Visits nodes in order, up to the first that fails. -/
def through (ctx : Context σ) (record : Json) : List Node → List Json → σ → Walk σ
  | [], stack, world => ⟨[], .ok stack, world⟩
  | node :: rest, stack, world =>
    (visit ctx record node stack world).andThen (through ctx record rest)

theorem andThen_assoc (walk : Walk σ) (f g : List Json → σ → Walk σ) :
    (walk.andThen f).andThen g = walk.andThen fun stack world => (f stack world).andThen g := by
  obtain ⟨visits, _ | stack, world⟩ := walk
  · rfl
  · simp only [andThen]
    rcases f stack world with ⟨more, _ | values, after⟩
    · rfl
    · simp only [List.append_assoc]

/-- A walk along nodes that took them in order and ended at the first failure. -/
structure Keeps (nodes : List Node) (walk : Walk σ) : Prop where
  order : walk.visits.map Visit.node <+: nodes
  succeeds : ∀ visit ∈ walk.visits.dropLast, visit.Succeeds
  whole (values : List Json) : walk.outcome = .ok values →
    walk.visits.map Visit.node = nodes ∧ ∀ visit ∈ walk.visits, visit.Succeeds
  failed (e : ActionError) : walk.outcome = .error e →
    ∃ before last, walk.visits = before ++ [last] ∧ last.answer = .error e

theorem Keeps.of_error (node : Node) (rest : List Node) (values : List Json) (e : ActionError)
    (after : σ) : Keeps (node :: rest) ⟨[⟨node, values, .error e⟩], .error e, after⟩ where
  order := List.prefix_append [node] rest
  succeeds := List.forall_mem_nil _
  whole := nofun
  failed _ h := ⟨[], ⟨node, values, .error e⟩, rfl, congrArg _ (Except.error.inj h)⟩

theorem Keeps.cons {rest : List Node} {more : Walk σ} (h : more.Keeps rest) (node : Node)
    (values : List Json) (output : Output) :
    Keeps (node :: rest)
      ⟨⟨node, values, .ok output⟩ :: more.visits, more.outcome, more.world⟩ := by
  have hfirst : Visit.Succeeds ⟨node, values, .ok output⟩ := ⟨output, rfl⟩
  refine ⟨?_, ?_, fun stack hstack => ?_, fun e he => ?_⟩
  · exact List.cons_prefix_cons.mpr ⟨rfl, h.order⟩
  · have hsucceeds := h.succeeds
    cases hmore : more.visits with
    | nil => exact List.forall_mem_nil _
    | cons next others =>
      rw [hmore] at hsucceeds
      exact List.forall_mem_cons.mpr ⟨hfirst, hsucceeds⟩
  · obtain ⟨hnodes, hall⟩ := h.whole stack hstack
    exact ⟨congrArg (node :: ·) hnodes, List.forall_mem_cons.mpr ⟨hfirst, hall⟩⟩
  · obtain ⟨before, last, hvisits, hanswer⟩ := h.failed e he
    exact ⟨_ :: before, last, congrArg (_ :: ·) hvisits, hanswer⟩

section

variable (ctx : Context σ) (record : Json)

theorem through_append (nodes more : List Node) (stack : List Json) (world : σ) :
    through ctx record (nodes ++ more) stack world =
      (through ctx record nodes stack world).andThen (through ctx record more) := by
  induction nodes generalizing stack world with
  | nil => rfl
  | cons node rest ih =>
    rw [List.cons_append, through, through, andThen_assoc]
    exact congrArg _ (funext fun stack => funext fun world => ih stack world)

theorem through_singleton (node : Node) (stack : List Json) (world : σ) :
    through ctx record [node] stack world = visit ctx record node stack world := by
  rw [through, andThen]
  cases h : (visit ctx record node stack world).outcome with
  | error e => rfl
  | ok values => simp only [through, List.append_nil, ← h]

theorem through_keeps (nodes : List Node) (stack : List Json) (world : σ) :
    (through ctx record nodes stack world).Keeps nodes := by
  induction nodes generalizing stack world with
  | nil =>
    exact ⟨List.prefix_rfl, List.forall_mem_nil _, fun _ _ => ⟨rfl, List.forall_mem_nil _⟩, nofun⟩
  | cons node rest ih =>
    rw [through, visit, andThen]
    rcases node.act ctx record world (stack.take node.arity).reverse with ⟨e | output, after⟩
    · exact .of_error node rest _ e after
    · exact (ih (output.value :: stack.drop node.arity) after).cons node _ output

end

end Walk

namespace Trail

theorem andThen_eq_ok {α β : Type} {x : Except ActionError α × Trail σ}
    {f : α → Trail σ → Except ActionError β × Trail σ} {w : β} {t : Trail σ}
    (h : andThen x f = (.ok w, t)) : ∃ v t₁, x = (.ok v, t₁) ∧ f v t₁ = (.ok w, t) := by
  rcases x with ⟨e | v, t₁⟩
  · cases h
  · exact ⟨v, t₁, rfl, h⟩

/-- The trail that is gone on with by a walk's calls. -/
def extend (ctx : Context σ) (record : Json) (trail : Trail σ) (walk : Walk σ) : Trail σ :=
  ⟨walk.world, trail.calls ++ walk.visits.filterMap (Visit.call? ctx record),
    trail.patches ++ walk.visits.flatMap Visit.patches⟩

/-- An evaluation that began with a trail comes to what a walk comes to, with its value put on the
stack, and adds the calls of the walk and what they answered. -/
structure Follows {α : Type} (ctx : Context σ) (record : Json) (trail : Trail σ)
    (x : Except ActionError α × Trail σ) (put : α → List Json) (walk : Walk σ) : Prop where
  outcome : walk.outcome = x.1.map put
  trail : x.2 = trail.extend ctx record walk

section

variable {α : Type} {ctx : Context σ} {record : Json} {t : Trail σ}
  {x : Except ActionError α × Trail σ} {put : α → List Json} {walk : Walk σ}

theorem Follows.error (h : Follows ctx record t x put walk) {e : ActionError}
    (he : walk.outcome = .error e) : x.1 = .error e := by
  obtain ⟨e' | v, t'⟩ := x
  · exact congrArg _ (Except.error.inj (h.outcome.symm.trans he))
  · cases h.outcome.symm.trans he

theorem Follows.ok (h : Follows ctx record t x put walk) {values : List Json}
    (hvalues : walk.outcome = .ok values) : ∃ v, values = put v ∧ x.1 = .ok v := by
  obtain ⟨e | v, t'⟩ := x
  · cases h.outcome.symm.trans hvalues
  · exact ⟨v, (Except.ok.inj (h.outcome.symm.trans hvalues)).symm, rfl⟩

end

theorem Follows.andThen {α β : Type} {ctx : Context σ} {record : Json} {t : Trail σ}
    {x : Except ActionError α × Trail σ} {put : α → List Json} {walk : Walk σ}
    (h : Follows ctx record t x put walk) {f : α → Trail σ → Except ActionError β × Trail σ}
    {put' : β → List Json} {next : List Json → σ → Walk σ}
    (hnext : ∀ v t', x = (.ok v, t') →
      Follows ctx record t' (f v t') put' (next (put v) t'.world)) :
    Follows ctx record t (Trail.andThen x f) put' (walk.andThen next) := by
  obtain ⟨visits, outcome, world⟩ := walk
  obtain ⟨houtcome, htrail⟩ := h
  obtain ⟨e | v, t'⟩ := x
  · obtain rfl : outcome = .error e := houtcome
    exact ⟨rfl, htrail⟩
  · obtain rfl : outcome = .ok (put v) := houtcome
    obtain rfl : t' = t.extend ctx record ⟨visits, .ok (put v), world⟩ := htrail
    have hmore := hnext v _ rfl
    refine ⟨hmore.outcome, hmore.trail.trans ?_⟩
    simp only [extend, Walk.andThen, List.filterMap_append, List.flatMap_append, List.append_assoc]

/-- A value that something is made of goes on the stack in another way. -/
theorem Follows.map {α β : Type} {ctx : Context σ} {record : Json} {t : Trail σ}
    {x : Except ActionError α × Trail σ} {put : α → List Json} {walk : Walk σ}
    (h : Follows ctx record t x put walk) (f : α → β) {put' : β → List Json}
    (hp : ∀ v, put' (f v) = put v) :
    Follows ctx record t (Trail.andThen x fun v t => (.ok (f v), t)) put' walk := by
  obtain ⟨houtcome, htrail⟩ := h
  obtain ⟨e | v, t'⟩ := x
  · exact ⟨houtcome, htrail⟩
  · exact ⟨houtcome.trans (congrArg Except.ok (hp v).symm), htrail⟩

section

variable {ctx : Context σ} {record : Json} {t : Trail σ}

/-- A visit on which nothing is called. -/
theorem Follows.uncalled (node : Node) (stack : List Json) (result : Except ActionError Json)
    (hcall : ∀ values answer, Visit.call? ctx record ⟨node, values, answer⟩ = none)
    (h : node.act ctx record t.world (stack.take node.arity).reverse =
      (result.map fun v => { value := v }, t.world)) :
    Follows ctx record t (result, t) (· :: stack.drop node.arity)
      (Walk.visit ctx record node stack t.world) := by
  rw [Walk.visit, h]
  cases result <;> exact ⟨rfl, by simp [extend, hcall, Visit.patches, Output.patches, Except.map]⟩

theorem Follows.called {handler : String} (hc : ctx.catalog.contains handler) (values : List Json)
    (stack : List Json) :
    Follows ctx record t (t.call ctx.catalog (ctx.invocation handler record (.arr values)))
      (· :: stack)
      (Walk.visit ctx record (.call handler values.length) (values.reverse ++ stack) t.world) := by
  have htake : ((values.reverse ++ stack).take values.length).reverse = values := by
    rw [List.take_left' values.length_reverse, List.reverse_reverse]
  have hdrop : (values.reverse ++ stack).drop values.length = stack :=
    List.drop_left' values.length_reverse
  rw [call_of_contains hc]
  simp only [Walk.visit, Node.arity, htake, hdrop, Node.act]
  constructor
  · cases (ctx.catalog.call (ctx.invocation handler record (.arr values)) t.world).1 <;> rfl
  · simp [extend, Visit.call?, Visit.patches]

end

end Trail

namespace Expr

variable {ctx : Context σ} {record : Json}

theorem length_evalArgs {es : List Expr} {t t' : Trail σ} {vs : List Json}
    (h : evalArgs ctx record es t = (.ok vs, t')) : vs.length = es.length := by
  induction es generalizing t t' vs with
  | nil =>
    obtain ⟨hvs, -⟩ := Prod.mk.inj h
    rw [← Except.ok.inj hvs, List.length_nil, List.length_nil]
  | cons e es ih =>
    rw [evalArgs_cons] at h
    obtain ⟨v, t₁, -, hrest⟩ := Trail.andThen_eq_ok h
    obtain ⟨ws, t₂, hes, hvs⟩ := Trail.andThen_eq_ok hrest
    rw [← Except.ok.inj (Prod.mk.inj hvs).1, List.length_cons, List.length_cons, ih hes]

mutual

/-- An evaluation visits the nodes of its expression in order. -/
theorem eval_follows : (e : Expr) → (t : Trail σ) → (stack : List Json) →
    (∀ name ∈ e.handlers, ctx.catalog.contains name) →
      Trail.Follows ctx record t (e.eval ctx record t) (· :: stack)
        (Walk.through ctx record e.postorder stack t.world)
  | .literal v, t, stack, _ => by
    rw [eval, postorder, Walk.through_singleton]
    exact .uncalled (.literal v) stack (.ok v) (fun _ _ => rfl) rfl
  | .template l, t, stack, _ => by
    rw [eval, postorder, Walk.through_singleton]
    exact .uncalled (.template l) stack (.ok _) (fun _ _ => rfl) rfl
  | .field path, t, stack, _ => by
    rw [eval, postorder, Walk.through_singleton]
    exact .uncalled (.field path) stack (.ok _) (fun _ _ => rfl) rfl
  | .today offset, t, stack, _ => by
    rw [eval, postorder, Walk.through_singleton]
    cases hd : shiftDate ctx.today offset with
    | error e =>
      exact .uncalled (.today offset) stack (.error _) (fun _ _ => rfl) (by rw [Node.act, hd]; rfl)
    | ok date =>
      exact .uncalled (.today offset) stack (.ok _) (fun _ _ => rfl) (by rw [Node.act, hd]; rfl)
  | .binary op l r, t, stack, hc => by
    simp only [handlers, List.mem_append] at hc
    rw [eval_binary, postorder, Walk.through_append]
    -- The left operand stays on the stack while the right one is evaluated.
    refine (eval_follows l t stack fun name h => hc name (.inl h)).andThen fun v t _ => ?_
    rw [Walk.through_append]
    refine (eval_follows r t (v :: stack) fun name h => hc name (.inr h)).andThen fun w t _ => ?_
    rw [Walk.through_singleton]
    refine .uncalled (.binary op) (w :: v :: stack) _ (fun _ _ => rfl) ?_
    show (((op.apply v w).map _).mapError _, t.world) = _
    cases op.apply v w <;> rfl
  | .call handler args, t, stack, hc => by
    simp only [handlers, List.forall_mem_cons] at hc
    rw [eval_call, postorder, Walk.through_append]
    refine (evalArgs_follows args t stack hc.2).andThen fun values t' h => ?_
    rw [Walk.through_singleton, ← length_evalArgs h]
    exact .called hc.1 values stack

theorem evalArgs_follows : (es : List Expr) → (t : Trail σ) → (stack : List Json) →
    (∀ name ∈ handlersOfArgs es, ctx.catalog.contains name) →
      Trail.Follows ctx record t (evalArgs ctx record es t) (fun vs => vs.reverse ++ stack)
        (Walk.through ctx record (postorderOfArgs es) stack t.world)
  | [], t, stack, _ => by
    rw [evalArgs, postorderOfArgs]
    exact ⟨rfl, by simp [Walk.through, Trail.extend]⟩
  | e :: es, t, stack, hc => by
    simp only [handlersOfArgs, List.mem_append] at hc
    rw [evalArgs_cons, postorderOfArgs, Walk.through_append]
    refine (eval_follows e t stack fun name h => hc name (.inl h)).andThen fun v t _ => ?_
    exact (evalArgs_follows es t (v :: stack) fun name h => hc name (.inr h)).map (v :: ·)
      fun vs => by simp

end

end Expr

theorem Context.draft_setField (ctx : Context σ) (field : FieldPath) (value : Expr)
    (draft : Draft) (s : Session σ) :
    (ctx.setField field value draft s).draft =
      match (value.eval ctx draft.record s.trail).1 with
      | .error _ => draft
      | .ok v =>
        match field.assign? draft.record v with
        | some record => { draft with record }
        | none => draft := by
  rw [setField]
  rcases value.eval ctx draft.record s.trail with ⟨e | v, t⟩
  · rfl
  · dsimp only
    cases field.assign? draft.record v <;> rfl

/-- A field that is set to the value of an expression whose handlers are there. The nodes of the
expression are visited in order, and the first visit that fails is the last one. The calls that are
made are those of the visits, in order, each with the values of its arguments, and the reply takes
what they answered in this order, whether or not the expression comes to a value. If it does not, or
if the value cannot be set, the record stays as it is. -/
theorem Action.perform_update_visits (ctx : Context σ) (field : FieldPath) {value : Expr}
    (hc : ∀ name ∈ value.handlers, ctx.catalog.contains name) (draft : Draft) (s : Session σ) :
    let result := (value.eval ctx draft.record s.trail).1
    let step := (Action.update field value).perform ctx draft s
    let walk := Walk.through ctx draft.record value.postorder [] s.world
    walk.Keeps value.postorder ∧
      step.session.calls = s.calls ++ walk.visits.filterMap (Visit.call? ctx draft.record) ∧
      step.session.world = walk.world ∧
      step.session.reply = s.reply.merge (walk.visits.flatMap Visit.patches) ∧
      step.session.detached = s.detached ∧
      (∀ e, walk.outcome = .error e → result = .error e ∧ step.draft = draft) ∧
      (∀ values, walk.outcome = .ok values → ∃ v, values = [v] ∧ result = .ok v ∧
        step.draft = match field.assign? draft.record v with
          | some record => { draft with record }
          | none => draft) := by
  intro result step walk
  have hfollows : Trail.Follows ctx draft.record s.trail (value.eval ctx draft.record s.trail)
      (fun v => [v]) walk := value.eval_follows s.trail [] hc
  have hsession : step.session = s.absorb (s.trail.extend ctx draft.record walk) := by
    rw [← hfollows.trail]
    exact ctx.session_setField field value draft s
  have hdraft := ctx.draft_setField field value draft s
  refine ⟨Walk.through_keeps _ _ _ _ _, by rw [hsession]; rfl, by rw [hsession]; rfl,
    by rw [hsession]; rfl, by rw [hsession]; rfl, fun e he => ?_, fun values hvalues => ?_⟩
  · have hresult := hfollows.error he
    rw [hresult] at hdraft
    exact ⟨hresult, hdraft⟩
  · obtain ⟨v, hv, hresult⟩ := hfollows.ok hvalues
    rw [hresult] at hdraft
    exact ⟨v, hv, hresult, hdraft⟩

/-- A sum whose second operand fails after two calls have been answered. -/
theorem Action.perform_update_visits_failing :
    let flaky : Handler Nat := fun inv count =>
      (.error (.handler inv.handler "upstream timeout"), count + 1)
    let catalog : Catalog Nat := ⟨[("flaky", flaky), ("respond", Handlers.respond)]⟩
    let ctx : Context Nat := ⟨catalog, .post, "orders", {}, ⟨0, by decide, by decide⟩⟩
    let total : FieldPath := ⟨["total"], by decide, by decide⟩
    let value : Expr := .binary .add (.call "respond" [.literal (.num (.ofNat 409))])
      (.call "flaky" [.call "respond" [.literal (.num (.ofNat 410))]])
    let draft : Draft := { record := .obj [("total", .num (.ofNat 7))] }
    let step := (Action.update total value).perform ctx draft { world := 0 }
    (∀ name ∈ value.handlers, ctx.catalog.contains name) ∧
      step.session.calls.map Invocation.handler = ["respond", "respond", "flaky"] ∧
      step.session.world = 1 ∧ step.session.reply.status = some 410 ∧ step.draft = draft := by
  intro flaky catalog ctx total value draft step
  have hc : ∀ name ∈ value.handlers, ctx.catalog.contains name := by decide
  obtain ⟨-, hcalls, hworld, hreply, -, herror, -⟩ :=
    perform_update_visits ctx total hc draft { world := 0 }
  have hdraft : step.draft = draft := (herror (.handler "flaky" "upstream timeout") rfl).2
  exact ⟨hc, by rw [hcalls]; rfl, by rw [hworld]; rfl, by rw [hreply]; rfl, hdraft⟩

end Bylaw
