import Bylaw.Proofs.Run.Growth
import Mathlib.Tactic.Common

/-! What a run calls. The world is always what the calls made so far, one after the other, leave of
the first one. Main statement: if the catalog has every handler that the rules call, a run ends for
want of a handler exactly if the handler of its last call answers that there is none. -/

namespace Bylaw

variable {σ : Type}

namespace Catalog

/-- Of calls that begin in a world, the last one is answered by its handler that there is no
handler of the given name. -/
def Disowns (catalog : Catalog σ) (first : σ) (calls : List Invocation) (name : String) : Prop :=
  ∃ before inv handler, calls = before ++ [inv] ∧ catalog.find? inv.handler = some handler ∧
    (handler inv (catalog.settle before first)).1 = .error (.unknownHandler name)

/-- Calls that begin in one world account for another, and for the names that turned out to be
unknown: they lead from the first world to the other, and their last answer is that there is no
such handler. -/
structure Accounts (catalog : Catalog σ) (first : σ) (calls : List Invocation) (world : σ)
    (unknown : String → Prop) : Prop where
  world_eq : world = catalog.settle calls first
  unknown_iff : ∀ name, unknown name ↔ catalog.Disowns first calls name

variable {catalog : Catalog σ} {first world : σ} {calls : List Invocation}
  {unknown : String → Prop}

theorem Accounts.nil (catalog : Catalog σ) (first : σ) :
    catalog.Accounts first [] first fun _ => False :=
  ⟨rfl, fun name => ⟨False.elim, by rintro ⟨before, inv, handler, h, -⟩; simp at h⟩⟩

/-- Where no name was unknown, it does not matter how that is said. -/
theorem Accounts.of_known {other : String → Prop} (h : catalog.Accounts first calls world unknown)
    (hk : ∀ name, ¬unknown name) (ho : ∀ name, ¬other name) :
    catalog.Accounts first calls world other :=
  ⟨h.world_eq, fun name => by rw [← h.unknown_iff name, iff_false_left (ho name)]; exact hk name⟩

theorem Accounts.congr {other : String → Prop} (h : catalog.Accounts first calls world unknown)
    (ho : ∀ name, other name ↔ unknown name) : catalog.Accounts first calls world other :=
  ⟨h.world_eq, fun name => (ho name).trans (h.unknown_iff name)⟩

theorem disowns_concat {inv : Invocation} {handler : Handler σ}
    (hf : catalog.find? inv.handler = some handler) (name : String) :
    catalog.Disowns first (calls ++ [inv]) name ↔
      (handler inv (catalog.settle calls first)).1 = .error (.unknownHandler name) := by
  constructor
  · rintro ⟨before, last, other, hcalls, ho, h⟩
    obtain ⟨rfl, hlast⟩ := List.append_inj' hcalls rfl
    obtain rfl := List.singleton_inj.mp hlast
    obtain rfl := Option.some.inj (hf.symm.trans ho)
    exact h
  · exact fun h => ⟨calls, inv, handler, rfl, hf, h⟩

theorem Disowns.unique {name other : String} (h : catalog.Disowns first calls name)
    (h' : catalog.Disowns first calls other) : name = other := by
  obtain ⟨before, inv, handler, rfl, hf, hname⟩ := h
  rw [disowns_concat hf, hname] at h'
  exact ActionError.unknownHandler.inj (Except.error.inj h')

theorem settle_concat (catalog : Catalog σ) (calls : List Invocation) (inv : Invocation)
    (first : σ) :
    catalog.settle (calls ++ [inv]) first = (catalog.call inv (catalog.settle calls first)).2 := by
  simp [settle]

end Catalog

/-- The calls of a trail account for its world, and for a failure for want of a handler. -/
def Trail.Accounted {α : Type} (catalog : Catalog σ) (first : σ)
    (p : Except ActionError α × Trail σ) : Prop :=
  catalog.Accounts first p.2.calls p.2.world fun name => p.1 = .error (.unknownHandler name)

theorem Trail.call_accounted {catalog : Catalog σ} {first : σ} {t : Trail σ} {inv : Invocation}
    (hc : catalog.contains inv.handler)
    (ht : catalog.Accounts first t.calls t.world fun _ => False) :
    Trail.Accounted catalog first (t.call catalog inv) := by
  obtain ⟨handler, hf⟩ := Option.isSome_iff_exists.mp hc
  rw [call_of_contains hc]
  refine ⟨?_, fun name => ?_⟩
  · rw [Catalog.settle_concat, ← ht.world_eq]
  · rw [Catalog.disowns_concat hf, ← ht.world_eq, Catalog.call, hf]
    cases (handler inv t.world).1 <;> simp [Except.map]

/-- Where an evaluation goes on from a value, no name was unknown so far. -/
theorem Trail.Accounted.andThen {α β : Type} {catalog : Catalog σ} {first : σ}
    {x : Except ActionError α × Trail σ} {f : α → Trail σ → Except ActionError β × Trail σ}
    (hx : Trail.Accounted catalog first x)
    (hf : ∀ v t, catalog.Accounts first t.calls t.world (fun _ => False) →
      Trail.Accounted catalog first (f v t)) :
    Trail.Accounted catalog first (Trail.andThen x f) := by
  rcases x with ⟨e | v, t⟩
  · exact hx.congr fun name => by simp [Trail.andThen]
  · exact hf v t (hx.of_known (by simp) (by simp))

namespace Expr

variable {ctx : Context σ} {first : σ} {record : Json}

mutual

theorem eval_accounted : (e : Expr) → (t : Trail σ) →
    (∀ name ∈ e.handlers, ctx.catalog.contains name) →
    ctx.catalog.Accounts first t.calls t.world (fun _ => False) →
      Trail.Accounted ctx.catalog first (e.eval ctx record t)
  | .literal v, t, _, ht => by simpa [eval, Trail.Accounted] using ht
  | .template p, t, _, ht => by simpa [eval, Trail.Accounted] using ht
  | .field path, t, _, ht => by simpa [eval, Trail.Accounted] using ht
  | .today offset, t, _, ht => by
    cases hd : shiftDate ctx.today offset <;> simpa [eval, hd, Trail.Accounted] using ht
  | .binary op l r, t, hc, ht => by
    simp only [handlers, List.mem_append] at hc
    rw [eval_binary]
    refine (eval_accounted l t (fun name h => hc name (.inl h)) ht).andThen fun v t ht =>
      (eval_accounted r t (fun name h => hc name (.inr h)) ht).andThen fun w t ht => ?_
    cases op.apply v w <;> simpa [Except.mapError, Trail.Accounted] using ht
  | .call handler args, t, hc, ht => by
    simp only [handlers, List.mem_cons, forall_eq_or_imp] at hc
    rw [eval_call]
    exact (evalArgs_accounted args t hc.2 ht).andThen fun params t ht =>
      Trail.call_accounted hc.1 ht

theorem evalArgs_accounted : (es : List Expr) → (t : Trail σ) →
    (∀ name ∈ handlersOfArgs es, ctx.catalog.contains name) →
    ctx.catalog.Accounts first t.calls t.world (fun _ => False) →
      Trail.Accounted ctx.catalog first (evalArgs ctx record es t)
  | [], t, _, ht => by simpa [evalArgs, Trail.Accounted] using ht
  | e :: es, t, hc, ht => by
    simp only [handlersOfArgs, List.mem_append] at hc
    rw [evalArgs_cons]
    exact (eval_accounted e t (fun name h => hc name (.inl h)) ht).andThen fun v t ht =>
      (evalArgs_accounted es t (fun name h => hc name (.inr h)) ht).andThen fun vs t ht => by
        simpa [Trail.Accounted] using ht

end

end Expr

/-- The calls of a session account for its world, and no name was unknown. -/
def Session.Accounted (catalog : Catalog σ) (first : σ) (s : Session σ) : Prop :=
  catalog.Accounts first s.calls s.world fun _ => False

/-- The calls of a step account for its world, and for the handler that it ends for want of. -/
def Step.Accounted (catalog : Catalog σ) (first : σ) (step : Step σ) : Prop :=
  catalog.Accounts first step.session.calls step.session.world fun name =>
    step.verdict = .unknown name

theorem Step.Accounted.session {catalog : Catalog σ} {first : σ} {step : Step σ}
    (h : step.Accounted catalog first) (hk : ∀ name, step.verdict ≠ .unknown name) :
    step.session.Accounted catalog first :=
  h.of_known hk (by simp)

theorem Session.verdictAfter_ne_unknown (s after : Session σ) (name : String) :
    s.verdictAfter after ≠ .unknown name := by
  unfold verdictAfter
  split <;> simp

/-- The verdict on an error names a handler exactly if the error does. -/
theorem ActionError.verdict_eq_unknown_iff {e : ActionError} {otherwise : Verdict} {name : String}
    (ho : otherwise ≠ .unknown name) :
    e.verdict otherwise = .unknown name ↔ e = .unknownHandler name := by
  cases e <;> simp [verdict, ho]

section

variable {ctx : Context σ} {first : σ} {s : Session σ}

theorem Context.setField_accounted (field : FieldPath) {value : Expr} (draft : Draft)
    (hc : ∀ name ∈ value.handlers, ctx.catalog.contains name)
    (hs : s.Accounted ctx.catalog first) :
    (ctx.setField field value draft s).Accounted ctx.catalog first := by
  have he : Trail.Accounted ctx.catalog first (value.eval ctx draft.record s.trail) :=
    value.eval_accounted s.trail hc hs
  rcases hv : value.eval ctx draft.record s.trail with ⟨result, trail⟩
  rw [hv] at he
  have hnone := s.verdictAfter_ne_unknown (s.absorb trail)
  simp only [setField, hv]
  cases result with
  | error e => exact he.congr fun name => by simp [ActionError.verdict_eq_unknown_iff (hnone name)]
  | ok v =>
    -- An assignment that fails is no want of a handler.
    have hok : ctx.catalog.Accounts first trail.calls trail.world fun _ => False :=
      he.of_known (by simp) (by simp)
    dsimp only
    split
    · exact hok.of_known (by simp) hnone
    · rename_i e hassigned
      refine hok.of_known (by simp) fun name => ?_
      rw [ActionError.verdict_eq_unknown_iff (hnone name)]
      rintro rfl
      split at hassigned <;> cases hassigned

theorem Context.await_accounted {handler : String} (params : Json) (draft : Draft)
    (hc : ctx.catalog.contains handler) (hs : s.Accounted ctx.catalog first) :
    (ctx.await handler params draft s).Accounted ctx.catalog first := by
  have ha : Trail.Accounted ctx.catalog first
      (s.trail.call ctx.catalog (ctx.invocation handler draft.record params)) :=
    Trail.call_accounted hc hs
  rcases hv : s.trail.call ctx.catalog (ctx.invocation handler draft.record params)
    with ⟨result, trail⟩
  rw [hv] at ha
  simp only [await, hv]
  cases result with
  | ok v => exact ha.of_known (by simp) (s.verdictAfter_ne_unknown (s.absorb trail))
  | error e =>
    exact ha.congr fun name => by
      rw [ActionError.verdict_eq_unknown_iff (by simp), Except.error.injEq]

theorem Context.detach_accounted {handler : String} (params : Json) (draft : Draft)
    (hc : ctx.catalog.contains handler) (hs : s.Accounted ctx.catalog first) :
    (ctx.detach handler params draft s).Accounted ctx.catalog first := by
  rw [detach, if_pos hc]
  exact hs.of_known (by simp) (by simp)

theorem Action.perform_accounted {action : Action} (draft : Draft)
    (hc : ∀ name ∈ action.handlers, ctx.catalog.contains name)
    (hs : s.Accounted ctx.catalog first) :
    (action.perform ctx draft s).Accounted ctx.catalog first := by
  cases action with
  | update field value => exact Context.setField_accounted field draft hc hs
  | notify message => exact Context.detach_accounted _ draft (hc _ List.mem_cons_self) hs
  | delete => exact hs.of_known (by simp) (by simp [perform])
  | create kind payload => exact Context.await_accounted _ draft (hc _ List.mem_cons_self) hs
  | send subject handler => exact Context.detach_accounted _ draft (hc _ List.mem_cons_self) hs
  | invoke handler args => exact Context.await_accounted _ draft (hc _ List.mem_cons_self) hs
  | stop => exact hs.of_known (by simp) (by simp [perform])

theorem Action.performAll_accounted (actions : List Action) (draft : Draft)
    (hc : ∀ name ∈ actions.flatMap Action.handlers, ctx.catalog.contains name)
    (hs : s.Accounted ctx.catalog first) :
    (Action.performAll ctx actions draft s).Accounted ctx.catalog first := by
  induction actions generalizing draft s with
  | nil => exact hs.of_known (by simp) (by simp [performAll])
  | cons action rest ih =>
    simp only [List.flatMap_cons, List.mem_append] at hc
    have ha := perform_accounted draft (fun name h => hc name (.inl h)) hs
    simp only [performAll]
    split
    · rename_i hv
      exact ih _ (fun name h => hc name (.inr h)) (ha.session (by simp [hv]))
    · rename_i hv
      exact ha.of_known (by simp [hv]) (by simp)
    · rename_i handler hv
      exact ha.congr fun name => by rw [hv]

theorem Run.ofRules_accounted (rules : List Rule) (draft : Draft)
    (hc : ∀ rule ∈ rules, ∀ name ∈ rule.handlers, ctx.catalog.contains name)
    (hs : s.Accounted ctx.catalog first) :
    (Run.ofRules ctx rules draft s).toStep.Accounted ctx.catalog first := by
  induction rules generalizing draft s with
  | nil => exact hs.of_known (by simp) (by simp [ofRules])
  | cons rule rest ih =>
    simp only [List.mem_cons, forall_eq_or_imp] at hc
    have ha : (rule.perform ctx draft s).Accounted ctx.catalog first :=
      Action.performAll_accounted rule.actions draft hc.1 hs
    simp only [ofRules]
    split
    · split
      · rename_i hv
        exact ih _ hc.2 (ha.session (by simp [hv]))
      · exact ha
    · exact ih draft hc.2 hs

theorem Batch.ofRecords_accounted {rules : List Rule} (stops : Bool) (records : List Json)
    (hc : ∀ rule ∈ rules, ∀ name ∈ rule.handlers, ctx.catalog.contains name)
    (hs : s.Accounted ctx.catalog first) :
    let batch := Batch.ofRecords ctx rules stops records s
    ctx.catalog.Accounts first batch.session.calls batch.session.world fun name =>
      batch.unknown? = some name := by
  induction records generalizing s with
  | nil => exact hs.of_known (by simp) (by simp [ofRecords])
  | cons record rest ih =>
    have hrun : (Run.ofRecord ctx rules record s).toStep.Accounted ctx.catalog first :=
      Run.ofRules_accounted rules { record } hc hs
    simp only [ofRecords]
    split
    · rename_i handler hv
      exact hrun.congr fun name => by rw [hv, Option.some.injEq, Verdict.unknown.injEq]
    · rename_i hv
      have hsession := hrun.session hv
      split
      · exact hsession.of_known (by simp) (by simp [prepend])
      · exact ih hsession

end

end Bylaw
