import Bylaw.Proofs.Engine.Order

/-! Rules that set fields, exclude records and end runs, and call no handler. Main statement: what
they make of an object is an outcome that hangs on the object and the occasion only, and the world
stays as it is. -/

namespace Bylaw

variable {σ : Type}

/-- Whether an action is quiet or ends the run. -/
def Action.IsLocal : Action → Prop
  | .stop => True
  | action => action.IsQuiet

instance : (action : Action) → Decidable action.IsLocal
  | .stop => isTrue trivial
  | .update field value => inferInstanceAs (Decidable (Action.update field value).IsQuiet)
  | .delete => isTrue trivial
  | .notify _ => isFalse id
  | .create _ _ => isFalse id
  | .send _ _ => isFalse id
  | .invoke _ _ => isFalse id

/-- Whether a rule only sets fields without calls, excludes records and ends runs. -/
def Rule.IsLocal (rule : Rule) : Prop := ∀ action ∈ rule.actions, action.IsLocal

instance (rule : Rule) : Decidable rule.IsLocal :=
  inferInstanceAs (Decidable (∀ action ∈ rule.actions, action.IsLocal))

/-- The session after a run that was ended or not. -/
def Session.endedIf (ended : Bool) (s : Session σ) : Session σ :=
  if ended then { s with reply := s.reply.terminate } else s

/-- How a run goes on that was ended or not. -/
def Verdict.endedIf (ended : Bool) : Verdict := if ended then .terminate else .proceed

/-- A step that makes one draft of another in every session, and does nothing else but that it may
end the run. An object stays an object. -/
structure Draft.Leads (before after : Draft) (ended : Bool) (step : Session σ → Step σ) : Prop where
  step_eq (s : Session σ) : step s = ⟨after, s.endedIf ended, .endedIf ended⟩
  isObject : before.record.isObject → after.record.isObject

theorem FieldPath.isObject_put (path : FieldPath) (value : Json) {record : Json}
    (h : record.isObject) : (path.put value record).isObject := by
  rw [put, assign?]
  cases ha : assignAt? path.segments record value with
  | none => exact h
  | some after =>
    obtain ⟨_, _, _, _, _, _, _, rfl⟩ := obj_of_assignAt? ha
    rfl

section

variable (ctx : Context σ)

theorem Action.IsLocal.leads {action : Action} (h : action.IsLocal) (draft : Draft) :
    ∃ after ended, draft.Leads after ended (action.perform ctx draft) := by
  cases action with
  | update field value =>
    obtain ⟨value?, hp⟩ := perform_update ctx field h draft.record
    refine ⟨draft.put field value?, false, fun s => hp s draft (.refl _ _), fun ho => ?_⟩
    cases value? with
    | none => exact ho
    | some v => exact field.isObject_put v ho
  | delete => exact ⟨{ draft with excluded := true }, false, fun s => rfl, id⟩
  | stop => exact ⟨draft, true, fun s => rfl, id⟩
  | _ => exact h.elim

theorem Action.performAll_leads {actions : List Action} (h : ∀ a ∈ actions, a.IsLocal)
    (draft : Draft) : ∃ after ended, draft.Leads after ended (performAll ctx actions draft) := by
  induction actions generalizing draft with
  | nil => exact ⟨draft, false, fun s => rfl, id⟩
  | cons a rest ih =>
    obtain ⟨ha, hrest⟩ := List.forall_mem_cons.mp h
    obtain ⟨next, ended, hstep⟩ := ha.leads ctx draft
    cases ended with
    | true =>
      refine ⟨{ next with terminated := true }, true, fun s => ?_, hstep.isObject⟩
      simp only [performAll, hstep.step_eq]
      rfl
    | false =>
      obtain ⟨after, ended, hafter⟩ := ih hrest next
      refine ⟨after, ended, fun s => ?_, fun ho => hafter.isObject (hstep.isObject ho)⟩
      simp only [performAll, hstep.step_eq]
      exact hafter.step_eq s

/-- Rules without calls make one draft of another, whatever the session, and as many of them match
in every session. -/
theorem Run.ofRules_leads {rules : List Rule} (h : ∀ rule ∈ rules, rule.IsLocal) (draft : Draft) :
    ∃ after ended matched, draft.Leads after ended (fun s => (ofRules ctx rules draft s).toStep) ∧
      ∀ s, (ofRules ctx rules draft s).matched = matched := by
  induction rules generalizing draft with
  | nil => exact ⟨draft, false, 0, ⟨fun s => rfl, id⟩, fun s => rfl⟩
  | cons rule rest ih =>
    obtain ⟨hrule, hrest⟩ := List.forall_mem_cons.mp h
    by_cases hm : rule.isMatch (ctx.scope draft.record) = true
    · obtain ⟨next, ended, hstep⟩ := Action.performAll_leads ctx hrule draft
      have hnext (s : Session σ) := hstep.step_eq s
      cases ended with
      | true =>
        refine ⟨next, true, 1, ⟨fun s => ?_, hstep.isObject⟩, fun s => ?_⟩ <;>
        · simp only [ofRules, if_pos hm, Rule.perform, hnext]
          rfl
      | false =>
        obtain ⟨after, ended, matched, hafter, hmatched⟩ := ih hrest next
        refine ⟨after, ended, matched + 1,
          ⟨fun s => ?_, fun ho => hafter.isObject (hstep.isObject ho)⟩, fun s => ?_⟩
        · simp only [ofRules, if_pos hm, Rule.perform, hnext]
          exact hafter.step_eq s
        · simp only [ofRules, if_pos hm, Rule.perform, hnext]
          exact congrArg (· + 1) (hmatched s)
    · simpa only [ofRules, if_neg hm] using ih hrest draft

end

/-- What rules without calls make of an object is an object, in whatever world, and the world stays
as it is. -/
theorem Engine.process_of_local {engine : Engine σ} {occasion : Occasion}
    (h : ∀ rule ∈ engine.rulesFor occasion, rule.IsLocal) {record : Json} (hr : record.isObject) :
    ∃ o : Outcome, o.data.isObject ∧
      ∀ world, engine.process occasion record world = ⟨.ok o, world, [], []⟩ := by
  cases record with
  | obj fields =>
    obtain ⟨after, ended, matched, hrun, hmatched⟩ :=
      Run.ofRules_leads (engine.context occasion) h { record := .obj fields }
    by_cases hnone : (engine.rulesFor occasion).isEmpty = true
    · exact ⟨{ data := .obj fields }, hr, fun world => by simp only [process, if_pos hnone]⟩
    · let reply : Reply := (Session.endedIf ended { world := () }).reply
      refine ⟨⟨after.record, reply, if after.excluded then 1 else 0, matched⟩, hrun.isObject hr,
        fun world => ?_⟩
      have hstep := hrun.step_eq { world }
      have hm := hmatched { world }
      simp only [process, if_neg hnone, processRecord, Run.ofRecord, hstep, hm]
      cases ended <;> rfl
  | _ => cases hr

end Bylaw
