import Bylaw.Gateway.Basic
import Mathlib.Tactic.Common

/-! Runs in which no rule matches. Main statement: data of which no rule holds is processed as if
there were no rules. -/

namespace Bylaw

variable {σ τ : Type}

theorem Run.ofRules_of_unmatched {ctx : Context σ} {rules : List Rule} {draft : Draft}
    {s : Session σ} (h : (ofRules ctx rules draft s).matched = 0) :
    ofRules ctx rules draft s = ⟨⟨draft, s, .proceed⟩, 0⟩ := by
  induction rules with
  | nil => rfl
  | cons rule rest ih =>
    by_cases hmatch : rule.isMatch (ctx.scope draft.record) = true
    · simp only [ofRules, if_pos hmatch] at h
      split at h <;> simp at h
    · rw [ofRules, if_neg hmatch] at h ⊢
      exact ih h

theorem Batch.ofRecords_of_unmatched {ctx : Context σ} {rules : List Rule} {stops : Bool}
    {records : List Json} {s : Session σ}
    (h : (ofRecords ctx rules stops records s).matched = 0) :
    ofRecords ctx rules stops records s = ⟨records, 0, 0, s, none⟩ := by
  induction records generalizing s with
  | nil => rfl
  | cons record rest ih =>
    have hrun : Run.ofRecord ctx rules record s = ⟨⟨{ record }, s, .proceed⟩, 0⟩ := by
      refine Run.ofRules_of_unmatched ?_
      simp only [ofRecords] at h
      split at h
      · exact h
      · split at h <;> exact (Nat.add_eq_zero_iff.mp h).2
    simp only [ofRecords, hrun, Bool.and_false, Bool.false_eq_true, if_false, prepend,
      Nat.add_zero] at h ⊢
    rw [ih h]

namespace Engine

variable {engine : Engine σ} {occasion : Occasion} {world : σ} {o : Outcome}

/-- A session that comes to an outcome called for no handler that does not exist. -/
theorem finish_eq_ok {s : Session σ} {unknown? : Option String} {outcome : Reply → Outcome}
    (h : (finish s unknown? outcome).outcome = .ok o) : outcome s.reply = o := by
  cases unknown? with
  | none => exact Except.ok.inj h
  | some name => cases h

theorem processBatch_of_unmatched {records : List Json}
    (h : (engine.processBatch occasion records world).outcome = .ok o) (hmatched : o.matched = 0) :
    engine.processBatch occasion records world =
      ⟨.ok { data := .arr records }, world, [], []⟩ := by
  obtain rfl := finish_eq_ok h
  simp only [processBatch, Batch.ofRecords_of_unmatched hmatched, finish]

theorem processRecord_of_unmatched {record : Json}
    (h : (engine.processRecord occasion record world).outcome = .ok o) (hmatched : o.matched = 0) :
    engine.processRecord occasion record world = ⟨.ok { data := record }, world, [], []⟩ := by
  obtain rfl := finish_eq_ok h
  have hrun : Run.ofRecord (engine.context occasion) (engine.rulesFor occasion) record { world } =
    ⟨⟨{ record }, { world }, .proceed⟩, 0⟩ := Run.ofRules_of_unmatched hmatched
  simp only [processRecord, hrun, finish, Bool.false_eq_true, if_false]

/-- Data of which no rule holds is left as it is, and no handler is called. -/
theorem process_of_unmatched {data : Json}
    (h : (engine.process occasion data world).outcome = .ok o) (hmatched : o.matched = 0) :
    engine.process occasion data world = ⟨.ok { data }, world, [], []⟩ := by
  unfold process at h ⊢
  split at h
  · rename_i hnone
    rw [if_pos hnone]
  · rename_i hsome
    rw [if_neg hsome]
    split at h
    · exact processBatch_of_unmatched h hmatched
    · exact processRecord_of_unmatched h hmatched

end Engine

namespace Gateway

theorem run_of_unmatched {g after : Gateway τ} {event : Event} {entity : String}
    {facts : RequestFacts} {data : Json} {o : Outcome}
    (h : g.run event entity facts data = (.ok o, after)) (hmatched : o.matched = 0) :
    o = { data } ∧ after = g := by
  obtain ⟨ho, hafter⟩ := Prod.mk.inj h
  have hprocess := Engine.process_of_unmatched ho hmatched
  rw [hprocess] at ho hafter
  exact ⟨(Except.ok.inj ho).symm, hafter.symm⟩

end Gateway

end Bylaw
