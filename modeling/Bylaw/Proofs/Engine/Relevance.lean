import Bylaw.Proofs.Engine.Order

/-! Which rules matter. A rule set is asked in three ways: for the rules of an entity and an event,
whether an entity has rules, and for the entities with rules for an event. Main statement: all three
agree with a scan of the list of rules, and what is processed is the same without the rules of other
entities and other events. -/

namespace Bylaw

variable {σ : Type}

namespace Engine

theorem process_congr {engine other : Engine σ} {occasion : Occasion}
    (hc : engine.catalog = other.catalog) (hg : engine.config = other.config)
    (hr : engine.rulesFor occasion = other.rulesFor occasion) (data : Json) (world : σ) :
    engine.process occasion data world = other.process occasion data world := by
  have hx : engine.context occasion = other.context occasion := by rw [context, hc, context]
  cases data <;> simp only [process, processBatch, processRecord, hx, hg, hr]

theorem rulesFor_withRules_rulesFor (engine : Engine σ) (rules : List Rule) (version other : Nat)
    (occasion : Occasion) :
    (engine.withRules ((engine.withRules rules version).rulesFor occasion) other).rulesFor
      occasion = (engine.withRules rules version).rulesFor occasion := by
  simp only [rulesFor_withRules, List.filter_filter, Bool.and_self]

/-- A rule set of any list of rules. The rules that an event of an entity asks are those of the
list that are for both, in order and as often as they stand there. An entity has rules exactly if
one of the list is for it, and the entities with rules for an event are, in strictly increasing
order, those for which the event asks rules. And whatever is processed, by whatever handlers and
settings, comes to the same, with the same calls, with the rules alone that the occasion asks. -/
theorem process_relevant (engine : Engine σ) (rules : List Rule) (version : Nat) :
    let set := RuleSet.ofRules rules version
    let asked (entity : String) (event : Event) : List Rule :=
      rules.filter fun rule => rule.entity = entity ∧ event ∈ rule.events
    (∀ entity event, set.rulesFor entity event = asked entity event) ∧
      (∀ entity, set.hasRulesFor entity = true ↔ ∃ rule ∈ rules, rule.entity = entity) ∧
      (∀ event, (set.entitiesFor event).Pairwise (· < ·) ∧
        ∀ entity, entity ∈ set.entitiesFor event ↔ set.rulesFor entity event ≠ []) ∧
      ∀ (occasion : Occasion) (other : Nat) (data : Json) (world : σ),
        (engine.withRules rules version).process occasion data world =
          (engine.withRules (asked occasion.entity occasion.event) other).process occasion data
            world := by
  intro set asked
  have hasked (entity : String) (event : Event) :
      set.rulesFor entity event = asked entity event := by
    simp only [set, asked, RuleSet.rulesFor_ofRules, Rule.firesOn, List.contains_eq_mem,
      Bool.decide_and]
  refine ⟨hasked, fun entity => RuleSet.hasRulesFor_iff, fun event => ⟨?_, fun entity => ?_⟩, ?_⟩
  · exact RuleSet.pairwise_entitiesFor set event
  · exact RuleSet.mem_entitiesFor_iff
  · intro occasion other data world
    have hr := rulesFor_withRules_rulesFor engine rules version other occasion
    rw [← hasked]
    exact process_congr (by rfl) (by rfl) hr.symm data world

end Engine

end Bylaw
