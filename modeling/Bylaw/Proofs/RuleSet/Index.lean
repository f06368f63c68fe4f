import Bylaw.RuleSet
import Mathlib.Tactic.Common

/-! The index of a rule set beside its list of rules: the rules of an entity, as the index has them,
are those of the list, in their order, and it has rules for the entities of the list only. -/

namespace Bylaw.RuleSet

/-- The rules that an index has for an entity. -/
def indexed (entity : String) (index : Keyed (List Rule)) : List Rule :=
  (Keyed.get? entity index).getD []

theorem indexed_addToIndex (entity : String) (index : Keyed (List Rule)) (rule : Rule) :
    indexed entity (addToIndex index rule) =
      indexed entity index ++ if rule.entity = entity then [rule] else [] := by
  simp only [indexed, addToIndex]
  by_cases h : rule.entity = entity
  · subst h
    rw [Keyed.get?_insert_self, if_pos rfl, Option.getD_some]
  · rw [Keyed.get?_insert_of_ne (Ne.symm h), if_neg h, List.append_nil]

theorem indexed_foldl (entity : String) (rules : List Rule) (index : Keyed (List Rule)) :
    indexed entity (rules.foldl addToIndex index) =
      indexed entity index ++ rules.filter fun rule => rule.entity = entity := by
  induction rules generalizing index with
  | nil => rw [List.foldl_nil, List.filter_nil, List.append_nil]
  | cons rule rest ih =>
    rw [List.foldl_cons, ih, indexed_addToIndex, List.append_assoc, List.filter_cons]
    congr 1
    by_cases h : rule.entity = entity
    · simp [h]
    · simp [h]

/-- The rules that an event of an entity asks are those of the list that are for it, in order. -/
theorem rulesFor_ofRules (rules : List Rule) (version : Nat) (entity : String) (event : Event) :
    (ofRules rules version).rulesFor entity event =
      rules.filter fun rule => rule.entity = entity && rule.firesOn event := by
  have h := indexed_foldl entity rules []
  simp only [indexed, Keyed.get?, Option.getD_none, List.nil_append] at h
  rw [rulesFor, ofRules, h, List.filter_filter]
  congr 1
  funext rule
  rw [Bool.and_comm]

theorem contains_addToIndex (entity : String) (index : Keyed (List Rule)) (rule : Rule) :
    Keyed.contains entity (addToIndex index rule) =
      (decide (rule.entity = entity) || Keyed.contains entity index) := by
  by_cases h : rule.entity = entity
  · subst h
    simp [addToIndex, Keyed.contains]
  · simp [addToIndex, Keyed.contains, Keyed.get?_insert_of_ne (Ne.symm h), h]

theorem contains_foldl (entity : String) (rules : List Rule) (index : Keyed (List Rule)) :
    Keyed.contains entity (rules.foldl addToIndex index) =
      ((rules.any fun rule => rule.entity = entity) || Keyed.contains entity index) := by
  induction rules generalizing index with
  | nil => rfl
  | cons rule rest ih =>
    rw [List.foldl_cons, ih, contains_addToIndex, List.any_cons, Bool.or_left_comm, Bool.or_assoc]

theorem hasRulesFor_iff {rules : List Rule} {version : Nat} {entity : String} :
    (ofRules rules version).hasRulesFor entity = true ↔ ∃ rule ∈ rules, rule.entity = entity := by
  rw [hasRulesFor, ofRules, contains_foldl]
  simp [Keyed.contains, Keyed.get?]

theorem hasRulesFor_of_mem {rules : List Rule} {rule : Rule} (h : rule ∈ rules)
    (version : Nat) : (ofRules rules version).hasRulesFor rule.entity = true :=
  hasRulesFor_iff.mpr ⟨rule, h, rfl⟩

theorem pairwise_entitiesFor (set : RuleSet) (event : Event) :
    (set.entitiesFor event).Pairwise (· < ·) :=
  Keyed.isSorted_iff_names.mp (Keyed.isSorted_ofList _)

theorem nodup_entitiesFor (set : RuleSet) (event : Event) : (set.entitiesFor event).Nodup :=
  (pairwise_entitiesFor set event).imp String.ne_of_lt

theorem mem_entitiesFor {set : RuleSet} {entity : String} {event : Event} :
    entity ∈ set.entitiesFor event ↔
      ∃ rule ∈ set.rules, rule.entity = entity ∧ rule.firesOn event := by
  simp only [entitiesFor, Keyed.mem_sortedNames, List.mem_map, List.mem_filter]
  constructor
  · rintro ⟨rule, ⟨hmem, hfires⟩, he⟩
    exact ⟨rule, hmem, he, hfires⟩
  · rintro ⟨rule, hmem, he, hfires⟩
    exact ⟨rule, ⟨hmem, hfires⟩, he⟩

section

variable {rules : List Rule} {version : Nat} {entity : String} {event : Event}

theorem mem_of_mem_rulesFor {rule : Rule}
    (h : rule ∈ (ofRules rules version).rulesFor entity event) :
    rule ∈ (ofRules rules version).rules ∧ rule.firesOn event := by
  rw [rulesFor_ofRules, List.mem_filter, Bool.and_eq_true] at h
  exact ⟨h.1, h.2.2⟩

/-- The entities with rules for an event are those for which the event asks rules. -/
theorem mem_entitiesFor_iff : entity ∈ (ofRules rules version).entitiesFor event ↔
    (ofRules rules version).rulesFor entity event ≠ [] := by
  rw [mem_entitiesFor, ← List.isEmpty_eq_false_iff, List.isEmpty_eq_false_iff_exists_mem,
    rulesFor_ofRules]
  simp only [List.mem_filter, Bool.and_eq_true, decide_eq_true_eq]
  rfl

theorem rulesFor_of_mem_entitiesFor (h : entity ∈ (ofRules rules version).entitiesFor event) :
    ((ofRules rules version).rulesFor entity event).isEmpty = false :=
  List.isEmpty_eq_false_iff.mpr (mem_entitiesFor_iff.mp h)

end

end Bylaw.RuleSet
