import Bylaw.Rule.Source
import Bylaw.Json.Basic

/-! Rule sets: rules with an index by entity, under a version that each replacement raises. -/

namespace Bylaw

/-- Rules in order of declaration, the rules of each entity, and the version of the whole. -/
structure RuleSet where
  rules : List Rule := []
  byEntity : Keyed (List Rule) := []
  version : Nat := 0

namespace RuleSet

/-- Adds a rule after those of its entity. -/
def addToIndex (index : Keyed (List Rule)) (rule : Rule) : Keyed (List Rule) :=
  Keyed.insert rule.entity (((Keyed.get? rule.entity index).getD []) ++ [rule]) index

def ofRules (rules : List Rule) (version : Nat := 0) : RuleSet :=
  ⟨rules, rules.foldl addToIndex [], version⟩

def size (set : RuleSet) : Nat := set.rules.length

def hasRulesFor (set : RuleSet) (entity : String) : Bool := Keyed.contains entity set.byEntity

/-- The rules that an event of an entity asks, in order of declaration. -/
def rulesFor (set : RuleSet) (entity : String) (event : Event) : List Rule :=
  ((Keyed.get? entity set.byEntity).getD []).filter fun rule => rule.firesOn event

/-- The entities with rules for an event, in increasing order. -/
def entitiesFor (set : RuleSet) (event : Event) : List String :=
  Keyed.sortedNames ((set.rules.filter fun rule => rule.firesOn event).map Rule.entity)

/-- The entities with rules, in increasing order. -/
def entities (set : RuleSet) : List String := Keyed.names set.byEntity

/-- The rules under the next version. -/
def replace (set : RuleSet) (rules : List Rule) : RuleSet := ofRules rules (set.version + 1)

def source (set : RuleSet) : String := joinWith "\n" (set.rules.map Rule.text)

/-- A rule as it is shown to those who write rules. -/
def describeRule (rule : Rule) : Json :=
  .ofFields [
    ("entity", .str rule.entity),
    ("events", .ofStrings (rule.events.map Event.tag)),
    ("condition", .ofString? (rule.condition.map Clause.allText)),
    ("actions", .ofStrings (rule.actions.map Action.text)),
    ("line", .ofNat rule.line),
    ("source", .str rule.text)]

/-- What is shown of a rule set, field by field. -/
def summary (set : RuleSet) : List (String × Json) := [
  ("version", .ofNat set.version),
  ("count", .ofNat set.size),
  ("entities", .ofStrings set.entities),
  ("rules", .arr (set.rules.map describeRule))]

def describe (set : RuleSet) : Json := .ofFields set.summary

end RuleSet

end Bylaw
