import Bylaw.Gateway.Basic

/-! Events that no request brings: a record was stored or changed, or a week has passed. What the
rules make of the stored records is written back to the store. -/

namespace Bylaw

/-- What the processing of records did to a store. -/
structure Tally where
  processed : Nat := 0
  matched : Nat := 0
  updated : Nat := 0
  removed : Nat := 0
  deriving DecidableEq

def Tally.add (s t : Tally) : Tally where
  processed := s.processed + t.processed
  matched := s.matched + t.matched
  updated := s.updated + t.updated
  removed := s.removed + t.removed

/-- What the weekly run did. -/
structure WeeklyTally where
  entities : Nat := 0
  errors : Nat := 0
  records : Tally := {}
  deriving DecidableEq

namespace Gateway

variable {τ : Type}

def eventFacts (event : Event) (entity : String) : RequestFacts :=
  { method := some event.tag, path := some ("/api/" ++ entity) }

/-- Processes one record; what it set aside is left to be called. -/
def runEvent (g : Gateway τ) (event : Event) (entity : String) (record : Json) :
    Except EngineError Outcome × List Invocation × Gateway τ :=
  let processed := g.engine.process
    ⟨event, entity, eventFacts event entity, g.site.clock.date⟩ record g.site
  (processed.outcome, processed.detached, { g with site := processed.world })

/-- Writes back what became of a stored record: it is removed if it was excluded, and replaced if it
changed. A record without an identity is left alone. -/
def writeBack (g : Gateway τ) (entity : String) (record : Json) (o : Outcome) :
    Tally × Gateway τ :=
  let tally : Tally := { processed := 1, matched := o.matched }
  let with' (store : Store) : Gateway τ := { g with site := { g.site with store } }
  match record.recordId? with
  | none => (tally, g)
  | some id =>
    if o.isExcluded then
      match g.site.store.remove? entity id with
      | some (_, store) => ({ tally with removed := 1 }, with' store)
      | none => (tally, g)
    -- What is as it was is neither written nor counted.
    else if o.data == record then (tally, g)
    else
      match g.site.store.replace? entity id o.data with
      | some (_, store) => ({ tally with updated := 1 }, with' store)
      | none => (tally, g)

/-- Processes records one by one, up to the first error. -/
def applyToRecords (event : Event) (entity : String) :
    List Json → Gateway τ → Except EngineError Tally × List Invocation × Gateway τ
  | [], g => (.ok {}, [], g)
  | record :: rest, g =>
    match g.runEvent event entity record with
    | (.error e, detached, g) => (.error e, detached, g)
    | (.ok o, detached, g) =>
      let (tally, g) := g.writeBack entity record o
      let (result, more, g) := applyToRecords event entity rest g
      (result.map tally.add, detached ++ more, g)

/-- Processes an event of stored records. An entity with rules but without records has them run once
on an empty record. -/
def applyEvent (g : Gateway τ) (event : Event) (entity : String) (records : List Json) :
    Except EngineError Tally × List Invocation × Gateway τ :=
  if (g.engine.rules.rulesFor entity event).isEmpty then (.ok {}, [], g)
  else if records.isEmpty then
    match g.runEvent event entity (.obj []) with
    | (.error e, detached, g) => (.error e, detached, g)
    | (.ok o, detached, g) => (.ok { processed := 1, matched := o.matched }, detached, g)
  else applyToRecords event entity records g

/-- Runs the weekly rules of entities, each on the records that it then has. -/
def weeklyOf : List String → Gateway τ → WeeklyTally × List Invocation × Gateway τ
  | [], g => ({}, [], g)
  | entity :: rest, g =>
    let (result, detached, g) := g.applyEvent .weekly entity (g.site.store.recordsOf entity)
    let (tally, more, g) := weeklyOf rest g
    let counted : WeeklyTally :=
      match result with
      | .ok records => { tally with records := records.add tally.records }
      | .error _ => { tally with errors := tally.errors + 1 }
    ({ counted with entities := tally.entities + 1 }, detached ++ more, g)

def settle (g : Gateway τ) (detached : List Invocation) : Gateway τ :=
  { g with site := g.engine.catalog.settle detached g.site }

/-- The weekly run over all entities that have rules for it. -/
def runWeekly (g : Gateway τ) : WeeklyTally × Gateway τ :=
  let (tally, detached, g) := weeklyOf (g.engine.rules.entitiesFor .weekly) g
  (tally, g.settle detached)

/-- Processes an event, and then makes the calls that it set aside. -/
def fire (g : Gateway τ) (event : Event) (entity : String) (records : List Json) :
    Except EngineError Tally × Gateway τ :=
  let (result, detached, g) := g.applyEvent event entity records
  (result, g.settle detached)

/-- Puts off an event of a stored record, if its entity has rules. -/
def postpone (g : Gateway τ) (event : Event) (entity : String) (record : Json) : Gateway τ :=
  if g.engine.rules.hasRulesFor entity then
    { g with pending := g.pending ++ [⟨event, entity, record⟩] }
  else g

/-- Processes events that were put off; what they set aside is left to be called. -/
def applyPending : List Pending → Gateway τ → List Invocation × Gateway τ
  | [], g => ([], g)
  | p :: rest, g =>
    let (_, detached, g) := g.applyEvent p.event p.entity [p.record]
    let (more, g) := applyPending rest g
    (detached ++ more, g)

def catchUp (g : Gateway τ) : Gateway τ :=
  let (detached, after) := applyPending g.pending { g with pending := [] }
  after.settle detached

end Gateway

end Bylaw
