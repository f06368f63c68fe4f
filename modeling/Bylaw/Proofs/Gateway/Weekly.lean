import Bylaw.Gateway.Virtual
import Bylaw.Proofs.Engine.Local
import Bylaw.Proofs.Store.Rewriting
import Mathlib.Algebra.GroupWithZero.Nat

/-! The weekly run under rules that call no handler. Main statement: it goes over every collection
that has rules for it, and drops, leaves or replaces each record by what the rules make of it alone;
the order of the records and the other collections stay, and the tallies are counts over the
records. -/

namespace Bylaw

variable {τ : Type} {entity : String}

namespace Outcome

/-- What becomes of a stored record: nothing if it was excluded, the record if the rules leave it
equal, and otherwise what they make of it, under its identity. -/
def reworked (o : Outcome) (record : Json) : Option Json :=
  if o.isExcluded then none
  else if o.data == record then some record
  else some (record.withIdOf o.data)

/-- Whether a record is kept, but not as it was. -/
def changes (o : Outcome) (record : Json) : Bool := !o.isExcluded && o.data != record

variable {o : Outcome} {record kept : Json}

/-- A record that is kept equals what the rules make of it, with its identity set back. -/
theorem beq_of_reworked (hr : record.IsRecord) (h : o.reworked record = some kept) :
    kept == record.withIdOf o.data := by
  rw [reworked] at h
  split at h
  · cases h
  · split at h
    · rename_i heq
      obtain rfl := Option.some.inj h
      rw [hr.withIdOf_of_beq heq]
      exact BEq.symm heq
    · obtain rfl := Option.some.inj h
      exact BEq.rfl

theorem recordId?_of_reworked (hr : record.IsRecord) (ho : o.data.isObject)
    (h : o.reworked record = some kept) : kept.recordId? = record.recordId? := by
  rw [reworked] at h
  split at h
  · cases h
  · split at h <;> obtain rfl := Option.some.inj h
    · rfl
    · exact hr.recordId?_withIdOf ho

end Outcome

namespace Tally

/-- The tally of one record. -/
def ofOutcome (o : Outcome) (record : Json) : Tally where
  processed := 1
  matched := o.matched
  updated := if o.changes record then 1 else 0
  removed := if o.isExcluded then 1 else 0

/-- The tally of records. -/
def ofRecords (o : Json → Outcome) (records : List Json) : Tally where
  processed := records.length
  matched := (records.map fun r => (o r).matched).sum
  updated := records.countP fun r => (o r).changes r
  removed := records.countP fun r => (o r).isExcluded

theorem ofRecords_cons (o : Json → Outcome) (record : Json) (rest : List Json) :
    ofRecords o (record :: rest) = (ofOutcome (o record) record).add (ofRecords o rest) := by
  simp only [ofRecords, ofOutcome, add, List.length_cons, List.map_cons, List.sum_cons,
    List.countP_cons, Nat.add_comm]

/-- The tally of an entity with rules: without records they run once, on an empty one. -/
def ofEntity (o : Json → Outcome) (records : List Json) : Tally :=
  if records.isEmpty then { processed := 1, matched := (o (.obj [])).matched }
  else ofRecords o records

theorem processed_ofEntity (o : Json → Outcome) (records : List Json) :
    (ofEntity o records).processed = records.length + if records.isEmpty then 1 else 0 := by
  cases records <;> rfl

theorem removed_ofEntity (o : Json → Outcome) (records : List Json) :
    (ofEntity o records).removed = records.countP fun r => (o r).isExcluded := by
  cases records <;> rfl

theorem updated_ofEntity (o : Json → Outcome) (records : List Json) :
    (ofEntity o records).updated = records.countP fun r => (o r).changes r := by
  cases records <;> rfl

/-- Tallies added up. -/
def total (tallies : List Tally) : Tally := tallies.foldr add {}

theorem count_total {f : Tally → Nat} (hzero : f {} = 0)
    (hadd : ∀ s t : Tally, f (s.add t) = f s + f t) (tallies : List Tally) :
    f (total tallies) = (tallies.map f).sum := by
  induction tallies with
  | nil => exact hzero
  | cons t rest ih =>
    rw [List.map_cons, List.sum_cons, ← ih]
    exact hadd t (total rest)

section

variable (o : String → Json → Outcome) (records : String → List Json) (names : List String)

theorem processed_total :
    (total (names.map fun e => ofEntity (o e) (records e))).processed =
      (names.map fun e => (records e).length).sum +
        names.countP fun e => (records e).isEmpty := by
  rw [count_total (f := processed) rfl fun _ _ => rfl]
  induction names with
  | nil => rfl
  | cons e rest ih =>
    simp only [List.map_cons, List.sum_cons, List.countP_cons, processed_ofEntity, ih]
    omega

theorem removed_total :
    (total (names.map fun e => ofEntity (o e) (records e))).removed =
      (names.map fun e => (records e).countP fun r => (o e r).isExcluded).sum := by
  rw [count_total (f := removed) rfl fun _ _ => rfl, List.map_map]
  exact congrArg List.sum (List.map_congr_left fun e _ => removed_ofEntity (o e) (records e))

theorem updated_total :
    (total (names.map fun e => ofEntity (o e) (records e))).updated =
      (names.map fun e => (records e).countP fun r => (o e r).changes r).sum := by
  rw [count_total (f := updated) rfl fun _ _ => rfl, List.map_map]
  exact congrArg List.sum (List.map_congr_left fun e _ => updated_ofEntity (o e) (records e))

end

end Tally

/-- Records that are objects with a text as `id`, no two of them with the same. -/
structure Json.AreIdentified (records : List Json) : Prop where
  isRecord : ∀ r ∈ records, r.IsRecord
  distinct : (records.map Json.recordId?).Nodup

instance (records : List Json) : Decidable (Json.AreIdentified records) :=
  decidable_of_iff ((∀ r ∈ records, r.IsRecord) ∧ (records.map Json.recordId?).Nodup)
    ⟨fun h => ⟨h.1, h.2⟩, fun h => ⟨h.isRecord, h.distinct⟩⟩

/-- Every collection is one of records with identities of their own. -/
def Store.IsIdentified (store : Store) : Prop := ∀ c ∈ store.collections, Json.AreIdentified c.2

instance (store : Store) : Decidable store.IsIdentified :=
  inferInstanceAs (Decidable (∀ c ∈ store.collections, Json.AreIdentified c.2))

theorem Store.IsIdentified.recordsOf {store : Store} (h : store.IsIdentified) (entity : String) :
    Json.AreIdentified (store.recordsOf entity) := by
  rw [Store.recordsOf]
  cases hget : Keyed.get? entity store.collections with
  | none => exact ⟨fun r hr => absurd hr List.not_mem_nil, List.nodup_nil⟩
  | some records => exact h _ (Keyed.mem_of_get? hget)

namespace Gateway

/-- The gateway with other records. -/
def withStore (g : Gateway τ) (store : Store) : Gateway τ :=
  { g with site := { g.site with store } }

/-- The weekly rules make an outcome of every object, whatever records there are, and do nothing
else. -/
structure Makes (g : Gateway τ) (o : String → Json → Outcome) : Prop where
  runEvent (store : Store) (entity : String) {r : Json} (hr : r.isObject) :
    (g.withStore store).runEvent .weekly entity r = (.ok (o entity r), [], g.withStore store)
  isObject (entity : String) {r : Json} (hr : r.isObject) : (o entity r).data.isObject

/-- Rules without calls make of an object what they make of it in any other store. -/
theorem exists_makes {g : Gateway τ}
    (h : ∀ entity, ∀ rule ∈ g.engine.rules.rulesFor entity .weekly, rule.IsLocal) :
    ∃ o, g.Makes o := by
  have hprocess (entity : String) (r : Json) : ∃ o : Outcome, r.isObject → o.data.isObject ∧
      ∀ store, (g.withStore store).runEvent .weekly entity r = (.ok o, [], g.withStore store) := by
    by_cases hr : r.isObject
    · let occasion : Occasion :=
        ⟨.weekly, entity, eventFacts .weekly entity, g.site.clock.date⟩
      have hlocal : ∀ rule ∈ g.engine.rulesFor occasion, rule.IsLocal := h entity
      obtain ⟨o, ho, hp⟩ := Engine.process_of_local hlocal hr
      refine ⟨o, fun _ => ⟨ho, fun store => ?_⟩⟩
      have hstore := hp { g.site with store }
      simp only [runEvent, withStore]
      rw [hstore]
    · exact ⟨{ data := r }, fun hobj => absurd hobj hr⟩
  choose o ho using hprocess
  exact ⟨o, fun store entity r hr => (ho entity r hr).2 store,
    fun entity r hr => (ho entity r hr).1⟩

variable {g : Gateway τ} {store : Store}

theorem writeBack_middle {done todo : List Json} {record : Json} {o : Outcome}
    (hs : Keyed.get? entity store.collections = some (done ++ record :: todo))
    (hn : ((done ++ record :: todo).map Json.recordId?).Nodup) (hr : record.IsRecord)
    (ho : o.data.isObject) :
    ∃ after, (g.withStore store).writeBack entity record o =
        (.ofOutcome o record, g.withStore after) ∧
      store.Rewritten entity (done ++ (o.reworked record).toList ++ todo) after := by
  -- Excluded records are removed, changed ones replaced, and others left alone.
  obtain ⟨fields, id, -, -, -, hid⟩ := hr.cases
  cases hx : o.isExcluded with
  | true =>
    obtain ⟨after, hremove, hafter⟩ := Store.remove?_middle hs hn hid
    refine ⟨after, ?_, ?_⟩
    · simp only [writeBack, hid, hx, if_true, withStore, hremove, Tally.ofOutcome, Outcome.changes]
      rfl
    · simpa only [Outcome.reworked, hx, if_true, Option.toList_none, List.append_nil] using hafter
  | false =>
    cases heq : o.data == record with
    | true =>
      refine ⟨store, ?_, ?_⟩
      · simp only [writeBack, hid, hx, heq, if_true, Tally.ofOutcome, Outcome.changes, bne]
        rfl
      · refine .refl ?_
        simpa [Outcome.reworked, hx, heq] using hs
    | false =>
      obtain ⟨after, hreplace, hafter⟩ := Store.replace?_middle hs hn hid ho
      refine ⟨after, ?_, ?_⟩
      · simp only [writeBack, hid, hx, heq, Bool.false_eq_true, if_false, withStore, hreplace,
          Tally.ofOutcome, Outcome.changes, bne]
        rfl
      · simpa [Outcome.reworked, hx, heq] using hafter

/-- The run over the records of a collection, those that are done and those that are still to come:
each takes the place of what became of it, and what comes after is as it was when the run began. -/
theorem applyToRecords_withStore {o : String → Json → Outcome} (ho : g.Makes o)
    {done todo : List Json} (hs : Keyed.get? entity store.collections = some (done ++ todo))
    (hn : ((done ++ todo).map Json.recordId?).Nodup) (hr : ∀ r ∈ todo, r.IsRecord) :
    ∃ after, applyToRecords .weekly entity todo (g.withStore store) =
        (.ok (.ofRecords (o entity) todo), [], g.withStore after) ∧
      store.Rewritten entity (done ++ todo.filterMap fun r => (o entity r).reworked r) after := by
  induction todo generalizing done store with
  | nil => exact ⟨store, rfl, .refl (by simpa using hs)⟩
  | cons record rest ih =>
    obtain ⟨hrecord, hrest⟩ := List.forall_mem_cons.mp hr
    have hobj : record.isObject := hrecord.isObject
    have hdata := ho.isObject entity hobj
    obtain ⟨next, hback, hnext⟩ := writeBack_middle (g := g) hs hn hrecord hdata
    -- What stays of the record has its identity, so the identities are still distinct.
    have hdistinct : ((done ++ ((o entity record).reworked record).toList ++ rest).map
        Json.recordId?).Nodup := by
      refine hn.sublist ?_
      cases hk : (o entity record).reworked record with
      | none =>
        rw [Option.toList_none, List.append_nil]
        exact ((List.sublist_cons_self record rest).append_left done).map _
      | some kept =>
        have hid := Outcome.recordId?_of_reworked hrecord hdata hk
        simp [hid]
    obtain ⟨after, happly, hafter⟩ := ih hnext.self hdistinct hrest
    refine ⟨after, ?_, ?_⟩
    · simp only [applyToRecords, ho.runEvent store entity hobj, hback, happly,
        Tally.ofRecords_cons]
      rfl
    · have hmore := hnext.trans hafter
      rw [List.append_assoc] at hmore
      rw [List.filterMap_cons]
      cases hk : (o entity record).reworked record with
      | none => simpa only [hk, Option.toList_none, List.nil_append] using hmore
      | some kept => simpa only [hk, Option.toList_some, List.singleton_append] using hmore

/-- The run of one entity: it maps over its records, if it has any. -/
theorem applyEvent_withStore {o : String → Json → Outcome} (ho : g.Makes o)
    (hrules : (g.engine.rules.rulesFor entity .weekly).isEmpty = false)
    (hi : Json.AreIdentified (store.recordsOf entity)) :
    ∃ after, (g.withStore store).applyEvent .weekly entity (store.recordsOf entity) =
        (.ok (.ofEntity (o entity) (store.recordsOf entity)), [], g.withStore after) ∧
      Keyed.get? entity after.collections = (Keyed.get? entity store.collections).map
        (·.filterMap fun r => (o entity r).reworked r) ∧
      ∀ name, name ≠ entity →
        Keyed.get? name after.collections = Keyed.get? name store.collections := by
  have hempty : (Json.obj []).isObject := rfl
  have hrules' : ((g.withStore store).engine.rules.rulesFor entity .weekly).isEmpty = false :=
    hrules
  cases hget : Keyed.get? entity store.collections with
  | none =>
    refine ⟨store, ?_, hget, fun _ _ => rfl⟩
    simp only [applyEvent, hrules', Store.recordsOf, hget, Option.getD_none, List.isEmpty_nil,
      Bool.false_eq_true, if_false, if_true, ho.runEvent store entity hempty, Tally.ofEntity]
  | some records =>
    rw [Store.recordsOf, hget, Option.getD_some] at hi ⊢
    cases hnil : records.isEmpty with
    | true =>
      obtain rfl := List.isEmpty_iff.mp hnil
      refine ⟨store, ?_, hget, fun _ _ => rfl⟩
      simp only [applyEvent, hrules', List.isEmpty_nil, Bool.false_eq_true, if_false, if_true,
        ho.runEvent store entity hempty, Tally.ofEntity]
    | false =>
      have hwhole : Keyed.get? entity store.collections = some ([] ++ records) := hget
      obtain ⟨after, happly, hafter⟩ := applyToRecords_withStore ho hwhole hi.distinct hi.isRecord
      refine ⟨after, ?_, hafter.self, hafter.others⟩
      simp only [applyEvent, hrules', hnil, Bool.false_eq_true, if_false, happly, Tally.ofEntity]

/-- The runs of entities, one after the other: none of them bears on the records of another. -/
theorem weeklyOf_withStore {o : String → Json → Outcome} (ho : g.Makes o) {names : List String}
    (hnames : names.Nodup)
    (hrules : ∀ e ∈ names, (g.engine.rules.rulesFor e .weekly).isEmpty = false)
    (hi : ∀ e ∈ names, Json.AreIdentified (store.recordsOf e)) :
    ∃ after, weeklyOf names (g.withStore store) =
        (⟨names.length, 0, .total (names.map fun e => .ofEntity (o e) (store.recordsOf e))⟩, [],
          g.withStore after) ∧
      ∀ e, Keyed.get? e after.collections =
        if e ∈ names then (Keyed.get? e store.collections).map
          (·.filterMap fun r => (o e r).reworked r)
        else Keyed.get? e store.collections := by
  induction names generalizing store with
  | nil => exact ⟨store, rfl, fun e => rfl⟩
  | cons entity rest ih =>
    obtain ⟨hnot, hrest⟩ := List.nodup_cons.mp hnames
    obtain ⟨hrulesHead, hrulesRest⟩ := List.forall_mem_cons.mp hrules
    obtain ⟨hiHead, hiRest⟩ := List.forall_mem_cons.mp hi
    obtain ⟨next, happly, hself, hothers⟩ := applyEvent_withStore ho hrulesHead hiHead
    -- The entities that are still to come find the records that the whole run began with.
    have hne : ∀ e ∈ rest, e ≠ entity := fun e he heq => hnot (heq ▸ he)
    have hsame : ∀ e ∈ rest, next.recordsOf e = store.recordsOf e := fun e he => by
      rw [Store.recordsOf, Store.recordsOf, hothers e (hne e he)]
    have hiNext : ∀ e ∈ rest, Json.AreIdentified (next.recordsOf e) := fun e he => by
      rw [hsame e he]
      exact hiRest e he
    obtain ⟨after, hweekly, hafter⟩ := ih hrest hrulesRest hiNext
    refine ⟨after, ?_, fun e => ?_⟩
    · have htallies : rest.map (fun e => Tally.ofEntity (o e) (next.recordsOf e)) =
          rest.map fun e => Tally.ofEntity (o e) (store.recordsOf e) :=
        List.map_congr_left fun e he => by rw [hsame e he]
      rw [htallies] at hweekly
      have hrecords : (g.withStore store).site.store.recordsOf entity = store.recordsOf entity :=
        rfl
      simp only [weeklyOf, hrecords, happly, hweekly]
      rfl
    · rw [hafter e]
      by_cases he : e = entity
      · subst he
        rw [if_neg hnot, if_pos List.mem_cons_self, hself]
      · simp only [List.mem_cons, he, false_or, hothers e he]

/-- The weekly run maps over every collection that has rules for it, and settles nothing. -/
theorem runWeekly_of_makes {o : String → Json → Outcome} (ho : g.Makes o)
    (hrules : ∃ rules version, g.engine.rules = .ofRules rules version)
    (hstore : g.site.store.IsIdentified) :
    let names := g.engine.rules.entitiesFor .weekly
    ∃ after, g.runWeekly =
        (⟨names.length, 0,
          .total (names.map fun e => .ofEntity (o e) (g.site.store.recordsOf e))⟩,
          g.withStore after) ∧
      ∀ e, Keyed.get? e after.collections =
        if e ∈ names then (Keyed.get? e g.site.store.collections).map
          (·.filterMap fun r => (o e r).reworked r)
        else Keyed.get? e g.site.store.collections := by
  intro names
  obtain ⟨rules, version, hr⟩ := hrules
  have hsome : ∀ e ∈ names, (g.engine.rules.rulesFor e .weekly).isEmpty = false := by
    intro e he
    simp only [names, hr] at he ⊢
    exact RuleSet.rulesFor_of_mem_entitiesFor he
  obtain ⟨after, hweekly, hafter⟩ := weeklyOf_withStore ho (RuleSet.nodup_entitiesFor _ _) hsome
    fun e _ => hstore.recordsOf e
  refine ⟨after, ?_, hafter⟩
  have hg : g.withStore g.site.store = g := rfl
  rw [hg] at hweekly
  simp only [runWeekly, names] at hweekly ⊢
  rw [hweekly]
  rfl

/-- The weekly run, under rules that only set fields without calls, exclude records and end runs.
It fails for no entity. Each collection that has rules for it keeps its records in order: a record
is dropped if it is excluded, and is otherwise equal to what the rules make of it alone with its
identity set back. Other collections stay, and none comes to be. -/
theorem runWeekly_maps (hrules : ∃ rules version, g.engine.rules = .ofRules rules version)
    (hlocal : ∀ rule ∈ g.engine.rules.rules, rule.firesOn .weekly → rule.IsLocal)
    (hstore : g.site.store.IsIdentified) :
    let names := g.engine.rules.entitiesFor .weekly
    let records := g.site.store.recordsOf
    let tally := g.runWeekly.1
    ∃ (o : String → Json → Outcome) (after : Store),
      (∀ e r, r.isObject → (g.runEvent .weekly e r).1 = .ok (o e r)) ∧
      g.runWeekly.2 = g.withStore after ∧
      (∀ e, Keyed.get? e after.collections =
        if e ∈ names then (Keyed.get? e g.site.store.collections).map
          (·.filterMap fun r => (o e r).reworked r)
        else Keyed.get? e g.site.store.collections) ∧
      (∀ e, ∀ r ∈ records e, ∀ kept, (o e r).reworked r = some kept →
        kept == r.withIdOf (o e r).data) ∧
      names.Nodup ∧
      (∀ e, e ∈ names ↔ ∃ rule ∈ g.engine.rules.rules, rule.entity = e ∧ rule.firesOn .weekly) ∧
      tally.entities = names.length ∧ tally.errors = 0 ∧
      tally.records.processed = (names.map fun e => (records e).length).sum +
        names.countP (fun e => (records e).isEmpty) ∧
      tally.records.removed =
        (names.map fun e => (records e).countP fun r => (o e r).isExcluded).sum ∧
      tally.records.updated = (names.map fun e => (records e).countP fun r =>
        !(o e r).isExcluded && (o e r).data != r).sum := by
  intro names records tally
  have hlocalFor : ∀ e, ∀ rule ∈ g.engine.rules.rulesFor e .weekly, rule.IsLocal := by
    intro e rule hmem
    obtain ⟨rules, version, hr⟩ := hrules
    rw [hr] at hmem hlocal
    obtain ⟨hrule, hfires⟩ := RuleSet.mem_of_mem_rulesFor hmem
    exact hlocal rule hrule hfires
  obtain ⟨o, ho⟩ := exists_makes hlocalFor
  obtain ⟨after, hrun, hafter⟩ := runWeekly_of_makes ho hrules hstore
  have htally : tally =
      ⟨names.length, 0, .total (names.map fun e => .ofEntity (o e) (records e))⟩ :=
    congrArg Prod.fst hrun
  rw [htally]
  refine ⟨o, after, fun e r hobj => ?_, congrArg Prod.snd hrun, hafter, fun e r hmem kept hk => ?_,
    RuleSet.nodup_entitiesFor _ _, fun e => RuleSet.mem_entitiesFor, rfl, rfl,
    Tally.processed_total o records names, Tally.removed_total o records names,
    Tally.updated_total o records names⟩
  · exact congrArg Prod.fst (ho.runEvent g.site.store e hobj)
  · exact Outcome.beq_of_reworked ((hstore.recordsOf e).isRecord r hmem) hk

/-- A session that has expired, and one that has not. -/
def staleSession : Json := .obj [("expired", .bool true), ("id", .str "s")]

def liveSession : Json := .obj [("id", .str "t")]

theorem isSome_epoch : (Instant.ofSeconds? 0 0).isSome = true := rfl

/-- A gateway that takes out expired sessions every week and names the others anew. It has no
records of visits, and no rules for notes. -/
def tidying : Gateway Unit where
  engine := {
    catalog := {}
    rules := .ofRules [
      { entity := "sessions"
        events := [.weekly]
        condition := some [
          .compare (.field ⟨["expired"], by decide, by decide⟩) .eq (.literal (.bool true))]
        actions := [.delete, .stop]
        line := 1 },
      { entity := "sessions"
        events := [.weekly]
        condition := none
        actions := [.update ⟨["id"], by decide, by decide⟩ (.literal (.str "seen"))]
        line := 2 },
      { entity := "visits"
        events := [.get, .weekly]
        condition := none
        actions := [.stop]
        line := 3 }] 1 }
  site := {
    store := ⟨[("notes", [.obj [("id", .str "n")]]), ("sessions", [staleSession, liveSession])]⟩
    clock := (Instant.ofSeconds? 0 0).get isSome_epoch
    memory := () }

/-- The record whose identity the rules change counts as updated, and has its identity again. -/
theorem runWeekly_maps_sessions :
    (∃ rules version, tidying.engine.rules = .ofRules rules version) ∧
      (∀ rule ∈ tidying.engine.rules.rules, rule.firesOn .weekly → rule.IsLocal) ∧
      tidying.site.store.IsIdentified ∧
      let tally := tidying.runWeekly.1
      let collections := tidying.runWeekly.2.site.store.collections
      tally.entities = 2 ∧ tally.records.processed = 3 ∧ tally.records.removed = 1 ∧
        tally.records.updated = 1 ∧
        Keyed.get? "sessions" collections = some [liveSession] ∧
        Keyed.get? "visits" collections = none := by
  have hrules : ∃ rules version, tidying.engine.rules = .ofRules rules version := ⟨_, _, rfl⟩
  have hlocal : ∀ rule ∈ tidying.engine.rules.rules, rule.firesOn .weekly → rule.IsLocal := by
    decide +kernel
  have hstore : tidying.site.store.IsIdentified := by decide +kernel
  have hnames : tidying.engine.rules.entitiesFor .weekly = ["sessions", "visits"] := by
    decide +kernel
  obtain ⟨o, after, ho, hafter, hmap, -, -, -, hentities, -, hprocessed, hremoved, hupdated⟩ :=
    runWeekly_maps hrules hlocal hstore
  have hstale : o "sessions" staleSession = ⟨staleSession, { terminated := true }, 1, 1⟩ :=
    Except.ok.inj ((ho "sessions" staleSession rfl).symm.trans (by with_unfolding_all rfl))
  have hlive : o "sessions" liveSession = ⟨.obj [("id", .str "seen")], {}, 0, 1⟩ :=
    Except.ok.inj ((ho "sessions" liveSession rfl).symm.trans (by with_unfolding_all rfl))
  have hgone : (o "sessions" staleSession).reworked staleSession = none := by rw [hstale]; rfl
  have hkept : (o "sessions" liveSession).reworked liveSession = some liveSession := by
    rw [hlive]
    with_unfolding_all rfl
  -- The new identity makes the data another value, so the record is put in its own place.
  have hchanged : (Json.obj [("id", .str "seen")] != liveSession) = true := rfl
  have hsessions : Keyed.get? "sessions" tidying.site.store.collections =
    some [staleSession, liveSession] := by with_unfolding_all rfl
  have hvisits : Keyed.get? "visits" tidying.site.store.collections = none := by
    with_unfolding_all rfl
  have hcollections : tidying.runWeekly.2.site.store = after := by rw [hafter]; rfl
  rw [hnames] at hentities hprocessed hremoved hupdated hmap
  refine ⟨hrules, hlocal, hstore, hentities, ?_, ?_, ?_, ?_, ?_⟩
  · simp [hprocessed, Store.recordsOf, hsessions, hvisits]
  · simp [hremoved, Store.recordsOf, hsessions, hvisits, hstale, hlive, Outcome.isExcluded]
  · simp [hupdated, Store.recordsOf, hsessions, hvisits, hstale, hlive, hchanged,
      Outcome.isExcluded]
  · rw [hcollections]
    simpa [hsessions, hgone, hkept] using hmap "sessions"
  · rw [hcollections]
    simpa [hvisits] using hmap "visits"

end Gateway

end Bylaw
