import Bylaw.Gateway.Basic
import Bylaw.Proofs.Json.Equality
import Bylaw.Proofs.RuleSet.Index

/-! The rule that keeps the values of a field apart. Main statement: it leaves a record and the
world as they are, and asks for a refusal if a record of another identity has the same value. -/

namespace Bylaw

variable {τ : Type} {entity field : String}

/-- Two records have the same value in a field, and it is not null. -/
def Json.Shares (field : String) (record other : Json) : Prop :=
  ∃ v w, record.field? field = some v ∧ other.field? field = some w ∧ v.isNull = false ∧ v == w

instance (record other : Json) : Decidable (record.Shares field other) :=
  decidable_of_iff
    (((record.field? field).any fun v => !v.isNull && (other.field? field).any (v == ·)) = true) <|
    by
    simp only [Json.Shares, Option.any_eq_true, Bool.and_eq_true, Bool.not_eq_true']
    constructor
    · rintro ⟨v, hv, hn, w, hw, heq⟩
      exact ⟨v, w, hv, hw, hn, heq⟩
    · rintro ⟨v, w, hv, hw, hn, heq⟩
      exact ⟨v, hv, hn, w, hw, heq⟩

/-- Two records have one identity. -/
def Json.SameId (record other : Json) : Prop :=
  ∃ id, record.recordId? = some id ∧ other.recordId? = some id

instance (record other : Json) : Decidable (record.SameId other) :=
  decidable_of_iff ((record.recordId?.any fun id => other.recordId? == some id) = true) <| by
    simp only [Json.SameId, Option.any_eq_true, beq_iff_eq]

/-- The records that have the value of the given one in a field are all of its identity. -/
def Store.IsFree (store : Store) (entity field : String) (record : Json) : Prop :=
  ∀ other ∈ store.recordsOf entity, record.Shares field other → record.SameId other

instance (store : Store) (record : Json) : Decidable (store.IsFree entity field record) :=
  inferInstanceAs (Decidable (∀ other ∈ store.recordsOf entity, _ → _))

theorem Store.isFree_of_filter_none {store : Store} {record : Json}
    (h : (record.field? field).filter (fun v => !v.isNull) = none) :
    store.IsFree entity field record := by
  rintro other - ⟨v, w, hv, -, hn, -⟩
  simp [hv, hn] at h

/-- Counting the others that have the value of a record finds none exactly if it is free. -/
theorem Store.count_eq_zero_iff {store : Store} {record v : Json}
    (h : (record.field? field).filter (fun v => !v.isNull) = some v) :
    store.count entity field v record.recordId? = 0 ↔ store.IsFree entity field record := by
  obtain ⟨hv, hn⟩ := Option.filter_eq_some_iff.mp h
  have hshares (other : Json) : record.Shares field other ↔
      ∃ w, other.field? field = some w ∧ w == v := by
    simp only [Json.Shares, hv, Option.some.injEq]
    constructor
    · rintro ⟨v, w, rfl, hw, -, heq⟩
      exact ⟨w, hw, BEq.symm heq⟩
    · rintro ⟨w, hw, heq⟩
      exact ⟨v, w, rfl, hw, by simpa using hn, BEq.symm heq⟩
  rw [count, List.length_eq_zero_iff, List.filter_eq_nil_iff]
  refine forall₂_congr fun other _ => ?_
  rw [hshares, Json.SameId]
  cases ho : other.field? field with
  | none => simp
  | some w =>
    cases hid : record.recordId? with
    | none => simp
    | some id => simpa using not_imp_comm.trans (by rw [Bool.not_eq_false])

namespace Handlers

/-- What is answered to a value that another record has. -/
def taken (field : String) : Patch where
  status := some 409
  message := some (field ++ " already exists")
  error := some (.ofFields [("field", .str field)])

/-- The answer hangs on the records of the entity, and the world stays as it is. -/
theorem unique_eq {inv : Invocation} (h : inv.params = .arr [.str field]) (site : Site τ) :
    unique inv site =
      if site.store.IsFree inv.entity field inv.record then (.ok { value := .bool true }, site)
      else (.ok ⟨.bool false, some (taken field)⟩, site) := by
  have hfield : text? inv 0 = some field := by rw [text?, Invocation.arg?, h]; rfl
  simp only [unique, hfield]
  cases hv : (inv.record.field? field).filter fun v => !v.isNull with
  | none => simp [Store.isFree_of_filter_none hv]
  | some v => simp [← Store.count_eq_zero_iff hv, taken]

theorem find?_unique : standard.find? "unique" = some (unique (τ := τ)) := by
  simp only [Catalog.find?, standard, Keyed.ofList, List.foldl_cons, List.foldl_nil]
  iterate 4 rw [Keyed.get?_insert_of_ne (by decide)]
  exact Keyed.get?_insert_self _ _ _

end Handlers

/-- The rule that keeps the values of a field apart. -/
def Rule.keepingUnique (entity field : String) (line : Nat) : Rule :=
  ⟨entity, [.post], none, [.invoke "unique" [.str field]], line⟩

example : Rule.compile "IF POST signups THEN INVOKE unique(\"email\")" =
    .ok [.keepingUnique "signups" "email" 1] := by with_unfolding_all rfl

/-- What the reply to a record comes to. -/
def Store.replyTo (store : Store) (entity field : String) (record : Json) : Reply :=
  if store.IsFree entity field record then {} else ({} : Reply).patch (Handlers.taken field)

section Running

variable {ctx : Context (Site τ)} (hc : ctx.catalog = Handlers.standard)
include hc

/-- The call of the handler changes nothing but the reply, and the run goes on. -/
theorem await_unique (record : Json) (site : Site τ) :
    let params := Json.arr [.str field]
    ctx.await "unique" params { record } { world := site } =
      ⟨{ record }, ⟨site, site.store.replyTo ctx.entity field record,
        [ctx.invocation "unique" record params], []⟩, .proceed⟩ := by
  intro params
  have hanswer := @Handlers.unique_eq τ field (ctx.invocation "unique" record params) rfl site
  simp only [Context.await, Trail.call, Session.trail, Context.invocation, hc,
    Handlers.find?_unique] at hanswer ⊢
  rw [hanswer, Store.replyTo]
  by_cases hfree : site.store.IsFree ctx.entity field record
  · simp only [hfree, if_true]
    rfl
  · simp only [hfree, if_false]
    rfl

theorem ofRecord_keepingUnique (line : Nat) (record : Json) (site : Site τ) :
    Run.ofRecord ctx [.keepingUnique ctx.entity field line] record { world := site } =
      ⟨⟨{ record }, ⟨site, site.store.replyTo ctx.entity field record,
        [ctx.invocation "unique" record (.arr [.str field])], []⟩, .proceed⟩, 1⟩ := by
  simp only [Run.ofRecord, Run.ofRules, Rule.perform, Rule.keepingUnique, Action.performAll,
    Action.perform, await_unique hc]
  rfl

end Running

/-- A gateway with the standard handlers whose one rule keeps the values of a field apart, and that
has put nothing off. -/
structure Gateway.KeepsUnique (entity field : String) (g : Gateway τ) : Prop where
  catalog : g.engine.catalog = Handlers.standard
  rules : ∃ line version, g.engine.rules = .ofRules [.keepingUnique entity field line] version
  idle : g.pending = []

namespace Gateway.KeepsUnique

variable {g : Gateway τ} (hg : g.KeepsUnique entity field)
include hg

theorem rulesFor_post :
    ∃ line, g.engine.rules.rulesFor entity .post = [.keepingUnique entity field line] := by
  obtain ⟨line, version, hr⟩ := hg.rules
  exact ⟨line, by rw [hr, RuleSet.rulesFor_ofRules]; simp [Rule.keepingUnique, Rule.firesOn]⟩

theorem rulesFor_new (name : String) : g.engine.rules.rulesFor name .new = [] := by
  obtain ⟨line, version, hr⟩ := hg.rules
  rw [hr, RuleSet.rulesFor_ofRules]
  simp [Rule.keepingUnique, Rule.firesOn]

theorem withSite (site : Site τ) : KeepsUnique entity field { g with site } :=
  ⟨hg.catalog, hg.rules, hg.idle⟩

/-- Running the rule on an object changes nothing, and says whether its value is taken. -/
theorem run_eq (facts : RequestFacts) (fields : Keyed Json) :
    let record := Json.obj fields
    g.run .post entity facts record =
      (.ok ⟨record, g.site.store.replyTo entity field record, 0, 1⟩, g) := by
  intro record
  obtain ⟨line, hr⟩ := hg.rulesFor_post
  have hrun := @ofRecord_keepingUnique τ field
    (g.engine.context ⟨.post, entity, facts, g.site.clock.date⟩) hg.catalog line record g.site
  simp only [Engine.context] at hrun
  simp only [run, Engine.process, Engine.rulesFor, hr, List.isEmpty_cons, Bool.false_eq_true,
    if_false, record, Engine.processRecord, Engine.context, hrun, Engine.finish]
  rfl

end Gateway.KeepsUnique

end Bylaw
