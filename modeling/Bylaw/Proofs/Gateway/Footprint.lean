import Bylaw.Gateway.Router
import Bylaw.Proofs.Engine.Relevance
import Bylaw.Proofs.Store.Collections

/-! What a service depends on, and what it leaves alone. A service respects a relation of gateways
if it answers related ones alike and leaves them related. Main statements: the rules at an edge are
those of the entity that the path belongs to, and the services of records keep to the collection of
their entity. -/

namespace Bylaw

variable {σ τ : Type}

/-- Answers to related gateways: they are alike, and the gateways are related again. -/
def Answers {α : Type} (R : Gateway τ → Gateway τ → Prop) (p q : α × Gateway τ) : Prop :=
  p.1 = q.1 ∧ R p.2 q.2

theorem Answers.shape {α : Type} {R : Gateway τ → Gateway τ → Prop} {p q : α × Gateway τ}
    (h : Answers R p q) : ∃ answer g g', p = (answer, g) ∧ q = (answer, g') ∧ R g g' :=
  ⟨p.1, p.2, q.2, rfl, Prod.ext h.1.symm rfl, h.2⟩

/-- Related gateways answer a request alike, and are then related again. -/
def Service.Respects (R : Gateway τ → Gateway τ → Prop) (service : Service τ) : Prop :=
  ∀ request g h, R g h → Answers R (service request g) (service request h)

/-- Gateways that are the same up to the rules of other entities, the rules file, and what has been
put off. -/
structure Gateway.SameRules (entity : String) (g h : Gateway τ) : Prop where
  catalog : g.engine.catalog = h.engine.catalog
  config : g.engine.config = h.engine.config
  hasRulesFor : g.engine.rules.hasRulesFor entity = h.engine.rules.hasRulesFor entity
  rulesFor : ∀ event, g.engine.rules.rulesFor entity event = h.engine.rules.rulesFor entity event
  site : g.site = h.site
  settings : g.settings = h.settings

/-- Gateways that are the same up to the records of other entities. -/
structure Gateway.SameRecords (entity : String) (g h : Gateway τ) : Prop where
  store : ∃ store, h = { g with site := { g.site with store } }
  records : g.site.store.recordsOf entity = h.site.store.recordsOf entity

/-- A relation of gateways that have one site: they stay related if they get another one, and if the
same is put off that the records of an entity give cause to. -/
structure Gateway.IsStable (entity : String) (R : Gateway τ → Gateway τ → Prop) : Prop where
  site : ∀ {g h}, R g h → g.site = h.site
  withSite : ∀ {g h}, R g h → ∀ site, R { g with site } { h with site }
  postpone : ∀ {g h}, R g h → ∀ {event}, event = .new ∨ event = .update → ∀ record,
    R (g.postpone event entity record) (h.postpone event entity record)

namespace Gateway.SameRules

variable {entity : String} {g h : Gateway τ}

theorem run (hR : SameRules entity g h) (event : Event) (facts : RequestFacts) (data : Json) :
    Answers (SameRules entity) (g.run event entity facts data) (h.run event entity facts data) := by
  have hp : g.engine.process ⟨event, entity, facts, g.site.clock.date⟩ data g.site =
      h.engine.process ⟨event, entity, facts, h.site.clock.date⟩ data h.site := by
    have hf : g.engine.rulesFor ⟨event, entity, facts, h.site.clock.date⟩ =
        h.engine.rulesFor ⟨event, entity, facts, h.site.clock.date⟩ := hR.rulesFor event
    rw [hR.site]
    exact Engine.process_congr hR.catalog hR.config hf data h.site
  have ho := congrArg Processed.outcome hp
  refine ⟨ho, hR.catalog, hR.config, hR.hasRulesFor, hR.rulesFor, ?_, hR.settings⟩
  show g.engine.catalog.settle _ _ = h.engine.catalog.settle _ _
  rw [hp, hR.catalog]

theorem withSite (hR : SameRules entity g h) (site : Site τ) :
    SameRules entity { g with site } { h with site } :=
  ⟨hR.catalog, hR.config, hR.hasRulesFor, hR.rulesFor, rfl, hR.settings⟩

theorem postpone (hR : SameRules entity g h) (event : Event) (name : String) (record : Json) :
    SameRules entity (g.postpone event name record) (h.postpone event name record) := by
  simp only [Gateway.postpone]
  split <;> split <;>
    exact ⟨hR.catalog, hR.config, hR.hasRulesFor, hR.rulesFor, hR.site, hR.settings⟩

theorem isStable (name : String) : IsStable name (SameRules (τ := τ) entity) where
  site hR := hR.site
  withSite hR site := hR.withSite site
  postpone hR _ _ record := hR.postpone _ name record

end Gateway.SameRules

namespace Edge

open Gateway

variable {entity : String} {g h : Gateway τ}

theorem receiveBody_answers (hR : SameRules entity g h) (event : Event) (request : Request) :
    Answers (SameRules entity) (receiveBody event entity request g)
      (receiveBody event entity request h) := by
  simp only [receiveBody, hR.settings]
  split
  · exact ⟨rfl, hR⟩
  split
  · exact ⟨rfl, hR⟩
  rename_i record _
  obtain ⟨o, g', h', hg, hh, hr⟩ := (hR.run event request.facts record).shape
  simp only [hg, hh]
  cases o with
  | error e => exact ⟨rfl, hr⟩
  | ok o => cases hs : submissionRefusal? o <;> simpa only [hs] using ⟨rfl, hr⟩

theorem receiveQuery_answers (hR : SameRules entity g h) (event : Event) (request : Request) :
    Answers (SameRules entity) (receiveQuery event entity request g)
      (receiveQuery event entity request h) := by
  simp only [receiveQuery]
  split
  · exact ⟨rfl, hR⟩
  generalize Json.obj _ = record
  obtain ⟨o, g', h', hg, hh, hr⟩ := (hR.run event request.facts record).shape
  simp only [hg, hh]
  cases o with
  | error e => exact ⟨rfl, hr⟩
  | ok o =>
    cases hs : refusal? o with
    | some response => simpa only [hs] using ⟨rfl, hr⟩
    | none =>
      simp only [hs]
      split <;> exact ⟨rfl, hr⟩

theorem receive_answers (hR : SameRules entity g h) (event : Event) (request : Request) :
    Answers (SameRules entity) (receive event entity request g)
      (receive event entity request h) := by
  unfold receive
  split
  · exact receiveBody_answers hR _ request
  · exact receiveBody_answers hR _ request
  · exact receiveBody_answers hR _ request
  · exact receiveQuery_answers hR event request

theorem release_answers (hR : SameRules entity g h) (event : Event) (facts : RequestFacts)
    (response : Response) :
    Answers (SameRules entity) (release event entity facts response g)
      (release event entity facts response h) := by
  simp only [release, hR.settings]
  split
  · exact ⟨rfl, hR⟩
  split
  · exact ⟨rfl, hR⟩
  rename_i data _
  obtain ⟨o, g', h', hg, hh, hr⟩ := (hR.run event facts data).shape
  simp only [hg, hh]
  cases o with
  | error e => exact ⟨rfl, hr⟩
  | ok o =>
    simp only
    split <;> exact ⟨rfl, hr⟩

/-- The rules that an edge asks are those of the entity that the path belongs to. -/
theorem guarded_answers {service : Service τ} (hs : service.Respects (SameRules entity))
    {request : Request} (he : entityOf? request.sentPath = some entity)
    (hR : SameRules entity g h) :
    Answers (SameRules entity) (guarded service request g) (guarded service request h) := by
  simp only [guarded, he, hR.hasRulesFor]
  split
  · exact hs request g h hR
  split
  · exact hs request g h hR
  rename_i event _
  obtain ⟨decision, g', h', hg, hh, hr⟩ := (receive_answers hR event request).shape
  simp only [hg, hh]
  cases decision with
  | error response => exact ⟨rfl, hr⟩
  | ok received =>
    obtain ⟨response, g', h', hg, hh, hr⟩ := (hs received g' h' hr).shape
    simp only [hg, hh]
    split
    · exact release_answers hr event request.facts response
    · exact ⟨rfl, hr⟩

end Edge

namespace Gateway.SameRecords

variable {entity : String} {g h : Gateway τ}

theorem postpone (hR : SameRecords entity g h) (event : Event) (name : String) (record : Json) :
    SameRecords entity (g.postpone event name record) (h.postpone event name record) := by
  obtain ⟨⟨store, rfl⟩, hr⟩ := hR
  simp only [Gateway.postpone]
  split <;> exact ⟨⟨store, rfl⟩, hr⟩

/-- Whatever store the gateways get, they are the same up to the records of other entities if the
stores are. -/
theorem withStore (hR : SameRecords entity g h) {store store' : Store}
    (hs : store.recordsOf entity = store'.recordsOf entity) :
    SameRecords entity { g with site := { g.site with store } }
      { h with site := { h.site with store := store' } } := by
  obtain ⟨⟨store, rfl⟩, -⟩ := hR
  exact ⟨⟨store', rfl⟩, hs⟩

end Gateway.SameRecords

/-- A service that reads and writes the records of one entity only. -/
structure Service.Confined (entity : String) (service : Service τ) : Prop where
  reads : service.Respects (Gateway.SameRecords entity)
  writes : ∀ request g name, name ≠ entity →
    (service request g).2.site.store.recordsOf name = g.site.store.recordsOf name

namespace Records

open Gateway

/-- The services of the records of an entity. -/
inductive Serves (entity : String) : Service τ → Prop where
  | list : Serves entity (list entity)
  | get (id : String) : Serves entity (get entity id)
  | create : Serves entity (create entity)
  | replace (id : String) : Serves entity (replace entity id)
  | patch (id : String) : Serves entity (patch entity id)
  | delete (id : String) : Serves entity (delete entity id)

variable {entity : String} {g h : Gateway τ}

theorem postpone_site (g : Gateway τ) (event : Event) (name : String) (record : Json) :
    (g.postpone event name record).site = g.site := by
  rw [postpone]
  split <;> rfl

section Stable

variable {R : Gateway τ → Gateway τ → Prop} (hstable : IsStable entity R)
include hstable

theorem changed_respects (hR : R g h) (id : String) (result : Option (Json × Store)) :
    Answers R (changed entity id result g) (changed entity id result h) := by
  cases result with
  | none => exact ⟨rfl, hR⟩
  | some result =>
    refine ⟨rfl, ?_⟩
    simp only [changed, hstable.site hR]
    exact hstable.postpone (hstable.withSite hR _) (.inr rfl) result.1

/-- The services of records ask no rules of their own. -/
theorem Serves.respects {service : Service τ} (hs : Serves entity service) :
    service.Respects R := by
  intro request g h hR
  cases hs with
  | list => exact ⟨by simp only [Records.list, hstable.site hR], hR⟩
  | get id =>
    simp only [Records.get, hstable.site hR]
    split <;> exact ⟨rfl, hR⟩
  -- Only here is something put off, and it is put off for the entity itself.
  | create =>
    simp only [Records.create, hstable.site hR]
    split
    · exact ⟨rfl, hR⟩
    · split
      · exact ⟨rfl, hR⟩
      · exact ⟨rfl, hstable.postpone (hstable.withSite hR _) (.inl rfl) _⟩
  | replace id =>
    simp only [Records.replace, hstable.site hR]
    split
    · exact ⟨rfl, hR⟩
    · exact changed_respects hstable hR id _
  | patch id =>
    simp only [Records.patch, hstable.site hR]
    split
    · exact ⟨rfl, hR⟩
    · exact changed_respects hstable hR id _
  | delete id =>
    simp only [Records.delete, hstable.site hR]
    split
    · exact ⟨rfl, hstable.withSite hR _⟩
    · exact ⟨rfl, hR⟩

end Stable

theorem changed_sameRecords (hR : SameRecords entity g h) (id : String)
    {result result' : Option (Json × Store)} (hs : Store.SameResult entity result result') :
    Answers (SameRecords entity) (changed entity id result g) (changed entity id result' h) := by
  rcases hs.cases with ⟨rfl, rfl⟩ | ⟨record, _, _, rfl, rfl, hr⟩
  · exact ⟨rfl, hR⟩
  · exact ⟨rfl, (hR.withStore hr).postpone .update entity record⟩

theorem create_sameRecords (hR : SameRecords entity g h) (request : Request) :
    Answers (SameRecords entity) (create entity request g) (create entity request h) := by
  obtain ⟨⟨store, rfl⟩, hr⟩ := hR
  have hR : SameRecords entity g { g with site := { g.site with store } } := ⟨⟨store, rfl⟩, hr⟩
  simp only [create]
  split
  · exact ⟨rfl, hR⟩
  rename_i v _
  rcases (Store.insert?_same hr g.site.freshId.1 g.site.timestamp v).cases with
    ⟨hg, hh⟩ | ⟨record, before, after, hg, hh, hs⟩
  · have hi : g.site.insert? entity v = none := by simp only [Site.insert?, hg, Option.map_none]
    have hi' : Site.insert? { g.site with store } entity v = none :=
      congrArg (Option.map _) hh
    simp only [hi, hi']
    exact ⟨rfl, hR⟩
  · have hi : g.site.insert? entity v =
        some (record, { g.site.freshId.2 with store := before }) := by
      simp only [Site.insert?, hg, Option.map_some]
    have hi' : Site.insert? { g.site with store } entity v =
        some (record, { g.site.freshId.2 with store := after }) := congrArg (Option.map _) hh
    simp only [hi, hi']
    have hR' : SameRecords entity { g with site := { g.site.freshId.2 with store := before } }
        { g with site := { g.site.freshId.2 with store := after } } := ⟨⟨after, rfl⟩, hs⟩
    exact ⟨rfl, hR'.postpone .new entity record⟩

theorem delete_sameRecords (hR : SameRecords entity g h) (id : String) (request : Request) :
    Answers (SameRecords entity) (delete entity id request g) (delete entity id request h) := by
  rcases (Store.remove?_same hR.records id).cases with ⟨hg, hh⟩ | ⟨record, _, _, hg, hh, hs⟩
  · simp only [delete, hg, hh]
    exact ⟨rfl, hR⟩
  · simp only [delete, hg, hh]
    exact ⟨rfl, hR.withStore hs⟩

theorem changed_others {id name : String} {result : Option (Json × Store)}
    (hk : Store.KeepsOthers entity g.site.store result) (hn : name ≠ entity) :
    (changed entity id result g).2.site.store.recordsOf name = g.site.store.recordsOf name := by
  match result, hk with
  | none, _ => rfl
  | some (record, store), hk =>
    simp only [changed, postpone_site]
    exact hk record store rfl name hn

theorem create_others {name : String} (request : Request) (hn : name ≠ entity) :
    (create entity request g).2.site.store.recordsOf name = g.site.store.recordsOf name := by
  simp only [create]
  split
  · rfl
  split
  · rfl
  rename_i v _ _ record site hi
  obtain ⟨⟨stored, store⟩, hs, he⟩ := Option.map_eq_some_iff.mp hi
  obtain ⟨rfl, rfl⟩ := Prod.mk.inj he
  rw [postpone_site]
  exact Store.insert?_keepsOthers _ _ v stored store hs name hn

theorem Serves.confined {service : Service τ} (hs : Serves entity service) :
    service.Confined entity where
  reads := by
    intro request g h hR
    cases hs with
    | list => exact ⟨by simp only [Records.list, Store.list, hR.records], hR⟩
    | get id =>
      simp only [Records.get, Store.get?, hR.records]
      split <;> exact ⟨rfl, hR⟩
    | create => exact create_sameRecords hR request
    | replace id =>
      simp only [Records.replace]
      split
      · exact ⟨rfl, hR⟩
      · exact changed_sameRecords hR id (Store.replace?_same hR.records id _)
    | patch id =>
      simp only [Records.patch]
      split
      · exact ⟨rfl, hR⟩
      · exact changed_sameRecords hR id (Store.patch?_same hR.records id _)
    | delete id => exact delete_sameRecords hR id request
  writes := by
    intro request g name hn
    cases hs with
    | list => rfl
    | get id =>
      simp only [Records.get]
      split <;> rfl
    | create => exact create_others request hn
    | replace id =>
      simp only [Records.replace]
      split
      · rfl
      · exact changed_others (Store.replace?_keepsOthers id _) hn
    | patch id =>
      simp only [Records.patch]
      split
      · rfl
      · exact changed_others (Store.patch?_keepsOthers id _) hn
    | delete id =>
      simp only [Records.delete]
      split
      · rename_i record store hr
        exact Store.remove?_keepsOthers id record store hr name hn
      · rfl

end Records

end Bylaw
