import Bylaw.Proofs.Gateway.Exchange
import Bylaw.Proofs.Gateway.Refusal
import Bylaw.Proofs.Handlers.Uniqueness
import Bylaw.Proofs.Json.Rereading

/-! Objects submitted to a gateway whose one rule keeps the values of a field apart. Main statement:
a submission is refused and leaves the gateway as it is, because its value is taken or because it
cannot be read, or it is stored as it is read from its own text, and then its value is free. -/

namespace Bylaw

variable {τ : Type} {entity field : String}

theorem Request.read_withJson {request : Request} {v w : Json}
    (h : (request.withJson v).body.read = .ok w) : v.reread? = some w := by
  rw [withJson, Body.read, Body.text?_ofString] at h
  exact ((Json.read_compact_iff v w).mp h).2

theorem Records.create_withJson (request : Request) (fields : Keyed Json) (g : Gateway τ) :
    let created := create entity (request.withJson (.obj fields)) g
    (created.1.Refuses ∧ created.2 = g) ∨
      ∃ v record site, (Json.obj fields).reread? = some v ∧
        g.site.insert? entity v = some (record, site) ∧
        created = (enveloped 201 record, Gateway.postpone { g with site } .new entity record) := by
  intro created
  cases ho : objectOf (request.withJson (.obj fields)) with
  | error response =>
    refine .inl ?_
    simp only [created, create, ho]
    exact ⟨objectOf_refuses ho, trivial⟩
  | ok v =>
    have hread := Request.read_withJson (read_of_objectOf ho)
    simp only [created, create, ho]
    cases hi : g.site.insert? entity v with
    | none => exact .inl ⟨Failure.refuses_response _, rfl⟩
    | some result => exact .inr ⟨v, result.1, result.2, hread, hi, rfl⟩

namespace Gateway

namespace KeepsUnique

variable {g : Gateway τ} (hg : g.KeepsUnique entity field)
include hg

theorem hasRulesFor : g.engine.rules.hasRulesFor entity = true := by
  obtain ⟨line, version, hr⟩ := hg.rules
  rw [hr]
  exact RuleSet.hasRulesFor_of_mem (List.mem_singleton_self (Rule.keepingUnique entity field line))
    version

/-- A stored record has no rules to run when its request is answered. -/
theorem catchUp_postpone (record : Json) : (g.postpone .new entity record).catchUp = g := by
  have hnew := hg.rulesFor_new entity
  have hidle := hg.idle
  obtain ⟨engine, site, settings, rulesFile?, pending⟩ := g
  obtain rfl : pending = [] := hidle
  rw [postpone, if_pos hg.hasRulesFor, catchUp]
  simp only [List.nil_append, applyPending, applyEvent, hnew, List.isEmpty_nil, if_true]
  rfl

/-- The edge refuses a body that is too long and a record whose value is taken, and lets a record
pass as it is if its value is free. -/
theorem receive_eq {request : Request} {fields : Keyed Json}
    (hread : request.body.read = .ok (.obj fields)) :
    (∃ response, Edge.receive .post entity request g = (.error response, g) ∧
        (g.settings.maxBodyBytes < request.body.size ∧ response.status = 413 ∨
          response.status = 409)) ∨
      g.site.store.IsFree entity field (.obj fields) ∧
        Edge.receive .post entity request g = (.ok (request.withJson (.obj fields)), g) := by
  simp only [Edge.receive, Edge.receiveBody]
  split
  · exact .inl ⟨_, rfl, .inl ⟨‹_›, rfl⟩⟩
  · simp only [Body.size_ne_zero hread, if_false, hread, hg.run_eq]
    by_cases hfree : g.site.store.IsFree entity field (.obj fields)
    · have hreply : g.site.store.replyTo entity field (.obj fields) = {} := if_pos hfree
      rw [hreply]
      exact .inr ⟨hfree, rfl⟩
    · have hreply : g.site.store.replyTo entity field (.obj fields) =
          ({} : Reply).patch (Handlers.taken field) := if_neg hfree
      rw [hreply]
      exact .inl ⟨_, rfl, .inr rfl⟩

end KeepsUnique

end Gateway

/-- A request to store an object in a collection, and when it comes. -/
structure Submission (entity : String) where
  time : Instant
  request : Request
  fields : Keyed Json
  isPost : request.method = "POST"
  isDirect : request.sentPath = request.path
  isRouted : Route.ofPath? request.path = some (.collection entity)
  isPlain : ¬Percent.HasEscape (Utf8.encode entity)
  isHeld : request.body.read = .ok (.obj fields)

namespace Submission

/-- The object that is submitted. -/
def record (s : Submission entity) : Json := .obj s.fields

theorem collection_eq (s : Submission entity) (v : Json) :
    Router.collection (τ := τ) entity (s.request.withJson v) =
      Records.create entity (s.request.withJson v) := by
  have hmethod : Router.servedMethod (s.request.withJson v).method = "POST" := by
    rw [Request.withJson, s.isPost]
    rfl
  simp only [Router.collection_of_plain s.isPlain, hmethod]

/-- A submission is answered at the edge, or by the service that stores it, and then what was put
off is done. -/
theorem handle_eq {g : Gateway τ} (hg : g.KeepsUnique entity field) (s : Submission entity) :
    Router.handle s.request g =
      match Edge.receive .post entity s.request g with
      | (.error response, g) => (response.sent "POST", g.catchUp)
      | (.ok received, g) =>
        let (response, g) := Router.collection entity received g
        (response.sent "POST", g.catchUp) :=
  Router.handle_post hg.hasRulesFor s.isPost s.isDirect s.isRouted

/-- What becomes of a submission: it is refused, as a conflict unless its value is free or its body
too long, or its value is free and it is stored. -/
theorem handle_cases {g : Gateway τ} (hg : g.KeepsUnique entity field) (s : Submission entity) :
    let handled := Router.handle s.request g
    let isFree := g.site.store.IsFree entity field s.record
    (handled.1.status ≠ 201 ∧ handled.2 = g ∧
        (s.request.body.size ≤ g.settings.maxBodyBytes → ¬isFree → handled.1.status = 409)) ∨
      handled.1.status = 201 ∧ isFree ∧
        ∃ v record site, s.record.reread? = some v ∧
          g.site.insert? entity v = some (record, site) ∧ handled.2 = { g with site } := by
  intro handled isFree
  have heq : handled = _ := s.handle_eq hg
  rcases hg.receive_eq s.isHeld with ⟨response, hreceive, hstatus⟩ | ⟨hfree, hreceive⟩
  · rw [hreceive] at heq
    have hcode : handled.1.status = response.status := by rw [heq]; rfl
    have hsame : handled.2 = g := by rw [heq]; exact Gateway.catchUp_of_idle hg.idle
    refine .inl ⟨?_, hsame, fun hsize _ => ?_⟩
    · rcases hstatus with ⟨-, hs⟩ | hs <;> rw [hcode, hs] <;> decide
    · rw [hcode]
      exact hstatus.resolve_left fun h => Nat.not_le.mpr h.1 hsize
  · rw [hreceive] at heq
    simp only [s.collection_eq] at heq
    rcases @Records.create_withJson τ entity s.request s.fields g with
      ⟨hrefuses, hsame⟩ | ⟨v, record, site, hreread, hinsert, hcreated⟩
    · rw [heq, hsame]
      exact .inl ⟨hrefuses.status_ne (by decide), Gateway.catchUp_of_idle hg.idle,
        fun _ htaken => absurd hfree htaken⟩
    · rw [hcreated] at heq
      rw [heq]
      exact .inr ⟨rfl, hfree, v, record, site, hreread, hinsert,
        (hg.withSite site).catchUp_postpone record⟩

end Submission

end Bylaw
