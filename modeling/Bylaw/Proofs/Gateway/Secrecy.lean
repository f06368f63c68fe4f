import Bylaw.Proofs.Gateway.Entity
import Bylaw.Proofs.Gateway.Refusal
import Bylaw.Proofs.Json.FieldNames
import Bylaw.Proofs.RuleSet.Index

/-! What the edge of a gateway keeps from clients. Main statement: the response to a request that
reads or deletes records of an entity with rules has no field `user` at any depth, if it reports a
success or was made from a reply. -/

namespace Bylaw

variable {σ τ : Type}

/-- The body is the text of a value without a field of the given name, and nobody who reads it finds
one. -/
def Response.Conceals (name : String) (response : Response) : Prop :=
  ∃ v : Json, response.body = .ofString v.compact ∧ name ∉ v.fieldNames ∧
    ∀ w, response.body.read = .ok w → name ∉ w.fieldNames

theorem Response.conceals_of_body {name : String} {response : Response} {v : Json}
    (hb : response.body = .ofString v.compact) (hn : name ∉ v.fieldNames) :
    response.Conceals name := by
  refine ⟨v, hb, hn, fun w hw hname => hn ?_⟩
  rw [hb, Body.read, Body.text?_ofString] at hw
  exact Json.fieldNames_read_subset hw hname

/-- A response that has no field `user` if it reports a success or was made from a reply. -/
def Response.IsDiscreet (response : Response) : Prop :=
  response.isSuccess = true ∨ response.rulesApplied = true → response.Conceals "user"

/-- A response that the rules have not been applied to, and that carries its data in an envelope if
it reports a success. -/
def Response.IsServed (response : Response) : Prop :=
  response.rulesApplied = false ∧
    (response.isSuccess = true → ∃ status data, response = Records.enveloped status data)

theorem Response.Refuses.isServed {response : Response} (h : response.Refuses) :
    response.IsServed :=
  ⟨h.bare, fun hs => by rw [h.fails] at hs; cases hs⟩

theorem Response.Refuses.isDiscreet {response : Response} (h : response.Refuses) :
    response.IsDiscreet := by
  rintro (hs | hs)
  · rw [h.fails] at hs
    cases hs
  · rw [h.bare] at hs
    cases hs

namespace Records

theorem enveloped_isServed (status : Nat) (data : Json) : (enveloped status data).IsServed :=
  ⟨rfl, fun _ => ⟨status, data, rfl⟩⟩

theorem changed_isServed (entity id : String) (result : Option (Json × Store)) (g : Gateway τ) :
    (changed entity id result g).1.IsServed := by
  cases result with
  | none => exact (Failure.refuses_response _).isServed
  | some result => exact enveloped_isServed 200 result.1

theorem Serves.isServed {entity : String} {service : Service τ} (hs : Serves entity service)
    (request : Request) (g : Gateway τ) : (service request g).1.IsServed := by
  cases hs with
  | list => exact enveloped_isServed _ _
  | get id =>
    unfold Records.get
    split
    · exact enveloped_isServed _ _
    · exact (Failure.refuses_response _).isServed
  | create =>
    unfold Records.create
    split
    · exact (objectOf_refuses ‹_›).isServed
    · split
      · exact (Failure.refuses_response _).isServed
      · exact enveloped_isServed _ _
  | replace id =>
    unfold Records.replace
    split
    · exact (objectOf_refuses ‹_›).isServed
    · exact changed_isServed _ _ _ _
  | patch id =>
    unfold Records.patch
    split
    · exact (objectOf_refuses ‹_›).isServed
    · exact changed_isServed _ _ _ _
  | delete id =>
    unfold Records.delete
    split
    · exact enveloped_isServed _ _
    · exact (Failure.refuses_response _).isServed

end Records

namespace Router

/-- The answer to a request is served, whatever the gateway. -/
def Serves (answer : Gateway τ → Response × Gateway τ) : Prop := ∀ g, (answer g).1.IsServed

theorem withEntity_serves (segment : String) {service : String → Service τ} {request : Request}
    (h : ∀ entity, Serves (service entity request)) :
    Serves (withEntity segment service request) := by
  cases hd : Percent.decodeText? segment with
  | some entity => simpa only [withEntity, hd] using h entity
  | none =>
    simp only [withEntity, hd]
    exact fun _ => Response.Refuses.isServed ⟨rfl, rfl⟩

theorem withRecord_serves (segment idSegment : String) {service : String → String → Service τ}
    {request : Request} (h : ∀ entity id, Serves (service entity id request)) :
    Serves (withRecord segment idSegment service request) := by
  refine withEntity_serves segment fun entity => ?_
  cases hd : Percent.decodeText? idSegment with
  | some id => exact h entity id
  | none => exact fun _ => Response.Refuses.isServed ⟨rfl, rfl⟩

theorem notAllowed_serves (request : Request) : Serves (notAllowed (τ := τ) request) :=
  fun _ => Response.Refuses.isServed ⟨rfl, rfl⟩

/-- The services of records answer in envelopes, and apply no rules themselves. -/
theorem services?_serves {route : Route} {service : Service τ}
    (hv : services? route = some service) (request : Request) : Serves (service request) := by
  cases route with
  | collection segment =>
    obtain rfl := Option.some.inj hv
    unfold collection
    split
    · exact withEntity_serves segment fun entity => Records.Serves.list.isServed request
    · exact withEntity_serves segment fun entity => Records.Serves.create.isServed request
    · exact notAllowed_serves request
  | record segment idSegment =>
    obtain rfl := Option.some.inj hv
    unfold record
    split
    · exact withRecord_serves segment idSegment fun _ id => (Records.Serves.get id).isServed request
    · exact withRecord_serves segment idSegment fun _ id =>
        (Records.Serves.replace id).isServed request
    · exact withRecord_serves segment idSegment fun _ id =>
        (Records.Serves.patch id).isServed request
    · exact withRecord_serves segment idSegment fun _ id =>
        (Records.Serves.delete id).isServed request
    · exact notAllowed_serves request
  | _ => cases hv

end Router

namespace Edge

/-- A response that is made from a reply has no users, and the status that is added is none. -/
theorem replied_conceals (reply : Reply) (status : Nat) (data : Json) :
    (replied reply status data).Conceals "user" := by
  refine Response.conceals_of_body rfl ?_
  have hnone := (reply.body data).fieldNames_withoutUsers
  split
  · rename_i fields heq
    rw [heq, Json.mem_fieldNames_obj] at hnone
    rw [Json.mem_fieldNames_obj]
    rintro ⟨field, hf, hn⟩
    rcases Keyed.mem_of_mem_insert hf with rfl | hf
    · rcases hn with hn | hn
      · have hne : "user" ≠ "status" := by decide
        exact hne hn
      · cases hn
    · exact hnone ⟨field, hf, hn⟩
  · exact hnone

theorem replied_isDiscreet (reply : Reply) (status : Nat) (data : Json) :
    (replied reply status data).IsDiscreet :=
  fun _ => replied_conceals reply status data

theorem refusal?_isDiscreet {o : Outcome} {response : Response}
    (h : refusal? o = some response) : response.IsDiscreet := by
  unfold refusal? at h
  split at h
  · obtain rfl := Option.some.inj h
    exact replied_isDiscreet _ _ _
  · split at h
    · obtain rfl := Option.some.inj h
      exact replied_isDiscreet _ _ _
    · cases h

theorem receiveQuery_isDiscreet {event : Event} {entity : String} {request : Request}
    {g after : Gateway τ} {response : Response}
    (h : receiveQuery event entity request g = (.error response, after)) :
    response.IsDiscreet := by
  unfold receiveQuery at h
  dsimp only at h
  split at h
  · cases h
  · split at h
    · obtain ⟨rfl, -⟩ : (Failure.engine _).response = response ∧ _ = after := by simpa using h
      exact (Failure.refuses_response _).isDiscreet
    · split at h
      · rename_i hrefusal
        obtain ⟨rfl, -⟩ : _ = response ∧ _ = after := by simpa using h
        exact refusal?_isDiscreet hrefusal
      · split at h <;> cases h

/-- The rules run on the data of an envelope, and what they make of it is sent without its users. -/
theorem release_isDiscreet (event : Event) (entity : String) (facts : RequestFacts) (status : Nat)
    (data : Json) (g : Gateway τ) :
    (release event entity facts (Records.enveloped status data) g).1.IsDiscreet := by
  have henvelope : envelope? (.ofFields [("data", data)]) =
      some (Keyed.erase "data" [("data", data)], data) := rfl
  simp only [release, payloadOf, Records.enveloped, henvelope]
  split
  · exact (Failure.refuses_response _).isDiscreet
  · split
    · exact replied_isDiscreet _ _ _
    · exact fun _ => Response.conceals_of_body rfl (Json.fieldNames_withoutUsers _)

/-- What the edge lets out of a service that answers in envelopes, to who reads or deletes. -/
theorem guarded_isDiscreet {service : Service τ}
    (hs : ∀ request, Router.Serves (service request)) {request : Request} {entity : String}
    (he : entityOf? request.sentPath = some entity)
    (hm : request.method = "GET" ∨ request.method = "DELETE") {g : Gateway τ}
    (hg : g.engine.rules.hasRulesFor entity = true) :
    (guarded service request g).1.IsDiscreet := by
  obtain ⟨event, hv, hev, hr⟩ : ∃ event, Event.ofMethod? request.method = some event ∧
      (event == .get || event == .delete) = true ∧
        receive event entity request g = receiveQuery event entity request g := by
    rcases hm with hm | hm <;> rw [hm]
    · exact ⟨.get, rfl, rfl, rfl⟩
    · exact ⟨.delete, rfl, rfl, rfl⟩
  simp only [guarded, he, hg, hv, hr, Bool.not_true, Bool.false_eq_true, if_false]
  rcases hq : receiveQuery event entity request g with ⟨result, g'⟩
  cases result with
  | error response => exact receiveQuery_isDiscreet hq
  | ok received =>
    obtain ⟨happlied, hdata⟩ := hs received g'
    dsimp only
    split
    · rename_i hrelease
      simp only [isReleased, hev, Bool.true_and, Bool.and_eq_true] at hrelease
      obtain ⟨status, data, hanswer⟩ := hdata hrelease.1
      rw [hanswer]
      exact release_isDiscreet event entity request.facts status data _
    · rename_i hrelease
      rintro (hsuccess | h)
      · simp [isReleased, hev, hsuccess, happlied] at hrelease
      · rw [happlied] at h
        cases h

end Edge

namespace Router

/-- Who reads or deletes records of an entity with rules gets no field `user`, at any depth, in a
response that reports a success or was made from a reply. -/
theorem handle_conceals {g : Gateway τ} {rules : List Rule} {version : Nat}
    (hg : g.engine.rules = .ofRules rules version) {rule : Rule} (hr : rule ∈ rules)
    {request : Request} (hm : request.method = "GET" ∨ request.method = "DELETE")
    (hp : request.sentPath = request.path) {route : Route}
    (ht : Route.ofPath? request.path = some route)
    (hs : route.entitySegment? = some rule.entity) :
    let response := (handle request g).1
    response.isSuccess = true ∨ response.rulesApplied = true → response.Conceals "user" := by
  have hasked : g.engine.rules.hasRulesFor rule.entity = true := by
    rw [hg]
    exact RuleSet.hasRulesFor_of_mem hr version
  have hentity : Edge.entityOf? request.sentPath = some rule.entity := by
    rw [hp]
    exact Edge.entityOf?_of_route ht hs
  obtain ⟨service, hv⟩ : ∃ service, services? (τ := τ) route = some service := by
    cases route with
    | collection segment => exact ⟨_, rfl⟩
    | record segment idSegment => exact ⟨_, rfl⟩
    | _ => cases hs
  have hdiscreet : (Edge.guarded service request g).1.IsDiscreet :=
    Edge.guarded_isDiscreet (services?_serves hv) hentity hm hasked
  have hanswer : (handle request g).1 =
      (Edge.guarded service request g).1.sent request.method := by
    have hopt : request.method ≠ "OPTIONS" := by rcases hm with hm | hm <;> rw [hm] <;> decide
    simp only [handle, answer, hopt, if_false, ht, serve_of_services? hv]
  have hhead : request.method ≠ "HEAD" := by rcases hm with hm | hm <;> rw [hm] <;> decide
  intro response h
  obtain ⟨v, hbody, hn, hread⟩ : (Edge.guarded service request g).1.Conceals "user" := by
    refine hdiscreet ?_
    rw [show response = _ from hanswer] at h
    exact h
  have hsame : response.body = (Edge.guarded service request g).1.body := by
    rw [show response = _ from hanswer, Response.sent, if_neg hhead]
  rw [Response.Conceals, hsame]
  exact ⟨v, hbody, hn, hread⟩

/-- A stored record with users of its own, and a rule that sets another: the reader sees none. -/
theorem handle_conceals_assigning :
    let rule : Rule := ⟨"leads", [.get], none,
      [.update ⟨["owner", "user"], by decide, by decide⟩ (.literal (.str "sam"))], 1⟩
    let lead : Json := .obj [("id", .str "1"), ("tags", .arr [.obj [("user", .str "ann")]])]
    let site : Site Unit :=
      { store := ⟨[("leads", [lead])]⟩, clock := ⟨⟨0, by decide, by decide⟩, 0, 0⟩, memory := () }
    let bare := Gateway.start {} Handlers.standard site
    let g := { bare with engine := { bare.engine with rules := .ofRules [rule] } }
    let request : Request := { method := "GET", sentPath := "/api/leads", path := "/api/leads" }
    "user" ∈ lead.fieldNames ∧ (handle request g).1.isSuccess = true ∧
      (handle request g).1.Conceals "user" := by
  intro rule lead site bare g request
  have hs : (handle request g).1.isSuccess = true := by decide +kernel
  have hroute : Route.ofPath? request.path = some (.collection "leads") := by decide
  exact ⟨by decide, hs,
    handle_conceals (g := g) rfl (List.mem_singleton_self rule) (.inl rfl) rfl hroute rfl (.inl hs)⟩

end Router

end Bylaw
