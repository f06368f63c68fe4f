import Bylaw.Proofs.Gateway.Exchange
import Bylaw.Proofs.Gateway.Refusal
import Bylaw.Proofs.Json.Fields
import Bylaw.Proofs.Run.Unmatched

/-! Requests that bring a body of which no rule holds. Main statement: the edge writes the body
anew, and apart from that such a request is answered as it would be without any rules; so it is
answered as if there were no rules exactly as far as the service finds the same in the body. -/

namespace Bylaw

variable {τ : Type} {entity : String}

namespace Gateway

/-- The gateway without its rules. -/
def unruled (g : Gateway τ) : Gateway τ := { g with engine := { g.engine with rules := {} } }

/-- Rules have nothing to say of records of an entity that were stored or changed, and of what has
been put off. -/
structure IsSilent (entity : String) (g : Gateway τ) : Prop where
  pending : ∀ p ∈ g.pending, g.engine.rules.rulesFor p.entity p.event = []
  stored : g.engine.rules.rulesFor entity .new = [] ∧ g.engine.rules.rulesFor entity .update = []

theorem applyPending_of_silent {g : Gateway τ} {ps : List Pending}
    (h : ∀ p ∈ ps, g.engine.rules.rulesFor p.entity p.event = []) :
    applyPending ps g = ([], g) := by
  induction ps with
  | nil => rfl
  | cons p rest ih =>
    obtain ⟨hp, hrest⟩ := List.forall_mem_cons.mp h
    simp only [applyPending, applyEvent, hp, List.isEmpty_nil, if_true, ih hrest, List.nil_append]

theorem IsSilent.catchUp_eq {g : Gateway τ} (h : g.IsSilent entity) :
    g.catchUp = { g with pending := [] } := by
  have happly : applyPending g.pending { g with pending := [] } = ([], { g with pending := [] }) :=
    applyPending_of_silent h.pending
  rw [catchUp, happly]
  rfl

theorem IsSilent.withSite {g : Gateway τ} (h : g.IsSilent entity) (site : Site τ) :
    IsSilent entity { g with site } := ⟨h.pending, h.stored⟩

theorem IsSilent.postpone {g : Gateway τ} (h : g.IsSilent entity) {event : Event}
    (he : event = .new ∨ event = .update) (record : Json) :
    IsSilent entity (g.postpone event entity record) := by
  rw [Gateway.postpone]
  split
  · refine ⟨fun p hp => ?_, h.stored⟩
    rcases List.mem_append.mp hp with hp | hp
    · exact h.pending p hp
    · obtain rfl := List.mem_singleton.mp hp
      rcases he with rfl | rfl
      · exact h.stored.1
      · exact h.stored.2
  · exact h

/-- Gateways with one site whose rules have nothing to say of what was stored. -/
structure SameSite (entity : String) (g h : Gateway τ) : Prop where
  site : g.site = h.site
  left : g.IsSilent entity
  right : h.IsSilent entity

theorem SameSite.isStable (entity : String) : IsStable entity (SameSite (τ := τ) entity) where
  site hR := hR.site
  withSite hR site := ⟨rfl, hR.left.withSite site, hR.right.withSite site⟩
  postpone hR _ he record := by
    refine ⟨?_, hR.left.postpone he record, hR.right.postpone he record⟩
    rw [Records.postpone_site, Records.postpone_site, hR.site]

theorem SameSite.catchUp {g h : Gateway τ} (hR : g.SameSite entity h) :
    g.catchUp.site = h.catchUp.site := by
  rw [hR.left.catchUp_eq, hR.right.catchUp_eq]
  exact hR.site

theorem SameSite.unruled {g : Gateway τ} (h : g.IsSilent entity) : g.SameSite entity g.unruled :=
  ⟨rfl, h, fun _ _ => rfl, rfl, rfl⟩

end Gateway

namespace Edge

/-- The request that the edge passes on if no rule holds of its body. -/
def forwarded (g : Gateway τ) (entity : String) (request : Request) : Request :=
  if g.engine.rules.hasRulesFor entity then (held? request).elim request request.withJson
  else request

variable {request : Request} {g : Gateway τ}

theorem method_forwarded : (forwarded g entity request).method = request.method := by
  rw [forwarded]
  split
  · cases held? request <;> rfl
  · rfl

theorem path_forwarded : (forwarded g entity request).path = request.path := by
  rw [forwarded]
  split
  · cases held? request <;> rfl
  · rfl

/-- Rules none of which holds of what a request brings leave it to the service, in their words. -/
theorem guarded_of_unmatched {service : Service τ} {event : Event}
    (he : entityOf? request.sentPath = some entity)
    (hm : Event.ofMethod? request.method = some event) (hb : event.bringsBody = true)
    (hsize : request.body.size ≤ g.settings.maxBodyBytes)
    (hrun : ∀ v, held? request = some v →
      ∃ o after, g.run event entity request.facts v = (.ok o, after) ∧ o.matched = 0) :
    guarded service request g = service (forwarded g entity request) g := by
  by_cases hrules : g.engine.rules.hasRulesFor entity = true
  · rw [guarded_of_bringsBody he hrules hm hb, receiveBody_eq hsize, forwarded, if_pos hrules]
    cases hheld : held? request with
    | none => rfl
    | some v =>
      obtain ⟨o, after, hrun, hmatched⟩ := hrun v hheld
      obtain ⟨rfl, rfl⟩ := Gateway.run_of_unmatched hrun hmatched
      simp only [hrun]
      rfl
  · simp only [forwarded, guarded, he, hrules, Bool.not_false, if_true]
    rfl

theorem guarded_unruled (service : Service τ) (request : Request) (g : Gateway τ) :
    guarded service request g.unruled = service request g.unruled := by
  unfold guarded
  split
  · rfl
  · exact if_pos rfl

end Edge

/-- What it takes for the service to find in a body that was written anew what it finds in the body
as it was sent: it says that it is JSON, and both are too long to be read, or neither is, and what
is read from the text of the value is the value again, if that is an object. -/
def Request.IsKept (request : Request) (v : Json) : Prop :=
  request.hasJson = true ∧
    (Records.readLimit < request.body.size ∧ Records.readLimit < (Body.ofString v.compact).size ∨
      request.body.size ≠ 0 ∧ request.body.size ≤ Records.readLimit ∧
        (Body.ofString v.compact).size ≤ Records.readLimit ∧
          ∃ w, Json.read v.compact = .ok w ∧ (v.isObject = true → w = v))

namespace Records

theorem isObject_of_reread? {v w : Json} (h : v.reread? = some w) : w.isObject = v.isObject := by
  cases v with
  | num n =>
    obtain ⟨m, -, rfl⟩ := Option.map_eq_some_iff.mp h
    rfl
  | arr items =>
    obtain ⟨ws, -, rfl⟩ := Option.map_eq_some_iff.mp h
    rfl
  | obj fields =>
    obtain ⟨ws, -, rfl⟩ := Option.map_eq_some_iff.mp h
    rfl
  | _ => rw [← Option.some.inj h]

/-- The object that a text holds, or the response that refuses it. -/
def objectIn (text : Except Json.ReadError Json) : Except Response Json :=
  match text with
  | .error e => .error (.plain 400 ("Failed to parse the request body as JSON: " ++ e.message))
  | .ok v =>
    if v.isObject then .ok v
    else .error (Failure.invalid "record must be a JSON object").response

theorem objectOf_eq {request : Request} (h : request.hasJson = true) :
    objectOf request =
      if request.body.size > readLimit then .error overlong else objectIn request.body.read := by
  by_cases hlong : request.body.size > readLimit
  · simp only [objectOf, bodyOf, h, Bool.not_true, Bool.false_eq_true, if_false, hlong, if_true]
  · simp only [objectOf, bodyOf, h, Bool.not_true, Bool.false_eq_true, if_false, hlong]
    cases request.body.read <;> rfl

theorem status_of_objectIn {text : Except Json.ReadError Json} {response : Response}
    (h : objectIn text = .error response) : response.status = 400 ∨ response.status = 422 := by
  unfold objectIn at h
  split at h
  · rw [← Except.error.inj h]
    exact .inl rfl
  · split at h
    · cases h
    · rw [← Except.error.inj h]
      exact .inr rfl

theorem objectIn_ne_overlong (text : Except Json.ReadError Json) :
    objectIn text ≠ .error overlong := by
  intro h
  rcases status_of_objectIn h with h | h <;> cases h

/-- A text holds the same as a value of its kind if it is read, and as that value if it is an
object. -/
theorem objectIn_eq_iff {v : Json} {text : Except Json.ReadError Json}
    (hkind : ∀ w, text = .ok w → w.isObject = v.isObject) :
    objectIn text = objectIn (.ok v) ↔ ∃ w, text = .ok w ∧ (v.isObject = true → w = v) := by
  cases text with
  | error e =>
    refine ⟨fun h => ?_, nofun⟩
    have hstatus : ∀ response, objectIn (.ok v) = .error response → response.status = 422 := by
      intro response hv
      simp only [objectIn] at hv
      split at hv
      · cases hv
      · rw [← Except.error.inj hv]
        rfl
    cases hstatus _ h.symm
  | ok w =>
    have hw := hkind w rfl
    cases hv : v.isObject with
    | true => simp [objectIn, hw, hv]
    | false => simp [objectIn, hw, hv]

/-- A body that is not empty holds the value that the edge reads of it. -/
theorem read_of_held? {request : Request} {v : Json} (h : Edge.held? request = some v)
    (hbody : request.body.size ≠ 0) : request.body.read = .ok v := by
  rw [Edge.held?, if_neg hbody] at h
  cases hread : request.body.read with
  | error e =>
    rw [hread] at h
    cases h
  | ok w =>
    rw [hread] at h
    rw [Option.some.inj h]

/-- An empty body is not JSON for the service, and an empty object for the edge. -/
theorem objectIn_empty_ne {request : Request} {v : Json} (h : Edge.held? request = some v)
    (hbody : request.body.size = 0) :
    objectIn (Json.read v.compact) ≠ objectIn request.body.read := by
  rw [Edge.held?, if_pos hbody] at h
  obtain rfl := Option.some.inj h
  have hread : Json.read (Json.obj []).compact = .ok (.obj []) :=
    Json.read_compact_of_isExactScalar .nil fun field hf => absurd hf List.not_mem_nil
  obtain hempty := ByteArray.size_eq_zero_iff.mp hbody
  rw [hread, hempty]
  intro hsame
  cases hsame

/-- The service finds the same in a body that was written anew exactly if the request keeps it. -/
theorem objectOf_withJson_eq_iff {request : Request} {v : Json}
    (h : Edge.held? request = some v) :
    objectOf (request.withJson v) = objectOf request ↔ request.IsKept v := by
  have htext : (request.withJson v).body.read = Json.read v.compact := by
    rw [Request.withJson, Body.read, Body.text?_ofString]
  have hsize : (request.withJson v).body.size = (Body.ofString v.compact).size := rfl
  have hkind : ∀ w, Json.read v.compact = .ok w → w.isObject = v.isObject := fun w hw =>
    isObject_of_reread? ((Json.read_compact_iff v w).mp hw).2
  rw [objectOf_eq (request.hasJson_withJson v), htext, hsize, Request.IsKept]
  cases hjson : request.hasJson with
  | false =>
    have hrefused : objectOf request =
        .error (.plain 415 "Expected request with \x60Content-Type: application/json\x60") := by
      simp only [objectOf, bodyOf, hjson, Bool.not_false, if_true]
    rw [hrefused]
    refine ⟨fun heq => ?_, fun hkept => by cases hkept.1⟩
    split at heq
    · cases congrArg Response.status (Except.error.inj heq)
    · rcases status_of_objectIn heq with hs | hs <;> cases hs
  | true =>
    rw [objectOf_eq hjson]
    -- What the bodies hold matters only if neither is too long to be read.
    by_cases hlong : readLimit < request.body.size <;>
      by_cases hanew : readLimit < (Body.ofString v.compact).size
    · simp [hlong, hanew]
    · simp [hlong, hanew, objectIn_ne_overlong]
    · simp [hlong, hanew, (objectIn_ne_overlong _).symm]
    · simp only [gt_iff_lt, hlong, hanew, if_false, false_and, false_or, true_and, Nat.not_lt.mp,
        not_false_eq_true]
      by_cases hbody : request.body.size = 0
      · simp [hbody, objectIn_empty_ne h hbody]
      · rw [read_of_held? h hbody, objectIn_eq_iff hkind]
        simp [hbody]

end Records

theorem Edge.objectOf_forwarded_eq_iff {g : Gateway τ} {request : Request} :
    Records.objectOf (forwarded g entity request) = Records.objectOf request ↔
      (g.engine.rules.hasRulesFor entity = true →
        ∀ v, held? request = some v → request.IsKept v) := by
  rw [forwarded]
  by_cases hrules : g.engine.rules.hasRulesFor entity = true
  · rw [if_pos hrules]
    cases hheld : held? request with
    | none => simp
    | some v => simp [hrules, Records.objectOf_withJson_eq_iff hheld]
  · simp [hrules]

theorem Event.ne_options_of_ofMethod? {method : String} {event : Event}
    (h : ofMethod? method = some event) : method ≠ "OPTIONS" := by
  rintro rfl
  cases h

namespace Router

theorem withEntity_congr {segment : String} {serve : String → Service τ} {request other : Request}
    (h : ∀ entity, serve entity request = serve entity other) :
    withEntity segment serve request = withEntity segment serve other := by
  unfold withEntity
  cases Percent.decodeText? segment with
  | some entity => exact h entity
  | none => rfl

theorem withRecord_congr {segment idSegment : String} {serve : String → String → Service τ}
    {request other : Request} (h : ∀ entity id, serve entity id request = serve entity id other) :
    withRecord segment idSegment serve request = withRecord segment idSegment serve other := by
  refine withEntity_congr fun entity => ?_
  cases Percent.decodeText? idSegment with
  | some id => exact h entity id
  | none => rfl

/-- A service that is sent a body finds no more in the request than its method and an object. -/
theorem services?_congr {route : Route} {service : Service τ}
    (hv : services? route = some service) {request other : Request} {event : Event}
    (hm : Event.ofMethod? request.method = some event) (hb : event.bringsBody = true)
    (hmethod : other.method = request.method)
    (hobject : Records.objectOf other = Records.objectOf request) :
    service other = service request := by
  -- The branches of methods that bring no body are closed by their names.
  have hne {name : String} (hname : (Event.ofMethod? name).any Event.bringsBody = false) :
      request.method ≠ name := by
    rintro rfl
    rw [hm, Option.any_some, hb] at hname
    cases hname
  have hserved : servedMethod request.method = request.method := if_neg (hne (by decide))
  cases route with
  | collection name =>
    obtain rfl := Option.some.inj hv
    simp only [collection, hmethod, hserved]
    split
    · exact absurd ‹_› (hne (by decide))
    · refine withEntity_congr fun entity => ?_
      funext g
      simp only [Records.create, hobject]
    · rfl
  | record name id =>
    obtain rfl := Option.some.inj hv
    simp only [record, hmethod, hserved]
    split
    · exact absurd ‹_› (hne (by decide))
    · refine withRecord_congr fun entity id => ?_
      funext g
      simp only [Records.replace, hobject]
    · refine withRecord_congr fun entity id => ?_
      funext g
      simp only [Records.patch, hobject]
    · exact absurd ‹_› (hne (by decide))
    · rfl
  | _ => cases hv

theorem exists_services {route : Route} {segment : String}
    (hs : route.entitySegment? = some segment) :
    ∃ service : Service τ, services? route = some service := by
  cases route with
  | collection name => exact ⟨_, rfl⟩
  | record name id => exact ⟨_, rfl⟩
  | _ => cases hs

/-- Gateways with one site. -/
def OneSite (g h : Gateway τ) : Prop := g.site = h.site

/-- A service of the records that a segment names ends alike with rules and without them, if they
have nothing to say of what was stored. -/
theorem services?_unruled {route : Route} {segment : String} {service : Service τ}
    (hv : services? route = some service) (hs : route.entitySegment? = some segment)
    {g : Gateway τ} (hidle : g.pending = [])
    (hsilent : ∀ entity, Percent.decodeText? segment = some entity →
      g.engine.rules.rulesFor entity .new = [] ∧ g.engine.rules.rulesFor entity .update = [])
    (request : Request) :
    (service request g).1 = (service request g.unruled).1 ∧
      OneSite (service request g).2.catchUp (service request g.unruled).2.catchUp := by
  cases hd : Percent.decodeText? segment with
  | none =>
    -- A segment that spells no name is refused, and nothing was put off.
    obtain ⟨refusal, hrefusal⟩ := services?_refuses hv hs hd request
    rw [hrefusal]
    refine ⟨rfl, ?_⟩
    rw [OneSite, Gateway.catchUp_of_idle hidle]
    exact (congrArg Gateway.site (Gateway.catchUp_of_idle (g := g.unruled) hidle)).symm
  | some entity =>
    have hquiet : g.IsSilent entity := ⟨by simp [hidle], hsilent entity hd⟩
    obtain ⟨hresponse, hafter⟩ := (services?_servesOnly hv hs hd).respects
      (Gateway.SameSite.isStable entity) request _ _ (.unruled hquiet)
    exact ⟨hresponse, hafter.catchUp⟩

theorem handle_unruled {request : Request} {route : Route} {service : Service τ}
    (hopt : request.method ≠ "OPTIONS") (hroute : Route.ofPath? request.path = some route)
    (hv : services? route = some service) (g : Gateway τ) :
    handle request g.unruled =
      (((service request g.unruled).1.sent request.method),
        (service request g.unruled).2.catchUp) := by
  rw [handle_of_services? hopt hroute hv, Edge.guarded_unruled]

section Unmatched

variable {g : Gateway τ} {request : Request} {route : Route} {segment : String} {event : Event}
  (hidle : g.pending = []) (hsent : request.sentPath = request.path)
  (hroute : Route.ofPath? request.path = some route) (hs : route.entitySegment? = some segment)
  (hm : Event.ofMethod? request.method = some event) (hb : event.bringsBody = true)
  (hsize : request.body.size ≤ g.settings.maxBodyBytes)
  (hrun : ∀ v, Edge.held? request = some v →
    ∃ o after, g.run event segment request.facts v = (.ok o, after) ∧ o.matched = 0)
  (hsilent : ∀ entity, Percent.decodeText? segment = some entity →
    g.engine.rules.rulesFor entity .new = [] ∧ g.engine.rules.rulesFor entity .update = [])
include hidle hsent hroute hs hm hb hsize hrun hsilent

/-- A request of which no rule holds is answered as the request that the edge passes on would be
without rules. -/
theorem handle_forwarded :
    Answers OneSite (handle request g) (handle (Edge.forwarded g segment request) g.unruled) := by
  obtain ⟨service, hv⟩ := exists_services (τ := τ) hs
  have hopt : request.method ≠ "OPTIONS" := Event.ne_options_of_ofMethod? hm
  have hentity : Edge.entityOf? request.sentPath = some segment := by
    rw [hsent]
    exact Edge.entityOf?_of_route hroute hs
  have hguarded : Edge.guarded service request g = service (Edge.forwarded g segment request) g :=
    Edge.guarded_of_unmatched hentity hm hb hsize hrun
  have hmethod : (Edge.forwarded g segment request).method = request.method :=
    Edge.method_forwarded
  have hpath : (Edge.forwarded g segment request).path = request.path := Edge.path_forwarded
  generalize Edge.forwarded g segment request = forwarded at hguarded hmethod hpath ⊢
  obtain ⟨hresponse, hafter⟩ := services?_unruled hv hs hidle hsilent forwarded
  rw [handle_of_services? hopt hroute hv, hguarded,
    handle_unruled (hmethod ▸ hopt) (hpath ▸ hroute) hv, hmethod]
  exact ⟨congrArg (Response.sent · request.method) hresponse, hafter⟩

/-- Rules none of which holds of what a request brings, and that have nothing to say of what was
stored: the request is answered as the one that the edge passes on would be without rules, with the
same records after it. The service finds the same in that one exactly if the request keeps the value
of its body, and then it is answered as it would be itself without rules. -/
theorem handle_of_unmatched :
    let forwarded := Edge.forwarded g segment request
    Answers OneSite (handle request g) (handle forwarded g.unruled) ∧
      (Records.objectOf forwarded = Records.objectOf request ↔
        (g.engine.rules.hasRulesFor segment = true →
          ∀ v, Edge.held? request = some v → request.IsKept v)) ∧
      (Records.objectOf forwarded = Records.objectOf request →
        Answers OneSite (handle request g) (handle request g.unruled)) := by
  intro forwarded
  have hforwarded := handle_forwarded hidle hsent hroute hs hm hb hsize hrun hsilent
  refine ⟨hforwarded, Edge.objectOf_forwarded_eq_iff, fun hobject => ?_⟩
  obtain ⟨service, hv⟩ := exists_services (τ := τ) hs
  have hopt : request.method ≠ "OPTIONS" := Event.ne_options_of_ofMethod? hm
  have hmethod : forwarded.method = request.method := Edge.method_forwarded
  have hpath : forwarded.path = request.path := Edge.path_forwarded
  have hsame : handle forwarded g.unruled = handle request g.unruled := by
    rw [handle_unruled (hmethod ▸ hopt) (hpath ▸ hroute) hv, handle_unruled hopt hroute hv, hmethod,
      services?_congr hv hm hb hmethod hobject]
  rw [← hsame]
  exact hforwarded

end Unmatched

/-- A lead with a low score, which no rule is for. -/
def lowLead : Json := .obj [("score", .ofNat 79)]

theorem read_lowLead : Json.read lowLead.compact = .ok lowLead :=
  Json.read_compact_of_isExactScalar (by decide) (by decide)

/-- A request that brings that lead, with the given headers. -/
def bringingLow (headers : Keyed String) : Request :=
  { method := "POST", sentPath := "/api/leads", path := "/api/leads", headers
    body := .ofString lowLead.compact }

theorem held?_bringingLow (headers : Keyed String) :
    Edge.held? (bringingLow headers) = some lowLead := by
  refine Edge.held?_of_read ?_
  rw [bringingLow, Body.read, Body.text?_ofString]
  exact read_lowLead

/-- A lead that is labelled as JSON is stored as it would be without rules. -/
theorem handle_of_unmatched_labelled :
    let g := Gateway.ofLeads
    let request := bringingLow [("content-type", "application/json")]
    request.IsKept lowLead ∧ (handle request g).1.status = 201 ∧
      Answers OneSite (handle request g) (handle request g.unruled) := by
  intro g request
  have hheld := held?_bringingLow [("content-type", "application/json")]
  have hkept : request.IsKept lowLead :=
    ⟨by decide +kernel, .inr ⟨by decide +kernel, by decide +kernel, by decide +kernel, lowLead,
      read_lowLead, fun _ => rfl⟩⟩
  have hrun : ∀ v, Edge.held? request = some v →
      ∃ o after, g.run .post "leads" request.facts v = (.ok o, after) ∧ o.matched = 0 := by
    intro v hv
    obtain rfl := Option.some.inj (hheld.symm.trans hv)
    exact ⟨{ data := lowLead }, g, rfl, rfl⟩
  have hsilent : ∀ entity, Percent.decodeText? "leads" = some entity →
      g.engine.rules.rulesFor entity .new = [] ∧ g.engine.rules.rulesFor entity .update = [] := by
    intro entity hd
    have hname : Percent.decodeText? "leads" = some "leads" := by decide
    obtain rfl := Option.some.inj (hname.symm.trans hd)
    exact ⟨rfl, rfl⟩
  have hroute : Route.ofPath? request.path = some (.collection "leads") := by decide
  obtain ⟨-, hiff, hanswers⟩ := handle_of_unmatched (g := g) rfl rfl hroute rfl
    (by decide : Event.ofMethod? "POST" = some .post) rfl (by decide +kernel) hrun hsilent
  refine ⟨hkept, by decide +kernel, hanswers (hiff.mpr fun _ v hv => ?_)⟩
  obtain rfl := Option.some.inj (hheld.symm.trans hv)
  exact hkept

/-- A lead that is not labelled as JSON is stored if there are rules for leads, though none holds of
it, and refused if there are none. -/
theorem unlabelled_ne_unruled :
    let g := Gateway.ofLeads
    let request := bringingLow []
    (∃ o, g.run .post "leads" request.facts lowLead = (.ok o, g) ∧ o.matched = 0) ∧
      g.engine.rules.rulesFor "leads" .new = [] ∧ g.engine.rules.rulesFor "leads" .update = [] ∧
        (handle request g).1.status = 201 ∧ (handle request g.unruled).1.status = 415 ∧
          ((handle request g).2.site.store.recordsOf "leads").length = 1 ∧
            ((handle request g.unruled).2.site.store.recordsOf "leads").length = 0 :=
  ⟨⟨{ data := lowLead }, rfl, rfl⟩, rfl, rfl, by decide +kernel⟩

end Router

end Bylaw
