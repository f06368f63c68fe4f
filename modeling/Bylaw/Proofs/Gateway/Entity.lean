import Bylaw.Proofs.Gateway.Footprint

/-! Which entity's rules are asked, and which entity's records are served. The edge of a gateway
takes the segment of the path as it was sent, and the services take it with its percent escapes
read. Main statement: these are the same entity exactly if the segment has no escape. -/

namespace Bylaw

namespace Percent

/-- A percent sign and two hexadecimal digits stand somewhere in the bytes. -/
def HasEscape (bytes : List UInt8) : Prop :=
  ∃ before percent high low after, bytes = before ++ percent :: high :: low :: after ∧
    percent.toNat = '%'.toNat ∧ (byte? high low).isSome

theorem not_hasEscape_of_length_lt {bytes : List UInt8} (h : bytes.length < 3) :
    ¬HasEscape bytes := by
  rintro ⟨before, percent, high, low, after, rfl, -⟩
  simp at h
  omega

theorem hasEscape_cons {b high low : UInt8} {rest : List UInt8} :
    HasEscape (b :: high :: low :: rest) ↔
      (b.toNat = '%'.toNat ∧ (byte? high low).isSome) ∨ HasEscape (high :: low :: rest) := by
  constructor
  · rintro ⟨before, percent, high', low', after, heq, hp, hb⟩
    cases before with
    | nil =>
      simp only [List.nil_append, List.cons.injEq] at heq
      obtain ⟨rfl, rfl, rfl, rfl⟩ := heq
      exact .inl ⟨hp, hb⟩
    | cons c before =>
      simp only [List.cons_append, List.cons.injEq] at heq
      exact .inr ⟨before, percent, high', low', after, heq.2, hp, hb⟩
  · rintro (⟨hp, hb⟩ | ⟨before, percent, high', low', after, heq, hp, hb⟩)
    · exact ⟨[], b, high, low, rest, rfl, hp, hb⟩
    · exact ⟨b :: before, percent, high', low', after, by rw [heq]; rfl, hp, hb⟩

theorem length_decode_le (bytes : List UInt8) : (decode bytes).length ≤ bytes.length := by
  fun_induction decode bytes with
  | case1 => simp
  | case2 => simp
  | case3 => simp
  | case4 => simp only [List.length_cons] at *; omega
  | case5 => simp only [List.length_cons] at *; omega
  | case6 => simp only [List.length_cons] at *; omega

/-- Reading escapes changes bytes exactly if there are any: each one read makes them fewer. -/
theorem decode_eq_self_iff (bytes : List UInt8) : decode bytes = bytes ↔ ¬HasEscape bytes := by
  fun_induction decode bytes with
  | case1 => simp [not_hasEscape_of_length_lt]
  | case2 => simp [not_hasEscape_of_length_lt]
  | case3 => simp [not_hasEscape_of_length_lt]
  | case4 b high low rest hp byte hb =>
    have hne : byte :: decode rest ≠ b :: high :: low :: rest := fun h => by
      have := length_decode_le rest
      have := congrArg List.length h
      simp only [List.length_cons] at this
      omega
    simp [hne, hasEscape_cons, hp, hb]
  | case5 b high low rest hp hb ih => simp [hasEscape_cons, hb, ih]
  | case6 b high low rest hp ih =>
    simp only [hasEscape_cons, hp, false_and, false_or, List.cons.injEq, true_and, ih]

instance (bytes : List UInt8) : Decidable (HasEscape bytes) :=
  decidable_of_iff (decode bytes ≠ bytes) (by rw [ne_eq, decode_eq_self_iff, not_not])

end Percent

namespace Utf8

theorem eq_encode_of_decode? {bytes : List UInt8} {s : String} (h : decode? bytes = some s) :
    bytes = encode s := by
  simp only [decode?, String.fromUTF8?] at h
  split at h
  · obtain rfl := Option.some.inj h
    rfl
  · cases h

end Utf8

/-- A segment is read as itself exactly if it has no escape. -/
theorem Percent.decodeText?_eq_self_iff (s : String) :
    decodeText? s = some s ↔ ¬HasEscape (Utf8.encode s) := by
  rw [← decode_eq_self_iff]
  constructor
  · exact Utf8.eq_encode_of_decode?
  · intro h
    rw [decodeText?, h, Utf8.decode?_encode]

/-- The segment of a path that names an entity, as it was sent. -/
def Route.entitySegment? : Route → Option String
  | .collection entity => some entity
  | .record entity _ => some entity
  | _ => none

/-- A path to records has the segment of the entity after the one that says so. -/
theorem Route.pieces_of_ofPath? {path segment : String} {route : Route}
    (hr : ofPath? path = some route) (hs : route.entitySegment? = some segment) :
    segment ≠ "" ∧ ∃ rest, Text.splitAt (· == '/') path.toList =
      [] :: "api".toList :: segment.toList :: rest := by
  have back : ∀ {pieces : List (List Char)} {names : List String},
      pieces.map String.ofList = names → pieces = names.map String.toList := by
    rintro pieces _ rfl
    simp [Function.comp_def]
  unfold ofPath? at hr
  split at hr
  case h_6 entity hp =>
    split at hr
    · cases hr
    · obtain rfl := Option.some.inj hr
      obtain rfl := Option.some.inj hs
      exact ⟨‹_›, [], back hp⟩
  case h_7 entity id hp =>
    split at hr
    · cases hr
    · rename_i hne
      obtain rfl := Option.some.inj hr
      obtain rfl := Option.some.inj hs
      simp only [Bool.or_eq_true, decide_eq_true_eq, not_or] at hne
      exact ⟨hne.1, [id.toList], back hp⟩
  all_goals cases hr <;> cases hs

namespace Edge

/-- On a path to records the edge takes the entity from the segment that the route has for it. -/
theorem entityOf?_of_route {path segment : String} {route : Route}
    (hr : Route.ofPath? path = some route) (hs : route.entitySegment? = some segment) :
    entityOf? path = some segment := by
  obtain ⟨hne, rest, hp⟩ := Route.pieces_of_ofPath? hr hs
  have hseg : segment.toList ≠ [] := fun h => hne (String.toList_eq_nil_iff.mp h)
  have hapi : "api".toList ≠ [] := by decide
  rw [entityOf?, hp]
  simp only [ne_eq, not_true_eq_false, decide_false, Bool.false_eq_true, not_false_eq_true,
    List.filter_cons_of_neg, hapi, hseg, decide_true, List.filter_cons_of_pos, if_pos,
    List.head?_cons, Option.map_some, String.ofList_toList]

end Edge

namespace Router

variable {τ : Type}

/-- A service that refuses a request or answers it as a service of an entity's records does. -/
def ServesOnly (entity : String) (service : Service τ) : Prop :=
  ∀ request, (∃ refusal, service request = fun g => (refusal, g)) ∨
    ∃ inner, Records.Serves entity inner ∧ service request = inner request

theorem ServesOnly.confined {entity : String} {service : Service τ}
    (hs : ServesOnly entity service) : service.Confined entity where
  reads := by
    intro request g h hR
    rcases hs request with ⟨refusal, he⟩ | ⟨inner, hi, he⟩
    · rw [he]
      exact ⟨rfl, hR⟩
    · rw [he]
      exact hi.confined.reads request g h hR
  writes := by
    intro request g name hn
    rcases hs request with ⟨refusal, he⟩ | ⟨inner, hi, he⟩
    · rw [he]
    · rw [he]
      exact hi.confined.writes request g name hn

theorem ServesOnly.respects {entity : String} {service : Service τ}
    {R : Gateway τ → Gateway τ → Prop} (hstable : Gateway.IsStable entity R)
    (hs : ServesOnly entity service) : service.Respects R := by
  intro request g h hR
  rcases hs request with ⟨refusal, he⟩ | ⟨inner, hi, he⟩
  · rw [he]
    exact ⟨rfl, hR⟩
  · rw [he]
    exact hi.respects hstable request g h hR

theorem ServesOnly.respects_sameRules {entity name : String} {service : Service τ}
    (hs : ServesOnly name service) : service.Respects (Gateway.SameRules entity) :=
  hs.respects (Gateway.SameRules.isStable name)

section Segments

variable {segment entity : String} (h : Percent.decodeText? segment = some entity)
include h

theorem withEntity_of_decode (service : String → Service τ) :
    withEntity segment service = service entity := by rw [withEntity, h]

theorem collection_servesOnly : ServesOnly (τ := τ) entity (collection segment) := by
  intro request
  simp only [collection, withEntity_of_decode h]
  split
  · exact .inr ⟨_, .list, rfl⟩
  · exact .inr ⟨_, .create, rfl⟩
  · exact .inl ⟨_, rfl⟩

theorem withRecord_servesOnly (idSegment : String) {service : String → String → Service τ}
    (hs : ∀ id, Records.Serves entity (service entity id)) :
    ServesOnly entity (withRecord segment idSegment service) := by
  intro request
  simp only [withRecord, withEntity_of_decode h]
  cases Percent.decodeText? idSegment with
  | some id => exact .inr ⟨_, hs id, rfl⟩
  | none => exact .inl ⟨_, rfl⟩

theorem record_servesOnly (idSegment : String) :
    ServesOnly (τ := τ) entity (record segment idSegment) := by
  intro request
  simp only [record]
  split
  · exact withRecord_servesOnly h idSegment .get request
  · exact withRecord_servesOnly h idSegment .replace request
  · exact withRecord_servesOnly h idSegment .patch request
  · exact withRecord_servesOnly h idSegment .delete request
  · exact .inl ⟨_, rfl⟩

end Segments

/-- The services of a route to records, without the rules at their edge. -/
def services? : Route → Option (Service τ)
  | .collection entity => some (collection entity)
  | .record entity id => some (record entity id)
  | _ => none

theorem serve_of_services? {route : Route} {service : Service τ}
    (h : services? route = some service) : serve route = Edge.guarded service := by
  cases route with
  | collection entity =>
    obtain rfl := Option.some.inj h
    rfl
  | record entity id =>
    obtain rfl := Option.some.inj h
    rfl
  | _ => cases h

/-- A segment that is read names the entity whose records are served. -/
theorem services?_servesOnly {route : Route} {segment entity : String} {service : Service τ}
    (hv : services? route = some service) (hs : route.entitySegment? = some segment)
    (he : Percent.decodeText? segment = some entity) : ServesOnly entity service := by
  cases route with
  | collection name =>
    obtain rfl := Option.some.inj hv
    obtain rfl := Option.some.inj hs
    exact collection_servesOnly he
  | record name id =>
    obtain rfl := Option.some.inj hv
    obtain rfl := Option.some.inj hs
    exact record_servesOnly he id
  | _ => cases hv

theorem services?_refuses {route : Route} {segment : String} {service : Service τ}
    (hv : services? route = some service) (hs : route.entitySegment? = some segment)
    (he : Percent.decodeText? segment = none) (request : Request) :
    ∃ refusal, service request = fun g => (refusal, g) := by
  cases route with
  | collection name =>
    obtain rfl := Option.some.inj hv
    obtain rfl := Option.some.inj hs
    simp only [collection, withEntity, he]
    split <;> exact ⟨_, rfl⟩
  | record name id =>
    obtain rfl := Option.some.inj hv
    obtain rfl := Option.some.inj hs
    simp only [record, withRecord, withEntity, he]
    split <;> exact ⟨_, rfl⟩
  | _ => cases hv

/-- The rules that a request to records is asked by are those of the segment of its path as it was
sent, and the records that it is served are those of the segment with its escapes read: the same
entity exactly if there are none. -/
theorem asked_eq_served_iff {request : Request} {route : Route} {segment : String}
    {service : Service τ} (hp : request.sentPath = request.path)
    (hr : Route.ofPath? request.path = some route) (hs : route.entitySegment? = some segment)
    (hv : services? route = some service) :
    Edge.entityOf? request.sentPath = some segment ∧
      (∀ g h : Gateway τ, g.SameRules segment h →
        Answers (Gateway.SameRules segment) (serve route request g) (serve route request h)) ∧
      (∀ entity, Percent.decodeText? segment = some entity →
        ServesOnly entity service ∧ service.Confined entity ∧
          (segment = entity ↔ ¬Percent.HasEscape (Utf8.encode segment))) ∧
      (Percent.decodeText? segment = none →
        ∀ received, ∃ refusal, service received = fun g => (refusal, g)) := by
  have ha : Edge.entityOf? request.sentPath = some segment := by
    rw [hp]
    exact Edge.entityOf?_of_route hr hs
  refine ⟨ha, ?_, ?_, fun he => services?_refuses hv hs he⟩
  · intro g h hR
    have hrules : service.Respects (Gateway.SameRules segment) := by
      cases he : Percent.decodeText? segment with
      | some entity => exact (services?_servesOnly hv hs he).respects_sameRules
      | none =>
        intro received g h hR
        obtain ⟨refusal, hf⟩ := services?_refuses hv hs he received
        rw [hf]
        exact ⟨rfl, hR⟩
    rw [serve_of_services? hv]
    exact Edge.guarded_answers hrules ha hR
  · intro entity he
    have hserves := services?_servesOnly hv hs he
    refine ⟨hserves, hserves.confined, ?_⟩
    rw [← Percent.decodeText?_eq_self_iff, he]
    exact ⟨fun h => congrArg some h.symm, fun h => (Option.some.inj h).symm⟩

/-- A letter written as an escape: rules of one name are asked, and records of another served. -/
theorem asked_ne_served_escaped_leads :
    let request : Request :=
      { method := "POST", sentPath := "/api/%6Ceads", path := "/api/%6Ceads" }
    Route.ofPath? request.path = some (.collection "%6Ceads") ∧
      Edge.entityOf? request.sentPath = some "%6Ceads" ∧
      Service.Confined (τ := Unit) "leads" (collection "%6Ceads") ∧
      Percent.HasEscape (Utf8.encode "%6Ceads") := by
  have hr : Route.ofPath? "/api/%6Ceads" = some (.collection "%6Ceads") := by decide
  have hd : Percent.decodeText? "%6Ceads" = some "leads" := by decide
  intro request
  obtain ⟨ha, -, hserved, -⟩ := @asked_eq_served_iff Unit request _ _ _ rfl hr rfl rfl
  obtain ⟨-, hc, hiff⟩ := hserved "leads" hd
  exact ⟨hr, ha, hc, Decidable.not_not.mp (mt hiff.mpr (by decide))⟩

end Router

end Bylaw
