import Bylaw.Proofs.Gateway.Submission
import Bylaw.Proofs.Json.Fields
import Bylaw.Proofs.Json.Sorted
import Bylaw.Proofs.Store.Completion
import Bylaw.Proofs.Store.Rewriting
import Mathlib.Data.List.Induction

/-! What the rule that keeps the values of a field apart comes to over many submissions. Main
statement: stored records of one value are of one identity, and no two have one value exactly if no
submission that is stored repeats the identity and the value of a record that is there. -/

namespace Bylaw

variable {τ : Type} {entity field : String}

theorem Json.isNull_of_beq {v w : Json} (h : v == w) : v.isNull = w.isNull := by
  cases v <;> cases w <;> first | rfl | cases h

theorem Json.Shares.symm {record other : Json} (h : record.Shares field other) :
    other.Shares field record := by
  obtain ⟨v, w, hv, hw, hn, heq⟩ := h
  exact ⟨w, v, hw, hv, by rw [← isNull_of_beq heq, hn], BEq.symm heq⟩

theorem Json.Shares.of_beq {record same other : Json} (h : record.Shares field other)
    (hs : record.field? field == same.field? field) : same.Shares field other := by
  obtain ⟨v, w, hv, hw, hn, heq⟩ := h
  cases hsame : same.field? field with
  | none => simp [hv, hsame] at hs
  | some u =>
    have hu : v == u := by simpa [hv, hsame] using hs
    exact ⟨u, w, hsame, hw, by rw [← isNull_of_beq hu, hn], BEq.trans (BEq.symm hu) heq⟩

theorem Json.shares_congr {record same : Json} (h : record.field? field == same.field? field)
    (other : Json) : record.Shares field other ↔ same.Shares field other := by
  have hsymm : same.field? field == record.field? field := by
    cases hr : record.field? field <;> cases hs : same.field? field <;> simp_all
    exact BEq.symm h
  exact ⟨fun hr => hr.of_beq h, fun hs => hs.of_beq hsymm⟩

namespace Submission

/-- The store keeps the value that a submission has in a field: it is read as an equal one from its
own text, and the store does not fill it in. -/
structure Keeps (field : String) (s : Submission entity) : Prop where
  rereads : (s.record.field? field).bind Json.reread? == s.record.field? field
  named : field = "id" → s.record.recordId?.isSome
  dated : field = "created_at" → (s.record.field? field).isSome

/-- A text, a truth value or a whole number is kept in any field that the store does not fill in. -/
theorem Keeps.of_isExactScalar {s : Submission entity} (hid : field ≠ "id")
    (hcreated : field ≠ "created_at")
    (hv : ∀ v, s.record.field? field = some v → v.isExactScalar) : s.Keeps field where
  rereads := by
    cases h : s.record.field? field with
    | none => rfl
    | some v =>
      rw [Option.bind_some, Json.reread?_of_isExactScalar (hv v h)]
      exact BEq.refl v
  named h := absurd h hid
  dated h := absurd h hcreated

theorem isSorted (s : Submission entity) : Keyed.IsSorted s.fields := by
  have hread := s.isHeld
  unfold Body.read at hread
  split at hread
  · exact (Json.isSorted_of_read hread).fields
  · cases hread

/-- A field of what is stored has the value that is read from the text of the submitted one, unless
the store fills it in. -/
theorem field?_stored {s : Submission entity} {v record : Json} {site after : Site τ}
    (hv : s.record.reread? = some v) (hi : site.insert? entity v = some (record, after))
    {name : String} (hid : name = "id" → s.record.recordId?.isSome)
    (hcreated : name = "created_at" → (s.record.field? name).isSome) :
    record.field? name = (s.record.field? name).bind Json.reread? := by
  obtain ⟨ws, rfl, hws⟩ := Json.reread?_obj s.isSorted hv
  obtain ⟨rfl, -⟩ : .obj (Store.complete _ _ ws) = record ∧ _ = after := by
    simpa [Site.insert?, Store.insert?] using hi
  rw [Json.field?, Store.get?_complete, (hws name).1]
  · rfl
  · rintro rfl
    obtain ⟨id, hs⟩ := Option.isSome_iff_exists.mp (hid rfl)
    rw [(hws "id").1]
    have hget : Keyed.get? "id" s.fields = some (.str id) := Json.recordId?_eq_some_iff.mp hs
    exact ⟨id, by rw [hget]; rfl⟩
  · rintro rfl
    rw [(hws "created_at").2]
    exact hcreated rfl

theorem Keeps.stored {s : Submission entity} (hk : s.Keeps field) {v record : Json}
    (hv : s.record.reread? = some v) {site after : Site τ}
    (hi : site.insert? entity v = some (record, after)) :
    after.store.recordsOf entity = site.store.recordsOf entity ++ [record] ∧
      (∀ other, record.Shares field other ↔ s.record.Shares field other) ∧
        ∀ other, s.record.SameId other → record.SameId other := by
  refine ⟨?_, Json.shares_congr ?_, ?_⟩
  · obtain ⟨ws, rfl, -⟩ := Json.reread?_obj s.isSorted hv
    obtain ⟨rfl, rfl⟩ : .obj (Store.complete _ _ ws) = record ∧ _ = after := by
      simpa [Site.insert?, Store.insert?] using hi
    exact Store.recordsOf_insert_self _ _
  · rw [field?_stored hv hi hk.named hk.dated]
    exact hk.rereads
  · rintro other ⟨id, hs, ho⟩
    refine ⟨id, ?_, ho⟩
    have hstr := Json.recordId?_eq_some_iff.mp hs
    have hnamed : "id" = "id" → s.record.recordId?.isSome := fun _ => by rw [hs]; rfl
    have hdated : "id" ≠ "created_at" := by decide
    rw [Json.recordId?_eq_some_iff, field?_stored hv hi hnamed (absurd · hdated), hstr]
    rfl

/-- Sends a submission when its time has come. -/
def send (s : Submission entity) (g : Gateway τ) : Response × Gateway τ :=
  Router.handle s.request { g with site := { g.site with clock := s.time } }

/-- A submission has the value of a stored record in a field, and its identity. -/
def Repeats (field : String) (s : Submission entity) (g : Gateway τ) : Prop :=
  ∃ other ∈ g.site.store.recordsOf entity, s.record.Shares field other ∧ s.record.SameId other

/-- A submission is refused, or a record with its value and its identity is stored, and others that
have its value have its identity. -/
theorem send_cases {g : Gateway τ} (hg : g.KeepsUnique entity field) {s : Submission entity}
    (hk : s.Keeps field) :
    let sent := s.send g
    let records := g.site.store.recordsOf entity
    sent.2.KeepsUnique entity field ∧
      (sent.1.status ≠ 201 ∧ sent.2.site.store.recordsOf entity = records ∨
        sent.1.status = 201 ∧ ∃ record, sent.2.site.store.recordsOf entity = records ++ [record] ∧
          (∀ other, record.Shares field other ↔ s.record.Shares field other) ∧
          (∀ other, s.record.SameId other → record.SameId other) ∧
          ∀ other ∈ records, record.Shares field other → s.record.SameId other) := by
  intro sent records
  have hclock := hg.withSite { g.site with clock := s.time }
  rcases s.handle_cases hclock with ⟨hstatus, hsame, -⟩ |
    ⟨hstatus, hfree, v, record, site, hv, hi, hafter⟩
  · have hsent : sent.2 = _ := hsame
    rw [hsent]
    exact ⟨hclock, .inl ⟨hstatus, rfl⟩⟩
  · have hsent : sent.2 = _ := hafter
    obtain ⟨hrecords, hshares, hid⟩ := hk.stored hv hi
    rw [hsent]
    refine ⟨hclock.withSite site, .inr ⟨hstatus, record, hrecords, hshares, hid, ?_⟩⟩
    exact fun other ho hs => hfree other ho ((hshares other).mp hs)

theorem settings_send {g : Gateway τ} (hg : g.KeepsUnique entity field) (s : Submission entity) :
    (s.send g).2.settings = g.settings := by
  have hclock := hg.withSite { g.site with clock := s.time }
  rcases s.handle_cases hclock with ⟨-, hsame, -⟩ | ⟨-, -, _, _, site, -, -, hafter⟩
  · have hsent : (s.send g).2 = _ := hsame
    rw [hsent]
  · have hsent : (s.send g).2 = _ := hafter
    rw [hsent]

/-- A submission whose value is taken is a conflict, and not stored. -/
theorem send_taken {g : Gateway τ} (hg : g.KeepsUnique entity field) {s : Submission entity}
    (hsize : s.request.body.size ≤ g.settings.maxBodyBytes)
    (htaken : ¬g.site.store.IsFree entity field s.record) :
    (s.send g).1.status = 409 ∧ (s.send g).2.site.store = g.site.store := by
  have hclock := hg.withSite { g.site with clock := s.time }
  rcases s.handle_cases hclock with ⟨-, hsame, hconflict⟩ | ⟨-, hfree, -⟩
  · have hsent : (s.send g).2 = _ := hsame
    exact ⟨hconflict hsize htaken, by rw [hsent]⟩
  · exact absurd hfree htaken

end Submission

/-- No two records of an entity have the same value in a field. -/
def Store.Apart (store : Store) (entity field : String) : Prop :=
  (store.recordsOf entity).Pairwise fun record other => ¬record.Shares field other

instance Store.instDecidableApart (store : Store) (entity field : String) :
    Decidable (store.Apart entity field) :=
  inferInstanceAs (Decidable (List.Pairwise _ _))

/-- Records of an entity that have the same value in a field have one identity. -/
def Store.OneIdPerValue (store : Store) (entity field : String) : Prop :=
  (store.recordsOf entity).Pairwise fun record other =>
    record.Shares field other → record.SameId other

namespace Gateway

/-- The gateway after submissions, one after the other. -/
def afterAll (g : Gateway τ) (submissions : List (Submission entity)) : Gateway τ :=
  submissions.foldl (fun g s => (s.send g).2) g

theorem afterAll_concat (g : Gateway τ) (submissions : List (Submission entity))
    (s : Submission entity) :
    g.afterAll (submissions ++ [s]) = (s.send (g.afterAll submissions)).2 := by
  rw [afterAll, List.foldl_append]
  rfl

namespace KeepsUnique

variable {g : Gateway τ}

theorem oneIdPerValue_send (hg : g.KeepsUnique entity field) {s : Submission entity}
    (hk : s.Keeps field) (h : g.site.store.OneIdPerValue entity field) :
    (s.send g).2.site.store.OneIdPerValue entity field := by
  obtain ⟨-, ⟨-, hsame⟩ | ⟨-, record, hrecords, -, hid, hfree⟩⟩ := Submission.send_cases hg hk
  · rwa [Store.OneIdPerValue, hsame]
  · rw [Store.OneIdPerValue, hrecords, List.pairwise_append]
    refine ⟨h, List.pairwise_singleton _ _, fun other ho new hn hs => ?_⟩
    obtain rfl := List.mem_singleton.mp hn
    obtain ⟨id, hr, ho'⟩ := hid other (hfree other ho hs.symm)
    exact ⟨id, ho', hr⟩

/-- Values that are apart stay so exactly if the submission is not stored or repeats no record. -/
theorem apart_send_iff (hg : g.KeepsUnique entity field) {s : Submission entity}
    (hk : s.Keeps field) :
    (s.send g).2.site.store.Apart entity field ↔
      g.site.store.Apart entity field ∧ ((s.send g).1.status = 201 → ¬s.Repeats field g) := by
  obtain ⟨-, ⟨hstatus, hsame⟩ | ⟨hstatus, record, hrecords, hshares, -, hfree⟩⟩ :=
    Submission.send_cases hg hk
  · rw [Store.Apart, hsame]
    exact ⟨fun h => ⟨h, fun hs => absurd hs hstatus⟩, And.left⟩
  · rw [Store.Apart, hrecords, List.pairwise_append]
    constructor
    · rintro ⟨h, -, hnew⟩
      refine ⟨h, fun _ => ?_⟩
      rintro ⟨other, ho, hs, -⟩
      exact hnew other ho record List.mem_cons_self ((hshares other).mpr hs).symm
    · rintro ⟨h, hnone⟩
      refine ⟨h, List.pairwise_singleton _ _, fun other ho new hn hs => ?_⟩
      obtain rfl := List.mem_singleton.mp hn
      have hs := hs.symm
      exact hnone hstatus ⟨other, ho, (hshares other).mp hs, hfree other ho hs⟩

theorem keepsUnique_afterAll (hg : g.KeepsUnique entity field)
    {submissions : List (Submission entity)} (hk : ∀ s ∈ submissions, s.Keeps field) :
    (g.afterAll submissions).KeepsUnique entity field := by
  induction submissions generalizing g with
  | nil => exact hg
  | cons s rest ih =>
    obtain ⟨hs, hrest⟩ := List.forall_mem_cons.mp hk
    exact ih (Submission.send_cases hg hs).1 hrest

theorem settings_afterAll (hg : g.KeepsUnique entity field)
    {submissions : List (Submission entity)} (hk : ∀ s ∈ submissions, s.Keeps field) :
    (g.afterAll submissions).settings = g.settings := by
  induction submissions generalizing g with
  | nil => rfl
  | cons s rest ih =>
    obtain ⟨hs, hrest⟩ := List.forall_mem_cons.mp hk
    exact (ih (Submission.send_cases hg hs).1 hrest).trans (Submission.settings_send hg s)

theorem oneIdPerValue_afterAll (hg : g.KeepsUnique entity field)
    (hempty : g.site.store.recordsOf entity = []) {submissions : List (Submission entity)}
    (hk : ∀ s ∈ submissions, s.Keeps field) :
    (g.afterAll submissions).site.store.OneIdPerValue entity field := by
  induction submissions using List.reverseRecOn with
  | nil =>
    rw [Store.OneIdPerValue, afterAll, List.foldl_nil, hempty]
    exact .nil
  | append_singleton rest s ih =>
    have hkrest : ∀ r ∈ rest, r.Keeps field := fun r hr => hk r (List.mem_append_left [s] hr)
    have hks : s.Keeps field := hk s (List.mem_append_right rest List.mem_cons_self)
    rw [afterAll_concat]
    exact (hg.keepsUnique_afterAll hkrest).oneIdPerValue_send hks (ih hkrest)

theorem apart_afterAll_iff (hg : g.KeepsUnique entity field)
    (hempty : g.site.store.recordsOf entity = []) {submissions : List (Submission entity)}
    (hk : ∀ s ∈ submissions, s.Keeps field) :
    (g.afterAll submissions).site.store.Apart entity field ↔
      ∀ before s, before ++ [s] <+: submissions →
        (s.send (g.afterAll before)).1.status = 201 → ¬s.Repeats field (g.afterAll before) := by
  induction submissions using List.reverseRecOn with
  | nil =>
    have hapart : g.site.store.Apart entity field := by
      rw [Store.Apart, hempty]
      exact .nil
    exact ⟨fun _ before s hp => by simp at hp, fun _ => hapart⟩
  | append_singleton rest s ih =>
    have hkrest : ∀ r ∈ rest, r.Keeps field := fun r hr => hk r (List.mem_append_left [s] hr)
    have hks : s.Keeps field := hk s (List.mem_append_right rest List.mem_cons_self)
    rw [afterAll_concat, (hg.keepsUnique_afterAll hkrest).apart_send_iff hks, ih hkrest]
    -- The beginnings of the longer list are those of the shorter one, and itself.
    constructor
    · rintro ⟨hbefore, hlast⟩ before r hp
      rcases List.prefix_concat_iff.mp hp with heq | hp
      · obtain ⟨rfl, hsingle⟩ := List.append_inj' heq rfl
        obtain rfl := (List.cons.inj hsingle).1
        exact hlast
      · exact hbefore before r hp
    · intro h
      exact ⟨fun before r hp => h before r (hp.trans (List.prefix_append rest [s])),
        h rest s List.prefix_rfl⟩

/-- After any submissions whose values the store keeps: stored records of one value have one
identity; a submission whose value a record of another identity had was a conflict, and not stored;
and no two records have one value exactly if no submission was stored that had both the value and
the identity of a record that was there. -/
theorem afterAll_unique (hg : g.KeepsUnique entity field)
    (hempty : g.site.store.recordsOf entity = []) {submissions : List (Submission entity)}
    (hk : ∀ s ∈ submissions, s.Keeps field) :
    (g.afterAll submissions).site.store.OneIdPerValue entity field ∧
      (∀ before s, before ++ [s] <+: submissions →
        let now := g.afterAll before
        s.request.body.size ≤ g.settings.maxBodyBytes →
          ¬now.site.store.IsFree entity field s.record →
            (s.send now).1.status = 409 ∧ (s.send now).2.site.store = now.site.store) ∧
      ((g.afterAll submissions).site.store.Apart entity field ↔
        ∀ before s, before ++ [s] <+: submissions →
          (s.send (g.afterAll before)).1.status = 201 → ¬s.Repeats field (g.afterAll before)) := by
  refine ⟨hg.oneIdPerValue_afterAll hempty hk, ?_, hg.apart_afterAll_iff hempty hk⟩
  intro before s hp now hsize htaken
  have hkbefore : ∀ r ∈ before, r.Keeps field := fun r hr =>
    hk r (hp.subset (List.mem_append_left [s] hr))
  rw [← hg.settings_afterAll hkbefore] at hsize
  exact Submission.send_taken (hg.keepsUnique_afterAll hkbefore) hsize htaken

end KeepsUnique

/-- A gateway that keeps the addresses of those who sign up apart. -/
def ofSignups : Gateway Unit :=
  { bare with
    engine := { bare.engine with rules := .ofRules [.keepingUnique "signups" "email" 1] 1 } }

theorem ofSignups_keepsUnique : ofSignups.KeepsUnique "signups" "email" :=
  ⟨rfl, ⟨1, 1, rfl⟩, rfl⟩

/-- An address under an identity. -/
def signupFields (id email : String) : Keyed Json := [("email", .str email), ("id", .str id)]

theorem read_signupFields (id email : String) :
    Json.read (Json.obj (signupFields id email)).compact = .ok (.obj (signupFields id email)) := by
  have hsorted : Keyed.IsSorted (signupFields id email) := by
    rw [Keyed.isSorted_iff_names]
    exact (by decide : ["email", "id"].Pairwise (· < ·))
  exact Json.read_compact_of_isExactScalar hsorted (by simp [signupFields, Json.isExactScalar])

/-- A submission of an address under an identity. -/
def signup (id email : String) : Submission "signups" where
  time := bare.site.clock
  request := {
    method := "POST", sentPath := "/api/signups", path := "/api/signups"
    body := .ofString (Json.obj (signupFields id email)).compact }
  fields := signupFields id email
  isPost := rfl
  isDirect := rfl
  isRouted := (by decide : Route.ofPath? "/api/signups" = some (.collection "signups"))
  isPlain := by decide
  isHeld := by
    rw [Body.read, Body.text?_ofString]
    exact read_signupFields id email

theorem signup_keeps (id email : String) : (signup id email).Keeps "email" := by
  refine Submission.Keeps.of_isExactScalar (by decide) (by decide) fun v hv => ?_
  obtain rfl : .str email = v := Option.some.inj hv
  rfl

/-- Two who sign up with one address under different identities: the second is a conflict. -/
theorem afterAll_unique_signups :
    let first := signup "1" "ann@corp.io"
    let second := signup "2" "ann@corp.io"
    (∀ s ∈ [first, second], s.Keeps "email") ∧
      (second.send (ofSignups.afterAll [first])).1.status = 409 ∧
        (ofSignups.afterAll [first, second]).site.store.OneIdPerValue "signups" "email" := by
  intro first second
  have hk : ∀ s ∈ [first, second], s.Keeps "email" :=
    List.forall_mem_cons.mpr ⟨signup_keeps _ _, List.forall_mem_singleton.mpr (signup_keeps _ _)⟩
  have hempty : ofSignups.site.store.recordsOf "signups" = [] := rfl
  have hsize : second.request.body.size ≤ ofSignups.settings.maxBodyBytes := by decide +kernel
  have htaken :
      ¬(ofSignups.afterAll [first]).site.store.IsFree "signups" "email" second.record := by
    decide +kernel
  obtain ⟨hids, hconflict, -⟩ := ofSignups_keepsUnique.afterAll_unique hempty hk
  exact ⟨hk, (hconflict [first] second List.prefix_rfl hsize htaken).1, hids⟩

/-- Whoever signs up again under the same identity is stored again. -/
theorem signups_not_apart :
    ∃ g, bare.load "IF POST signups THEN INVOKE unique(\"email\")" = .ok g ∧
      g.site.store.collections = [] ∧
        ¬(g.afterAll [signup "1" "ann@corp.io", signup "1" "ann@corp.io"]).site.store.Apart
          "signups" "email" := by
  refine ⟨ofSignups, by with_unfolding_all rfl, rfl, ?_⟩
  decide +kernel

end Gateway

end Bylaw
