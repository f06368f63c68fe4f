import Bylaw.Proofs.Json.Sorted
import Bylaw.Proofs.Rule.Compiled

/-! The fields of payloads. The source and the rendering of a payload keep the order of its entries.
Main statement: for the payloads of rules it comes to the same to collect the fields of each record
in a map, as their names come from a JSON text and are in order. -/

namespace Bylaw

namespace Payload

/-- In every record inside a payload the fields are in increasing order of name. -/
inductive IsSorted : Payload → Prop
  | plain (v : Json) : IsSorted (.plain v)
  | text (t : Template) : IsSorted (.text t)
  | list {items : List Payload} (within : ∀ p ∈ items, IsSorted p) : IsSorted (.list items)
  | record {fields : Keyed Payload} (sorted : Keyed.IsSorted fields)
    (within : ∀ field ∈ fields, IsSorted field.2) : IsSorted (.record fields)

mutual

/-- The value of a payload from the values of its templates, where the fields of a record are
collected in a map. -/
def collect (leaf : Template → Json) : Payload → Json
  | .plain v => v
  | .text t => leaf t
  | .list items => .arr (collectItems leaf items)
  | .record fields => .ofFields (collectFields leaf fields)

def collectItems (leaf : Template → Json) : List Payload → List Json
  | [] => []
  | p :: rest => collect leaf p :: collectItems leaf rest

def collectFields (leaf : Template → Json) : List (String × Payload) → List (String × Json)
  | [] => []
  | (key, p) :: rest => (key, collect leaf p) :: collectFields leaf rest

end

/-- The values of payloads, made of those of their templates without regard to the order of
fields. -/
structure Follows (leaf : Template → Json) (value : Payload → Json) : Prop where
  plain (v : Json) : value (.plain v) = v
  text (t : Template) : value (.text t) = leaf t
  list (items : List Payload) : value (.list items) = .arr (items.map value)
  record (fields : List (String × Payload)) :
    value (.record fields) = .obj (fields.map fun field => (field.1, value field.2))

theorem follows_source : Follows (fun t => .str t.source) source where
  plain _ := by rw [source]
  text _ := by rw [source]
  list items := by
    rw [source]
    congr 1
    induction items with
    | nil => rfl
    | cons p rest ih => rw [sourceItems, ih, List.map_cons]
  record fields := by
    rw [source]
    congr 1
    induction fields with
    | nil => rfl
    | cons field rest ih => rw [sourceFields, ih, List.map_cons]

theorem follows_render (record : Json) : Follows (·.renderValue record) (render record) where
  plain _ := by rw [render]
  text _ := by rw [render]
  list items := by
    rw [render]
    congr 1
    induction items with
    | nil => rfl
    | cons p rest ih => rw [renderItems, ih, List.map_cons]
  record fields := by
    rw [render]
    congr 1
    induction fields with
    | nil => rfl
    | cons field rest ih => rw [renderFields, ih, List.map_cons]

theorem collectItems_eq (leaf : Template → Json) (items : List Payload) :
    collectItems leaf items = items.map (collect leaf) := by
  induction items with
  | nil => rfl
  | cons p rest ih => rw [collectItems, ih, List.map_cons]

theorem collectFields_eq (leaf : Template → Json) (fields : List (String × Payload)) :
    collectFields leaf fields = fields.map fun field => (field.1, field.2.collect leaf) := by
  induction fields with
  | nil => rfl
  | cons field rest ih => rw [collectFields, ih, List.map_cons]

/-- Fields that are in order are their own map. -/
theorem Follows.eq_collect {leaf : Template → Json} {value : Payload → Json}
    (h : Follows leaf value) {p : Payload} (hp : p.IsSorted) : value p = p.collect leaf := by
  induction hp with
  | plain v => rw [h.plain, collect]
  | text t => rw [h.text, collect]
  | list _ ih => rw [h.list, collect, collectItems_eq, List.map_congr_left ih]
  | @record fields sorted _ ih =>
    have hfields : fields.map (fun field => (field.1, value field.2)) =
        fields.map fun field => (field.1, field.2.collect leaf) :=
      List.map_congr_left fun field hfield => by rw [ih field hfield]
    have hsorted : Keyed.IsSorted (fields.map fun field => (field.1, field.2.collect leaf)) :=
      List.pairwise_map.mpr sorted
    rw [h.record, collect, collectFields_eq, hfields, Json.ofFields, Keyed.ofList_eq_self hsorted]

theorem mem_of_ofItems {items : List Json} {ps : List Payload} (h : ofItems items = .ok ps) :
    ∀ p ∈ ps, ∃ v ∈ items, ofJson v = .ok p := by
  induction items generalizing ps with
  | nil =>
    obtain rfl := Except.ok.inj h
    exact nofun
  | cons v items ih =>
    rw [ofItems] at h
    split at h
    · cases h
    · rename_i p hp
      split at h
      · rename_i qs hqs
        obtain rfl := Except.ok.inj h
        refine List.forall_mem_cons.mpr ⟨⟨v, List.mem_cons_self, hp⟩, fun q hq => ?_⟩
        obtain ⟨w, hw, hread⟩ := ih hqs q hq
        exact ⟨w, List.mem_cons_of_mem v hw, hread⟩
      · cases h

/-- What is read of fields keeps their names. -/
theorem names_of_ofFields {fields : Keyed Json} {ps : Keyed Payload}
    (h : ofFields fields = .ok ps) :
    Keyed.names ps = Keyed.names fields ∧ ∀ p ∈ ps, ∃ field ∈ fields, ofJson field.2 = .ok p.2 := by
  induction fields generalizing ps with
  | nil =>
    obtain rfl := Except.ok.inj h
    exact ⟨rfl, nofun⟩
  | cons field fields ih =>
    obtain ⟨key, v⟩ := field
    rw [ofFields] at h
    split at h
    · cases h
    · rename_i p hp
      split at h
      · rename_i qs hqs
        obtain rfl := Except.ok.inj h
        obtain ⟨hnames, hread⟩ := ih hqs
        refine ⟨congrArg (key :: ·) hnames, List.forall_mem_cons.mpr
          ⟨⟨(key, v), List.mem_cons_self, hp⟩, fun q hq => ?_⟩⟩
        obtain ⟨w, hw, hread⟩ := hread q hq
        exact ⟨w, List.mem_cons_of_mem _ hw, hread⟩
      · cases h

/-- A value with all its fields in order is read as such a payload. -/
theorem isSorted_of_ofJson {v : Json} (hv : v.IsSorted) {p : Payload} (h : ofJson v = .ok p) :
    p.IsSorted := by
  induction hv generalizing p with
  | null | bool | num =>
    obtain rfl := Except.ok.inj h
    exact .plain _
  | str s =>
    rw [ofJson] at h
    split at h
    · obtain rfl := Except.ok.inj h
      exact .text _
    · cases h
  | arr _ ih =>
    rw [ofJson] at h
    split at h
    · rename_i ps hps
      obtain rfl := Except.ok.inj h
      refine .list fun q hq => ?_
      obtain ⟨w, hw, hread⟩ := mem_of_ofItems hps q hq
      exact ih w hw hread
    · cases h
  | @obj fields sorted _ ih =>
    rw [ofJson] at h
    split at h
    · rename_i ps hps
      obtain rfl := Except.ok.inj h
      obtain ⟨hnames, hread⟩ := names_of_ofFields hps
      refine .record ?_ fun q hq => ?_
      · rw [Keyed.isSorted_iff_names, hnames, ← Keyed.isSorted_iff_names]
        exact sorted
      · obtain ⟨field, hfield, hq⟩ := hread q hq
        exact ih field hfield hq
    · cases h

end Payload

namespace Rule

variable {ts : List Token}

theorem ReadsActions.exists_readsAction {actions : List Action} (h : ReadsActions ts actions) :
    ∀ a ∈ actions, ∃ us rest, ReadsAction us a rest := by
  induction h with
  | nil => exact nofun
  | next ha _ ih => exact List.forall_mem_cons.mpr ⟨⟨_, _, ha⟩, ih⟩
  | comma ha _ ih => exact List.forall_mem_cons.mpr ⟨⟨_, _, ha⟩, ih⟩

theorem ReadsRule.isSorted_payload {rule : Rule} (h : ReadsRule ts rule) {kind : String}
    {payload : Payload} (ha : .create kind payload ∈ rule.actions) : payload.IsSorted := by
  obtain ⟨_, _, _, _, hactions, _⟩ := h
  obtain ⟨us, rest, hread⟩ := hactions.exists_readsAction _ ha
  cases hread with
  | create _ hv _ hp => exact Payload.isSorted_of_ofJson (Json.isSorted_of_read hv) hp

/-- The payloads of rules that come of a text print and render as if the fields of each record were
collected in a map. -/
theorem collect_of_compile {source : String} {rules : List Rule} (h : compile source = .ok rules)
    {rule : Rule} (hr : rule ∈ rules) {kind : String} {payload : Payload}
    (ha : .create kind payload ∈ rule.actions) :
    payload.IsSorted ∧ payload.source = payload.collect (fun t => .str t.source) ∧
      ∀ record, payload.render record = payload.collect (·.renderValue record) := by
  obtain ⟨_, _, _, _, hread⟩ := readsRule_of_compile h hr
  have hsorted := hread.isSorted_payload ha
  exact ⟨hsorted, Payload.follows_source.eq_collect hsorted,
    fun record => (Payload.follows_render record).eq_collect hsorted⟩

end Rule

end Bylaw
