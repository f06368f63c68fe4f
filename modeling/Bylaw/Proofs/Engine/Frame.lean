import Bylaw.Proofs.Engine.Batch
import Bylaw.Proofs.Engine.Order
import Bylaw.Proofs.Json.Place

/-! What a run can change. Main statement: whatever handlers answer, the run of a record changes it
at the paths that its rules set only; no field goes missing anywhere else, and a record that is no
object stays as it is. -/

namespace Bylaw

variable {σ : Type}

/-- The steps to the value that is set at a path: assignments go through objects only. -/
def FieldPath.steps (path : FieldPath) : List Json.Step := path.segments.map .field

/-- What becomes of a record if it is changed at some paths only: values at other paths stay as they
are, no field is missing afterwards that is not below one of the paths, and what is no object is
not changed at all. -/
structure Json.Frame (targets : List FieldPath) (before after : Json) : Prop where
  lookup (path : FieldPath) :
    (∀ t ∈ targets, ¬t.Overlaps path) → path.lookup? after = path.lookup? before
  hasField (place : List Step) (name : String) :
    (∀ t ∈ targets, ¬t.steps <+: place ++ [.field name]) →
      before.HasField place name → after.HasField place name
  eq_of_not_object : before.isObject = false → after = before

namespace Json.Frame

variable {targets others : List FieldPath} {first second third : Json}

theorem refl (targets : List FieldPath) (v : Json) : Frame targets v v :=
  ⟨fun _ _ => rfl, fun _ _ _ h => h, fun _ => rfl⟩

theorem trans (h : Frame targets first second) (h' : Frame targets second third) :
    Frame targets first third where
  lookup path hp := (h'.lookup path hp).trans (h.lookup path hp)
  hasField place name hp hf := h'.hasField place name hp (h.hasField place name hp hf)
  eq_of_not_object hn := by
    obtain rfl := h.eq_of_not_object hn
    exact h'.eq_of_not_object hn

theorem mono (h : Frame targets first second) (hs : targets ⊆ others) :
    Frame others first second where
  lookup path hp := h.lookup path fun t ht => hp t (hs ht)
  hasField place name hp := h.hasField place name fun t ht => hp t (hs ht)
  eq_of_not_object := h.eq_of_not_object

end Json.Frame

namespace FieldPath

/-- Setting a value takes no field away that is not below the segments that it is set at. -/
theorem hasField_of_assignAt? {segments : List String} {root value after : Json}
    (h : assignAt? segments root value = some after) {place : List Json.Step} {name : String}
    (hp : ¬segments.map Json.Step.field <+: place ++ [.field name])
    (hf : root.HasField place name) : after.HasField place name := by
  induction segments generalizing root after place with
  | nil => exact absurd List.nil_prefix hp
  | cons segment rest ih =>
    obtain ⟨_, _, fields, child, ⟨⟩, rfl, hc, rfl⟩ := obj_of_assignAt? h
    obtain ⟨found, hat, hname⟩ := hf
    cases place with
    | nil =>
      obtain rfl := Json.obj.inj (Option.some.inj hat)
      exact ⟨_, rfl, Keyed.mem_names_insert.mpr (.inr hname)⟩
    | cons step place =>
      cases step with
      | item index => cases hat
      | field k =>
        by_cases hk : k = segment
        · subst hk
          -- Below a field that is set in part, the others are there by induction.
          cases hold : Keyed.get? k fields with
          | none => simp [Json.at?, Json.field?, hold] at hat
          | some old =>
            have hbelow : old.HasField place name :=
              ⟨found, by simpa [Json.at?, Json.field?, hold] using hat, hname⟩
            cases rest with
            | nil => exact absurd (by simp) hp
            | cons next rest =>
              rw [hold] at hc
              have hchild := ih hc (by simpa [List.cons_prefix_cons] using hp) hbelow
              obtain ⟨found', hat', hname'⟩ := hchild
              exact ⟨found', by simpa [Json.at?, Json.field?] using hat', hname'⟩
        · refine ⟨found, ?_, hname⟩
          simpa [Json.at?, Json.field?, Keyed.get?_insert_of_ne hk] using hat

theorem frame_put (path : FieldPath) (value record : Json) :
    Json.Frame [path] record (path.put value record) where
  lookup other ho := lookup?_put (ho path (List.mem_singleton_self path)) value record
  hasField place name hp hf := by
    unfold put assign?
    cases ha : assignAt? path.segments record value with
    | none => exact hf
    | some after => exact hasField_of_assignAt? ha (hp path (List.mem_singleton_self path)) hf
  eq_of_not_object hn := by
    unfold put assign?
    cases ha : assignAt? path.segments record value with
    | none => rfl
    | some after =>
      obtain ⟨_, _, _, _, _, rfl, _, _⟩ := obj_of_assignAt? ha
      cases hn

end FieldPath

section

variable (ctx : Context σ) (s : Session σ)

/-- Whatever its value's calls answer, an update sets its field or leaves the record alone. -/
theorem Context.frame_setField (field : FieldPath) (value : Expr) (draft : Draft) :
    Json.Frame [field] draft.record (ctx.setField field value draft s).draft.record := by
  simp only [setField]
  split
  · rename_i record hassigned
    split at hassigned
    · cases hassigned
    · rename_i v _
      split at hassigned
      · rename_i after ha
        obtain rfl := Except.ok.inj hassigned
        have hput := field.frame_put v draft.record
        rwa [FieldPath.put, ha] at hput
      · cases hassigned
  · exact .refl [field] draft.record

theorem Action.frame_perform (draft : Draft) (action : Action) :
    Json.Frame action.writes draft.record (action.perform ctx draft s).draft.record := by
  cases action with
  | update field value => exact ctx.frame_setField s field value draft
  | notify message => simp only [perform, Context.detach]; split <;> exact .refl _ _
  | delete => exact .refl _ _
  | create kind payload => simp only [perform, Context.await]; split <;> exact .refl _ _
  | send subject handler => simp only [perform, Context.detach]; split <;> exact .refl _ _
  | invoke handler args => simp only [perform, Context.await]; split <;> exact .refl _ _
  | stop => exact .refl _ _

theorem Action.frame_performAll (actions : List Action) (draft : Draft) :
    Json.Frame (actions.flatMap writes) draft.record
      (performAll ctx actions draft s).draft.record := by
  induction actions generalizing draft s with
  | nil => exact .refl _ _
  | cons action rest ih =>
    have ha : Json.Frame ((action :: rest).flatMap writes) draft.record
        (action.perform ctx draft s).draft.record :=
      (action.frame_perform ctx s draft).mono (List.subset_append_left _ _)
    simp only [performAll]
    split
    · exact ha.trans ((ih _ _).mono (List.subset_append_right _ _))
    · exact ha
    · exact ha

theorem Run.frame_ofRules (rules : List Rule) (draft : Draft) :
    Json.Frame (rules.flatMap Rule.writes) draft.record
      (ofRules ctx rules draft s).draft.record := by
  induction rules generalizing draft s with
  | nil => exact .refl _ _
  | cons rule rest ih =>
    have hrest (draft : Draft) (s : Session σ) :
        Json.Frame ((rule :: rest).flatMap Rule.writes) draft.record
          (ofRules ctx rest draft s).draft.record :=
      (ih s draft).mono (List.subset_append_right _ _)
    have hrule : Json.Frame ((rule :: rest).flatMap Rule.writes) draft.record
        (rule.perform ctx draft s).draft.record :=
      (Action.frame_performAll ctx s rule.actions draft).mono (List.subset_append_left _ _)
    simp only [ofRules]
    split
    · split
      · exact hrule.trans (hrest _ _)
      · exact hrule
    · exact hrest draft s

end

namespace Engine

variable {engine : Engine σ} {occasion : Occasion} {world : σ}

/-- A single record is processed to one that is changed at the paths set by the rules that are asked
only: whatever handlers answer, a value at a path that overlaps none of these is what it was, every
field that is not below one of them is still there, and a record that is no object is returned as
it is. -/
theorem process_frame {record : Json} (ha : record.isArray = false) {o : Outcome}
    (h : (engine.process occasion record world).outcome = .ok o) :
    let targets := (engine.rulesFor occasion).flatMap Rule.writes
    (∀ path : FieldPath, (∀ t ∈ targets, ¬t.Overlaps path) →
      path.lookup? o.data = path.lookup? record) ∧
    (∀ place name, (∀ t ∈ targets, ¬t.steps <+: place ++ [.field name]) →
      record.HasField place name → o.data.HasField place name) ∧
    (record.isObject = false → o.data = record) := by
  intro targets
  have hframe : Json.Frame targets record o.data := by
    obtain ⟨-, rfl⟩ := (alone_eq_ok_iff ha o).mp h
    exact Run.frame_ofRules _ _ _ { record }
  exact ⟨hframe.lookup, hframe.hasField, hframe.eq_of_not_object⟩

/-- A lead whose statistics are set keeps its score and the tags inside its list. -/
theorem process_frame_ranking :
    let engine : Engine Unit := Engine.withRules { catalog := {} } [ranking, marking] 1
    let occasion : Occasion := ⟨.get, "leads", {}, ⟨0, by decide, by decide⟩⟩
    let record := Json.obj [("score", .ofNat 3), ("tags", .arr [.obj [("note", .null)]])]
    record.isArray = false ∧
      ∃ o, (engine.process occasion record ()).outcome = .ok o ∧
        (⟨["score"], FieldPath.score_nonempty, FieldPath.score_plain⟩ : FieldPath).lookup? o.data =
          some (.ofNat 3) ∧
        o.data.HasField [.field "tags", .item 0] "note" := by
  intro engine occasion record
  obtain ⟨o, ho⟩ : ∃ o, (engine.process occasion record ()).outcome = .ok o := ⟨_, rfl⟩
  have htargets : (engine.rulesFor occasion).flatMap Rule.writes =
    ranking.writes ++ marking.writes := rfl
  obtain ⟨hlookup, hfield, -⟩ := @process_frame _ engine occasion () record rfl o ho
  rw [htargets] at hlookup hfield
  refine ⟨rfl, o, ho, ?_, ?_⟩
  · exact hlookup ⟨["score"], FieldPath.score_nonempty, FieldPath.score_plain⟩ (by decide)
  · exact hfield _ _ (by decide) ⟨[("note", .null)], rfl, by decide⟩

end Engine

end Bylaw
