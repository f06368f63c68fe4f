import Bylaw.Engine
import Bylaw.Proofs.FieldPath.Assignment
import Bylaw.Proofs.RuleSet.Index
import Bylaw.Proofs.Run.Reads

/-! The order of declaration. A rule that only sets fields and excludes records, and calls no
handler, has no effect but on the record. Main statement: two such rules that stand next to each
other can change places if neither writes what the other reads or writes. -/

namespace Bylaw

variable {σ : Type}

namespace Action

/-- Whether an action sets a field without a call, or excludes the record. -/
def IsQuiet : Action → Prop
  | .update _ value => value.IsCallFree
  | .delete => True
  | _ => False

instance : (action : Action) → Decidable action.IsQuiet
  | .update _ value => inferInstanceAs (Decidable value.IsCallFree)
  | .delete => isTrue trivial
  | .notify _ => isFalse id
  | .create _ _ => isFalse id
  | .send _ _ => isFalse id
  | .invoke _ _ => isFalse id
  | .stop => isFalse id

/-- The paths that a quiet action reads. -/
def reads : Action → List FieldPath
  | .update _ value => value.reads
  | _ => []

/-- The paths that an action writes. -/
def writes : Action → List FieldPath
  | .update field _ => [field]
  | _ => []

end Action

namespace Rule

/-- Whether a rule only sets fields without calls, and excludes records. -/
def IsQuiet (rule : Rule) : Prop := ∀ action ∈ rule.actions, action.IsQuiet

/-- The paths that a quiet rule reads, in its condition and in the values it sets. -/
def reads (rule : Rule) : List FieldPath := rule.conditionReads ++ rule.actions.flatMap Action.reads

/-- The paths that a rule writes. -/
def writes (rule : Rule) : List FieldPath := rule.actions.flatMap Action.writes

instance (rule : Rule) : Decidable rule.IsQuiet :=
  inferInstanceAs (Decidable (∀ action ∈ rule.actions, action.IsQuiet))

end Rule

/-- No path of the one list overlaps one of the other. -/
def FieldPath.Apart (paths others : List FieldPath) : Prop :=
  ∀ p ∈ paths, ∀ q ∈ others, ¬p.Overlaps q

instance (paths others : List FieldPath) : Decidable (FieldPath.Apart paths others) :=
  inferInstanceAs (Decidable (∀ p ∈ paths, ∀ q ∈ others, ¬p.Overlaps q))

/-- Neither rule writes what the other reads or writes. -/
structure Rule.Independent (a b : Rule) : Prop where
  left : FieldPath.Apart a.writes (b.reads ++ b.writes)
  right : FieldPath.Apart b.writes (a.reads ++ a.writes)

instance (a b : Rule) : Decidable (a.Independent b) :=
  decidable_of_iff (FieldPath.Apart a.writes (b.reads ++ b.writes) ∧
    FieldPath.Apart b.writes (a.reads ++ a.writes))
    ⟨fun h => ⟨h.1, h.2⟩, fun h => ⟨h.left, h.right⟩⟩

theorem FieldPath.apart_append {paths others more : List FieldPath} :
    Apart paths (others ++ more) ↔ Apart paths others ∧ Apart paths more := by
  simp only [Apart, List.mem_append, or_imp, forall_and]

/-- The draft with a value set at a path, if there is one and it can be set. -/
def Draft.put (path : FieldPath) (value? : Option Json) (draft : Draft) : Draft :=
  match value? with
  | some v => { draft with record := path.put v draft.record }
  | none => draft

theorem Draft.agreeOn_put {paths : List FieldPath} {path : FieldPath}
    (h : FieldPath.Apart [path] paths) (value? : Option Json) (draft : Draft) :
    Json.AgreeOn paths draft.record (draft.put path value?).record := by
  intro p hp
  cases value? with
  | none => rfl
  | some v => exact (FieldPath.lookup?_put (h path (List.mem_singleton_self path) p hp) v _).symm

theorem Draft.put_put_comm {p q : FieldPath} (h : ¬p.Overlaps q) (v? w? : Option Json)
    (draft : Draft) : (draft.put q w?).put p v? = (draft.put p v?).put q w? := by
  cases v? with
  | none => rfl
  | some v =>
    cases w? with
    | none => rfl
    | some w => simp only [put, FieldPath.put_put_comm h]

section

variable (ctx : Context σ) (s : Session σ)

theorem Session.absorb_trail : s.absorb s.trail = s := rfl

theorem Session.verdictAfter_self : s.verdictAfter s = .proceed := by
  cases h : s.reply.terminated <;> simp [verdictAfter, h]

/-- An update without calls sets its field to a value that hangs on what it reads, if there is
such a value, and does nothing else. -/
theorem Action.perform_update (field : FieldPath) {value : Expr} (h : value.IsCallFree)
    (record : Json) :
    ∃ value?, ∀ (s : Session σ) (draft : Draft), Json.AgreeOn value.reads record draft.record →
      (Action.update field value).perform ctx draft s =
        ⟨draft.put field value?, s, .proceed⟩ := by
  obtain ⟨result, hr⟩ := value.eval_congr ctx h (.refl value.reads record)
  refine ⟨result.toOption, fun s draft ha => ?_⟩
  obtain ⟨result', hd⟩ := value.eval_congr ctx h ha
  have he : result'.mapError ActionError.evaluation = result.mapError .evaluation :=
    congrArg Prod.fst ((hd s.trail).1.symm.trans (hr s.trail).1)
  have hdraft := (hd s.trail).2
  rw [he] at hdraft
  simp only [perform, Context.setField, hdraft, Session.absorb_trail, Session.verdictAfter_self]
  cases result with
  | error e => rfl
  | ok v =>
    simp only [Except.mapError, Except.toOption, Draft.put, FieldPath.put]
    cases field.assign? draft.record v <;> rfl

/-- What a quiet action makes of a draft. -/
def Action.effect (draft : Draft) (action : Action) : Draft := (action.perform ctx draft s).draft

theorem Action.IsQuiet.perform {action : Action} (h : action.IsQuiet) (draft : Draft) :
    action.perform ctx draft s = ⟨action.effect ctx s draft, s, .proceed⟩ := by
  cases action with
  | update field value =>
    obtain ⟨value?, hp⟩ := perform_update ctx field h draft.record
    rw [effect, hp s draft (.refl _ _)]
  | delete => rfl
  | _ => exact h.elim

/-- What a quiet action leaves is the same at paths apart from those that it writes. -/
theorem Action.IsQuiet.agreeOn_effect {action : Action} (h : action.IsQuiet)
    {paths : List FieldPath} (hw : FieldPath.Apart action.writes paths) (draft : Draft) :
    Json.AgreeOn paths draft.record (action.effect ctx s draft).record := by
  cases action with
  | update field value =>
    obtain ⟨value?, hp⟩ := perform_update ctx field h draft.record
    rw [effect, hp s draft (.refl _ _)]
    exact draft.agreeOn_put hw value?
  | delete => exact .refl paths draft.record
  | _ => exact h.elim

/-- Quiet actions that leave alone what the other reads and writes can be carried out in either
order. -/
theorem Action.IsQuiet.effect_comm {a b : Action} (ha : a.IsQuiet) (hb : b.IsQuiet)
    (hab : FieldPath.Apart a.writes (b.reads ++ b.writes))
    (hba : FieldPath.Apart b.writes (a.reads ++ a.writes)) (draft : Draft) :
    b.effect ctx s (a.effect ctx s draft) = a.effect ctx s (b.effect ctx s draft) := by
  obtain ⟨hra, hwa⟩ := FieldPath.apart_append.mp hab
  obtain ⟨hrb, -⟩ := FieldPath.apart_append.mp hba
  -- What one action reads is left alone by the other, so it sets the same value before and after.
  have hda := ha.agreeOn_effect ctx s hra draft
  have hdb := hb.agreeOn_effect ctx s hrb draft
  cases a with
  | update p e =>
    obtain ⟨v?, hv⟩ := perform_update ctx p ha draft.record
    cases b with
    | update q f =>
      obtain ⟨w?, hw⟩ := perform_update ctx q hb draft.record
      have hpq : ¬p.Overlaps q := hwa p (List.mem_singleton_self p) q (List.mem_singleton_self q)
      simp only [effect] at hda hdb ⊢
      rw [hw s _ hda, hv s _ hdb, hv s draft (.refl _ _), hw s draft (.refl _ _)]
      exact (Draft.put_put_comm hpq v? w? draft).symm
    | delete =>
      simp only [effect] at hdb ⊢
      rw [hv s _ hdb, hv s draft (.refl _ _)]
      cases v? <;> rfl
    | _ => exact hb.elim
  | delete =>
    cases b with
    | update q f =>
      obtain ⟨w?, hw⟩ := perform_update ctx q hb draft.record
      simp only [effect] at hda ⊢
      rw [hw s _ hda, hw s draft (.refl _ _)]
      cases w? <;> rfl
    | delete => rfl
    | _ => exact hb.elim
  | _ => exact ha.elim

theorem Action.performAll_of_isQuiet {actions : List Action} (h : ∀ a ∈ actions, a.IsQuiet)
    (draft : Draft) :
    performAll ctx actions draft s = ⟨actions.foldl (effect ctx s) draft, s, .proceed⟩ := by
  induction actions generalizing draft with
  | nil => rfl
  | cons a rest ih =>
    obtain ⟨ha, hrest⟩ := List.forall_mem_cons.mp h
    simp only [performAll, ha.perform ctx s draft, ih hrest, List.foldl_cons]

theorem Action.agreeOn_foldl_effect {actions : List Action} (h : ∀ a ∈ actions, a.IsQuiet)
    {paths : List FieldPath} (hw : FieldPath.Apart (actions.flatMap writes) paths)
    (draft : Draft) :
    Json.AgreeOn paths draft.record (actions.foldl (effect ctx s) draft).record := by
  induction actions generalizing draft with
  | nil => exact .refl paths draft.record
  | cons a rest ih =>
    obtain ⟨ha, hrest⟩ := List.forall_mem_cons.mp h
    have hwa : FieldPath.Apart a.writes paths := fun p hp => hw p (by simp [hp])
    have hwr : FieldPath.Apart (rest.flatMap writes) paths := fun p hp =>
      hw p (by rw [List.flatMap_cons]; exact List.mem_append_right _ hp)
    intro path hp
    rw [List.foldl_cons, ← ih hrest hwr (a.effect ctx s draft) path hp]
    exact ha.agreeOn_effect ctx s hwa draft path hp

theorem foldl_comm_of {α β : Type} {f : β → α → β} {xs ys : List α}
    (h : ∀ x ∈ xs, ∀ y ∈ ys, ∀ b, f (f b x) y = f (f b y) x) (b : β) :
    ys.foldl f (xs.foldl f b) = xs.foldl f (ys.foldl f b) := by
  induction ys generalizing b with
  | nil => rfl
  | cons y ys ih =>
    have hy : ∀ b, f (xs.foldl f b) y = xs.foldl f (f b y) := by
      intro b
      clear ih
      induction xs generalizing b with
      | nil => rfl
      | cons x xs ihx =>
        rw [List.foldl_cons, List.foldl_cons, ihx, h x List.mem_cons_self y List.mem_cons_self]
        intro x' hx'
        exact h x' (List.mem_cons_of_mem x hx')
    rw [List.foldl_cons, hy, ih, List.foldl_cons]
    intro x hx y' hy'
    exact h x hx y' (List.mem_cons_of_mem y hy')

namespace Rule

variable {a b : Rule}

theorem apart_of_mem (h : FieldPath.Apart a.writes (b.reads ++ b.writes))
    {x y : Action} (hx : x ∈ a.actions) (hy : y ∈ b.actions) :
    FieldPath.Apart x.writes (y.reads ++ y.writes) := by
  intro p hp q hq
  refine h p (List.mem_flatMap.mpr ⟨x, hx, hp⟩) q ?_
  rcases List.mem_append.mp hq with hq | hq
  · refine List.mem_append_left _ (List.mem_append_right _ ?_)
    exact List.mem_flatMap.mpr ⟨y, hy, hq⟩
  · exact List.mem_append_right _ (List.mem_flatMap.mpr ⟨y, hy, hq⟩)

/-- Quiet rules neither of which writes what the other reads or writes have the same effect in
either order. -/
theorem Independent.foldl_effect_comm (h : a.Independent b) (ha : a.IsQuiet) (hb : b.IsQuiet)
    (draft : Draft) :
    b.actions.foldl (Action.effect ctx s) (a.actions.foldl (Action.effect ctx s) draft) =
      a.actions.foldl (Action.effect ctx s) (b.actions.foldl (Action.effect ctx s) draft) := by
  apply foldl_comm_of
  intro x hx y hy draft
  exact (ha x hx).effect_comm ctx s (hb y hy) (apart_of_mem h.left hx hy)
    (apart_of_mem h.right hy hx) draft

theorem isMatch_foldl_effect (ha : a.IsQuiet)
    (h : FieldPath.Apart a.writes (b.reads ++ b.writes)) (draft : Draft) :
    b.isMatch (ctx.scope (a.actions.foldl (Action.effect ctx s) draft).record) =
      b.isMatch (ctx.scope draft.record) := by
  have hc : FieldPath.Apart a.writes b.conditionReads :=
    (FieldPath.apart_append.mp (FieldPath.apart_append.mp h).1).1
  exact (isMatch_congr ctx.facts ctx.today (Action.agreeOn_foldl_effect ctx s ha hc draft)).symm

theorem IsQuiet.perform (ha : a.IsQuiet) (draft : Draft) :
    a.perform ctx draft s =
      ⟨a.actions.foldl (Action.effect ctx s) draft, s, .proceed⟩ :=
  Action.performAll_of_isQuiet ctx s ha draft

theorem Independent.ofRules_swap (h : a.Independent b) (ha : a.IsQuiet) (hb : b.IsQuiet)
    (rest : List Rule) (draft : Draft) :
    Run.ofRules ctx (a :: b :: rest) draft s = Run.ofRules ctx (b :: a :: rest) draft s := by
  have hma := isMatch_foldl_effect ctx s hb h.right draft
  have hmb := isMatch_foldl_effect ctx s ha h.left draft
  cases hca : a.isMatch (ctx.scope draft.record) with
  | false =>
    rw [hca] at hma
    cases hcb : b.isMatch (ctx.scope draft.record) with
    | false => simp only [Run.ofRules, hca, hcb, Bool.false_eq_true, if_false]
    | true => simp only [Run.ofRules, hca, hcb, hma, hb.perform, Bool.false_eq_true, if_false]
  | true =>
    rw [hca] at hma
    cases hcb : b.isMatch (ctx.scope draft.record) with
    | false =>
      rw [hcb] at hmb
      simp only [Run.ofRules, hca, hcb, hmb, ha.perform, Bool.false_eq_true, if_false]
    | true =>
      rw [hcb] at hmb
      simp only [Run.ofRules, hca, hcb, hma, hmb, ha.perform, hb.perform, if_true,
        h.foldl_effect_comm ctx s ha hb]

end Rule

end

/-- Rules at the end of a run may be replaced by others that come to the same. -/
theorem Run.ofRules_append_congr (ctx : Context σ) (before : List Rule) {rules others : List Rule}
    (h : Run.ofRules ctx rules = Run.ofRules ctx others) :
    Run.ofRules ctx (before ++ rules) = Run.ofRules ctx (before ++ others) := by
  induction before with
  | nil => exact h
  | cons rule before ih =>
    funext draft s
    simp only [List.cons_append, ofRules, ih]

theorem Batch.ofRecords_congr (ctx : Context σ) {rules others : List Rule}
    (h : Run.ofRules ctx rules = Run.ofRules ctx others) (stops : Bool) (records : List Json)
    (s : Session σ) :
    ofRecords ctx rules stops records s = ofRecords ctx others stops records s := by
  induction records generalizing s with
  | nil => rfl
  | cons record rest ih =>
    simp only [ofRecords, Run.ofRecord, h, ih]
    rfl

namespace Engine

/-- The engine with the given rules in effect, under a version. -/
def withRules (engine : Engine σ) (rules : List Rule) (version : Nat) : Engine σ :=
  { engine with rules := .ofRules rules version }

theorem rulesFor_withRules (engine : Engine σ) (rules : List Rule) (version : Nat)
    (occasion : Occasion) :
    (engine.withRules rules version).rulesFor occasion =
      rules.filter fun rule => rule.entity = occasion.entity && rule.firesOn occasion.event :=
  RuleSet.rulesFor_ofRules rules version occasion.entity occasion.event

/-- Two rules that stand next to each other, that set fields without calls and exclude records and
do nothing else, and neither of which writes what the other reads or writes, can change places in
every set of rules: all that is processed comes to the same. -/
theorem process_swap (engine : Engine σ) {a b : Rule} (ha : a.IsQuiet) (hb : b.IsQuiet)
    (h : a.Independent b) (before after : List Rule) (version : Nat) (occasion : Occasion)
    (data : Json) (world : σ) :
    (engine.withRules (before ++ a :: b :: after) version).process occasion data world =
      (engine.withRules (before ++ b :: a :: after) version).process occasion data world := by
  let asked (rules : List Rule) : List Rule :=
    rules.filter fun rule => rule.entity = occasion.entity && rule.firesOn occasion.event
  have hruns : Run.ofRules (engine.context occasion) (asked (before ++ a :: b :: after)) =
      Run.ofRules (engine.context occasion) (asked (before ++ b :: a :: after)) := by
    simp only [asked, List.filter_append]
    apply Run.ofRules_append_congr
    funext draft s
    simp only [List.filter_cons]
    split
    · split
      · exact h.ofRules_swap _ s ha hb _ draft
      · rfl
    · rfl
  have hempty : (asked (before ++ a :: b :: after)).isEmpty =
      (asked (before ++ b :: a :: after)).isEmpty := by
    have hperm : (before ++ a :: b :: after).Perm (before ++ b :: a :: after) :=
      (List.Perm.swap b a after).append_left before
    rw [Bool.eq_iff_iff, List.isEmpty_iff_length_eq_zero, List.isEmpty_iff_length_eq_zero,
      (hperm.filter _).length_eq]
  have hcontext (rules : List Rule) :
      (engine.withRules rules version).context occasion = engine.context occasion := rfl
  simp only [process, rulesFor_withRules, processBatch, processRecord, hcontext]
  simp only [asked] at hruns hempty
  rw [hempty]
  split
  · rfl
  · split
    · rw [Batch.ofRecords_congr _ hruns]
      rfl
    · simp only [Run.ofRecord, hruns]
      rfl

/-- Leads with a score get a rank one above it. -/
def ranking : Rule where
  entity := "leads"
  events := [.get]
  condition := some [.present ⟨["score"], FieldPath.score_nonempty, FieldPath.score_plain⟩ false]
  actions := [.update ⟨["stats", "rank"], by decide, by decide⟩
    (.binary .add (.field ⟨["score"], FieldPath.score_nonempty, FieldPath.score_plain⟩)
      (.literal (.ofNat 1)))]
  line := 1

/-- All leads are marked, and taken out. -/
def marking : Rule where
  entity := "leads"
  events := [.get]
  condition := none
  actions := [.update ⟨["stats", "mark"], by decide, by decide⟩ (.literal (.bool true)), .delete]
  line := 2

/-- A batch of one lead, on the first of January 1970. -/
theorem process_swap_ranking :
    let engine : Engine Unit := { catalog := {} }
    let occasion : Occasion := ⟨.get, "leads", {}, ⟨0, by decide, by decide⟩⟩
    let data := Json.arr [.obj [("score", .ofNat 3)]]
    ranking.IsQuiet ∧ marking.IsQuiet ∧ ranking.Independent marking ∧
      (engine.withRules [ranking, marking] 1).process occasion data () =
        (engine.withRules [marking, ranking] 1).process occasion data () := by
  intro engine occasion data
  have ha : ranking.IsQuiet := by decide
  have hb : marking.IsQuiet := by decide
  have h : ranking.Independent marking := by decide
  exact ⟨ha, hb, h, process_swap engine ha hb h [] [] 1 occasion data ()⟩

end Engine

end Bylaw
