import Bylaw.Proofs.Rule.Comment
import Bylaw.Proofs.Rule.Compiled

/-! Printing rules and compiling them again. Main statement: the ordinary rules of a text in which
patterns stand between slashes compile back if the slashes of no empty pattern begin a comment, and
only then if all such comments would reach the end of their rule. -/

namespace Bylaw

open Token (FitsWord isWritable)

theorem Token.isWritable_of_fitsWord {n : Number} (h : FitsWord n) (ho : 'e' ∉ n.text) :
    isWritable n := by
  cases n with
  | int i => exact h i rfl
  | real x => exact ho

theorem Json.IsOrdinary.writable {v : Json} (ho : v.IsOrdinary) (h : v.IsLiteral FitsWord) :
    v.IsLiteral isWritable := by
  cases v with
  | num n => exact Token.isWritable_of_fitsWord h ho
  | null | bool _ | str _ => exact trivial
  | arr _ | obj _ => exact h

theorem Operand.IsOrdinary.writable {x : Operand} (ho : x.IsOrdinary) (h : x.IsProper FitsWord) :
    x.IsProper isWritable := by
  cases x with
  | literal v => exact Json.IsOrdinary.writable ho h
  | field path => exact h
  | today offset => exact h

theorem Clause.IsOrdinary.writable {c : Clause} (ho : c.IsOrdinary) (h : c.IsProper FitsWord) :
    c.IsProper isWritable := by
  cases c with
  | compare left op right =>
    exact ⟨Operand.IsOrdinary.writable ho.1 h.1, Operand.IsOrdinary.writable ho.2 h.2⟩
  | present field negated => exact h
  | fits field p negated => exact h
  | contains field needle negated => exact ⟨h.1, Operand.IsOrdinary.writable ho h.2⟩

theorem Expr.IsProper.writable {e : Expr} (h : e.IsProper FitsWord)
    (ho : ∀ v, e = .literal v → v.IsOrdinary) : e.IsProper isWritable := by
  cases e with
  | literal v => exact ⟨Json.IsOrdinary.writable (ho v rfl) h.1, h.2⟩
  | template t => exact h
  | field path => exact h
  | today offset => exact h
  | binary op left right => exact trivial
  | call handler args => exact h

theorem Expr.IsOrdinary.writable {e : Expr} (ho : e.IsOrdinary) (h : e.IsProper FitsWord) :
    e.IsProper isWritable := by
  refine h.writable ?_
  rintro v rfl
  exact ho

theorem Action.ValuesOrdinary.writable {a : Action} (ho : a.ValuesOrdinary)
    (h : a.IsProper FitsWord) : a.IsProper isWritable := by
  cases a with
  | update field value => exact ⟨h.1, fun e he => (ho e he).writable (h.2 e he)⟩
  | notify message => exact h
  | delete => exact h
  | create kind payload => exact h
  | send subject handler => exact h
  | invoke handler args => exact ⟨h.1, fun v hv => (ho v hv).writable (h.2 v hv)⟩
  | stop => exact h

/-- Ordinary numbers are written without powers of ten. -/
theorem Rule.ValuesOrdinary.writable {rule : Rule} (ho : rule.ValuesOrdinary)
    (h : rule.IsProper FitsWord) : rule.IsProper isWritable where
  entity := h.entity
  events := h.events
  sorted := h.sorted
  condition clauses hc :=
    ⟨(h.condition clauses hc).1,
      fun c hcs => (ho.condition clauses hc c hcs).writable ((h.condition clauses hc).2 c hcs)⟩
  actions a ha := (ho.actions a ha).writable (h.actions a ha)

namespace Rule

/-- The ordinary rules of a text in which patterns stand between slashes compile back if the slashes
of no empty pattern begin a comment; and if all comments so begun would reach the end of their rule,
only then. -/
theorem compilesBack_exact {source : String} {rules : List Rule} {ts : List Token}
    (h : compile source = .ok rules) (ht : Token.tokens false source.toList = .ok ts)
    (hw : WritesSlashes ts) (ho : ∀ r ∈ rules, r.IsOrdinary)
    (hjson : ∀ r ∈ rules, ∀ a ∈ r.actions, a.ReadsBack) :
    ((∀ r ∈ rules, r.IsShielded) → CompilesBack rules) ∧
      ((∀ r ∈ rules, r.CommentsReachEnd) → CompilesBack rules → ∀ r ∈ rules, r.IsShielded) := by
  have hp : ∀ r ∈ rules, r.IsProper isWritable := fun r hr =>
    (isOrdinary_iff.mp (ho r hr)).1.writable (compile_sound h ht hw r hr)
  constructor
  · exact compilesBack hp ho hjson
  · intro hreach hback
    obtain ⟨again, hagain, -⟩ := hback
    by_contra hs
    exact not_compiles hp ho hreach hs again hagain

/-- A rule with an offset in a sum and a payload. -/
def scoring : Rule where
  entity := "leads"
  events := [.post, .update]
  condition := some [
    .compare (.field ⟨["score"], by decide, by decide⟩) .ge
      (.literal (.num (.int ⟨10, by decide, by decide⟩))),
    .present ⟨["rank"], by decide, by decide⟩ true]
  actions := [
    .update ⟨["due"], by decide, by decide⟩
      (.binary .add (.field ⟨["due"], by decide, by decide⟩) (.today 2)),
    .create "task" (.record [("title", .text ⟨[.text "call"]⟩)]),
    .stop]
  line := 1

theorem scoring_isProper : scoring.IsProper isWritable where
  entity := by decide
  events := by decide
  sorted := by decide
  condition := by
    rintro clauses ⟨⟩
    refine ⟨by simp, ?_⟩
    have hscore : (FieldPath.mk ["score"] (by decide) (by decide)).IsOperand :=
      ⟨⟨by decide, by decide, by decide +kernel⟩, by decide, by decide⟩
    have hrank : (FieldPath.mk ["rank"] (by decide) (by decide)).IsOperand :=
      ⟨⟨by decide, by decide, by decide +kernel⟩, by decide, by decide⟩
    intro c hc
    simp only [List.mem_cons, List.not_mem_nil, or_false] at hc
    rcases hc with rfl | rfl
    · refine ⟨hscore, ?_⟩
      show (10 : Int).natAbs < 0x8000000000000000
      decide
    · exact hrank
  actions := by
    intro a ha
    have hdue : (FieldPath.mk ["due"] (by decide) (by decide)).IsOperand :=
      ⟨⟨by decide, by decide, by decide +kernel⟩, by decide, by decide⟩
    simp only [scoring, List.mem_cons, List.not_mem_nil, or_false] at ha
    rcases ha with rfl | rfl | rfl
    · refine ⟨hdue.toIsTarget, ?_⟩
      intro e he
      simp only [Expr.nodes, List.mem_cons, List.mem_append, List.not_mem_nil, or_false] at he
      rcases he with rfl | rfl | rfl
      · exact trivial
      · exact hdue
      · show IsOffset 2
        unfold IsOffset
        decide
    · exact ⟨rfl, by with_unfolding_all rfl⟩
    · exact trivial

theorem scoring_isOrdinary : scoring.IsOrdinary where
  entity := by decide
  condition := by
    rintro clauses ⟨⟩ c hc
    simp only [List.mem_cons, List.not_mem_nil, or_false] at hc
    rcases hc with rfl | rfl
    · refine ⟨trivial, ?_⟩
      show 'e' ∉ Number.intText 10
      decide +kernel
    · exact trivial
  actions := by
    intro a ha
    simp only [scoring, List.mem_cons, List.not_mem_nil, or_false] at ha
    rcases ha with rfl | rfl | rfl
    · intro e he
      simp only [Expr.nodes, List.mem_cons, List.mem_append, List.not_mem_nil, or_false] at he
      rcases he with rfl | rfl | rfl <;> exact trivial
    · exact ⟨by decide, by decide⟩
    · exact trivial

theorem scoring_readsBack : ∀ a ∈ scoring.actions, a.ReadsBack := by
  intro a ha
  simp only [scoring, List.mem_cons, List.not_mem_nil, or_false] at ha
  rcases ha with rfl | rfl | rfl
  · exact trivial
  · show Json.read _ = _
    with_unfolding_all rfl
  · exact trivial

theorem scoring_isShielded : scoring.IsShielded := by
  intro before p after h
  cases before <;> cases h

theorem scoring_text :
    scoring.text = "IF POST|UPDATE leads WHEN score >= 10 AND rank NOT EXISTS THEN UPDATE " ++
      "due = due + (current_date + 2), CREATE task WITH \x7b\"title\":\"call\"\x7d, END" := by
  decide +kernel

/-- The rule compiles back from its own text. -/
theorem compilesBack_exact_scoring :
    ∃ rules, compile ("IF POST|UPDATE leads WHEN score >= 10 AND rank NOT EXISTS THEN " ++
        "UPDATE due = due + (current_date + 2), CREATE task WITH \x7b\"title\":\"call\"\x7d, END") =
      .ok rules ∧ CompilesBack rules := by
  have hp := List.forall_mem_singleton.mpr scoring_isProper
  have ho := List.forall_mem_singleton.mpr scoring_isOrdinary
  have hs := List.forall_mem_singleton.mpr scoring_isShielded
  have hjson : ∀ r ∈ [scoring], ∀ a ∈ r.actions, a.ReadsBack :=
    List.forall_mem_singleton.mpr scoring_readsBack
  have hlines : joinWith "\n" ([scoring].map text) = scoring.text := by
    simp [joinWith]
  have htokens := (spells_joinLines hp ho hs).tokens_eq
  obtain ⟨rules, hrules, hsame⟩ := compilesBack hp ho hjson hs
  rw [hlines] at htokens hrules
  obtain ⟨rule, rfl, hrule⟩ := List.map_eq_singleton_iff.mp hsame
  obtain ⟨n, rfl⟩ : ∃ n, rule = { scoring with line := n } := by
    obtain ⟨entity, events, condition, actions, line⟩ := rule
    obtain ⟨rfl, rfl, rfl, rfl, -⟩ := Rule.mk.inj hrule
    exact ⟨line, rfl⟩
  have ho' : ∀ r ∈ [{ scoring with line := n }], r.IsOrdinary := List.forall_mem_singleton.mpr
    ⟨scoring_isOrdinary.entity, scoring_isOrdinary.condition, scoring_isOrdinary.actions⟩
  have hback := (compilesBack_exact hrules htokens (by decide +kernel) ho'
    (List.forall_mem_singleton.mpr scoring_readsBack)).1
      (List.forall_mem_singleton.mpr scoring_isShielded)
  rw [scoring_text] at hrules
  exact ⟨_, hrules, hback⟩

/-- A rule with an empty pattern, whose slashes begin a comment once the carriage return after them
is lost. -/
def spoiled : Rule where
  entity := "leads"
  events := [.get]
  condition := some [
    .fits ⟨["x"], by decide, by decide⟩ ⟨"", .empty, by with_unfolding_all rfl⟩ false]
  actions := [.delete]
  line := 1

/-- An ordinary rule need not compile back. -/
theorem spoiled_not_compilesBack :
    compile "IF GET leads WHEN x MATCHES // \r THEN DELETE" = .ok [spoiled] ∧
      (∃ ts, Token.tokens false "IF GET leads WHEN x MATCHES // \r THEN DELETE".toList = .ok ts ∧
        WritesSlashes ts) ∧
      spoiled.IsOrdinary ∧ (∀ a ∈ spoiled.actions, a.ReadsBack) ∧ ¬ CompilesBack [spoiled] := by
  refine ⟨by with_unfolding_all rfl, ⟨[.word "IF", .word "GET", .word "leads", .word "WHEN",
    .word "x", .word "MATCHES", .pattern "", .word "THEN", .word "DELETE"], by decide +kernel,
    by decide +kernel⟩, ?_, ?_, ?_⟩
  · refine ⟨by decide, ?_, ?_⟩
    · rintro clauses ⟨⟩ c hc
      rw [List.mem_singleton.mp hc]
      exact trivial
    · intro a ha
      rw [List.mem_singleton.mp ha]
      exact trivial
  · intro a ha
    rw [List.mem_singleton.mp ha]
    exact trivial
  · rintro ⟨again, h, -⟩
    have hfails : (compile (joinWith "\n" ([spoiled].map text))).isOk = false := by decide +kernel
    rw [h] at hfails
    cases hfails

end Rule

end Bylaw
