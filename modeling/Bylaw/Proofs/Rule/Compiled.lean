import Bylaw.Proofs.Rule.Recompiling
import Bylaw.Proofs.Rule.Soundness

/-! What compiling can give. Main statement: the rules of a text that compiles, and in which
patterns stand between slashes, are proper. -/

namespace Bylaw.Rule

open Token (FitsWord Placed)

variable {ts rest : List Token}

theorem ReadsLiterals.isLiteral {args : List Json} (h : ReadsLiterals ts args rest)
    (hts : AllSound ts) : ∀ v ∈ args, v.IsLiteral FitsWord := by
  induction h with
  | last h => exact List.forall_mem_singleton.mpr (h.isLiteral hts)
  | cons h _ ih =>
    have hmid := hts.of_suffix ((List.suffix_cons _ _).trans h.suffix)
    exact List.forall_mem_cons.mpr ⟨h.isLiteral hts, ih hmid⟩

theorem ReadsHandler.isIdentifier {handler : String} (h : ReadsHandler ts handler rest) :
    isIdentifier handler = true := by
  obtain ⟨-, hh, -⟩ := h
  exact isIdentifier_of_handlerName? hh

theorem ReadsAction.isProper {a : Action} (h : ReadsAction ts a rest) (hts : AllSound ts) :
    a.IsProper FitsWord := by
  cases h with
  | update hk hp he =>
    exact ⟨isTarget_of_read? hts.tail.head hk hp, (he.isSound hts.tail.tail.tail).nodes⟩
  | notify ht => exact Template.read_source ht
  | delete | stop => trivial
  | create _ _ ho hp =>
    exact ⟨by rw [Payload.isObject_source hp, ho], Payload.ofJson_source hp⟩
  | send _ hhandler => exact hhandler.isIdentifier
  | invoke hhandler | invokeEmpty hhandler => exact ⟨hhandler.isIdentifier, nofun⟩
  | invokeWith hhandler hargs =>
    have hmid := hts.tail.of_suffix ((List.suffix_cons _ _).trans hhandler.suffix)
    exact ⟨hhandler.isIdentifier, hargs.isLiteral hmid⟩

theorem ReadsActions.isProper {actions : List Action} (h : ReadsActions ts actions)
    (hts : AllSound ts) : ∀ a ∈ actions, a.IsProper FitsWord := by
  induction h with
  | nil => exact nofun
  | next ha _ ih =>
    exact List.forall_mem_cons.mpr ⟨ha.isProper hts, ih (hts.of_suffix ha.suffix)⟩
  | comma ha _ ih =>
    have hmid := (List.suffix_cons _ _).trans ha.suffix
    exact List.forall_mem_cons.mpr ⟨ha.isProper hts, ih (hts.of_suffix hmid)⟩

theorem ReadsEntity.ne_empty {entity : String} (h : ReadsEntity ts entity rest)
    (hts : AllSound ts) : entity ≠ "" := by
  cases h with
  | word =>
    rintro rfl
    have hword : Token.isWord "" = true := hts.head
    exact absurd hword (by decide)
  | str hs => exact hs

theorem Event.sorted_sorted (events : List Event) :
    Event.sorted (Event.sorted events) = Event.sorted events := by
  refine List.filter_congr fun e _ => ?_
  rw [Bool.eq_iff_iff, List.contains_iff_mem, List.contains_iff_mem, Event.mem_sorted]

theorem Event.sorted_cons_ne_nil (e : Event) (events : List Event) :
    Event.sorted (e :: events) ≠ [] :=
  List.ne_nil_of_mem (Event.mem_sorted.mpr List.mem_cons_self)

/-- A rule that reading can give where all patterns are of a kind. -/
structure IsRead (kind : Pattern → Prop) (rule : Rule) : Prop where
  entity : rule.entity ≠ ""
  events : rule.events ≠ []
  sorted : Event.sorted rule.events = rule.events
  condition : ∀ clauses ∈ rule.condition, clauses ≠ [] ∧ ∀ c ∈ clauses, c.IsRead kind
  actions : ∀ a ∈ rule.actions, a.IsProper FitsWord

theorem IsRead.isProper {rule : Rule} (h : rule.IsRead Pattern.IsSlashed) :
    rule.IsProper FitsWord where
  entity := h.entity
  events := h.events
  sorted := h.sorted
  condition clauses hc :=
    ⟨(h.condition clauses hc).1, fun c hmem => ((h.condition clauses hc).2 c hmem).isProper⟩
  actions := h.actions

variable {kind : Pattern → Prop}

/-- A rule that reading can give is proper if its patterns can stand between slashes. -/
theorem IsRead.isProper_of_patterns {rule : Rule} (h : rule.IsRead kind)
    (hp : ∀ p ∈ rule.patterns, p.IsSlashed) : rule.IsProper FitsWord := by
  refine IsRead.isProper ⟨h.entity, h.events, h.sorted, fun clauses hc => ?_, h.actions⟩
  obtain ⟨hne, hclauses⟩ := h.condition clauses hc
  refine ⟨hne, fun c hmem => ?_⟩
  have hread := hclauses c hmem
  cases c with
  | fits field p negated =>
    refine ⟨hread.1, hp p ?_⟩
    rw [patterns, Option.mem_def.mp hc]
    exact List.mem_filterMap.mpr ⟨.fits field p negated, hmem, rfl⟩
  | compare left op right | present field negated | contains field needle negated => exact hread

/-- What is read as a rule is proper but for its patterns, which are of the kind that is read. -/
theorem ReadsRule.isRead {rule : Rule} (h : ReadsRule ts rule) (hts : AllSound ts)
    (hk : ReadsPatterns kind ts) : rule.IsRead kind := by
  cases h with
  | @mk us _ afterEvents afterEntity body _ _ _ _ _ he hevents hentity hcondition hactions =>
    have hafter : afterEvents <:+ .word "IF" :: us :=
      (hevents.suffix.trans he.suffix).trans (List.suffix_cons _ _)
    have hlast : afterEntity <:+ .word "IF" :: us := hentity.suffix.trans hafter
    have hbody : body <:+ .word "IF" :: us :=
      ((List.suffix_cons _ _).trans hcondition.suffix).trans hlast
    exact {
      entity := hentity.ne_empty (hts.of_suffix hafter)
      events := Event.sorted_cons_ne_nil _ _
      sorted := Event.sorted_sorted _
      condition := hcondition.isRead (hts.of_suffix hlast) (hk.of_suffix hlast)
      actions := hactions.isProper (hts.of_suffix hbody) }

/-- The tokens of a statement stand together in the text. -/
theorem infix_of_mem_statementsFrom {current placed : List Placed} {st : List Placed}
    (h : st ∈ statementsFrom current placed) : st <:+: current.reverse ++ placed := by
  -- What was collected so far stands, turned around, in front of what is left.
  induction placed generalizing current with
  | nil =>
    rw [statementsFrom] at h
    split at h
    · cases h
    · obtain rfl := List.mem_singleton.mp h
      exact (List.prefix_append _ _).isInfix
  | cons p placed ih =>
    have hall : current.reverse ++ p :: placed = (p :: current).reverse ++ placed := by simp
    have hfirst : current.reverse <:+: current.reverse ++ p :: placed :=
      (List.prefix_append _ _).isInfix
    have hmore {us : List Placed} (hus : us <:+ p :: placed) (hst : st <:+: us) :
        st <:+: current.reverse ++ p :: placed :=
      (hst.trans hus.isInfix).trans (List.suffix_append _ _).isInfix
    rw [statementsFrom] at h
    split at h
    · split at h
      · exact hmore (List.suffix_cons _ _) (ih h)
      · rcases List.mem_cons.mp h with rfl | h
        · exact hfirst
        · exact hmore (List.suffix_cons _ _) (ih h)
    split at h
    · rcases List.mem_cons.mp h with rfl | h
      · exact hfirst
      · exact hmore (List.suffix_refl _) (ih h)
    · rw [hall]
      exact ih h

theorem mem_ofStatements {source : List Char} {sts : List (List Placed)} {rules : List Rule}
    (h : ofStatements source sts = .ok rules) {rule : Rule} (hr : rule ∈ rules) :
    ∃ st ∈ sts, ofStatement source st = .ok rule := by
  induction sts generalizing rules with
  | nil =>
    obtain rfl := Except.ok.inj h
    cases hr
  | cons st sts ih =>
    rw [ofStatements] at h
    split at h
    · cases h
    · rename_i first hfirst
      split at h
      · rename_i others hothers
        obtain rfl := Except.ok.inj h
        rcases List.mem_cons.mp hr with rfl | hr
        · exact ⟨st, List.mem_cons_self, hfirst⟩
        · obtain ⟨st', hst', heq⟩ := ih hothers hr
          exact ⟨st', List.mem_cons_of_mem st hst', heq⟩
      · cases h

/-- Each rule of a text that compiles is read of tokens that stand together in the text. -/
theorem readsRule_of_compile {source : String} {rules : List Rule} (h : compile source = .ok rules)
    {rule : Rule} (hr : rule ∈ rules) :
    ∃ placed ts, Token.tokenize source.toList = .ok placed ∧
      ts <:+: placed.map Placed.token ∧ ReadsRule ts rule := by
  cases hplaced : Token.tokenize source.toList with
  | error e =>
    rw [compile, hplaced] at h
    cases h
  | ok placed =>
    rw [compile, hplaced] at h
    obtain ⟨st, hst, hread⟩ := mem_ofStatements h hr
    refine ⟨placed, st.map Placed.token, rfl, (infix_of_mem_statementsFrom hst).map _, ?_⟩
    rw [ofStatement] at hread
    split at hread
    · rename_i read hstatement
      obtain rfl := Except.ok.inj hread
      exact readsRule_of_statement hstatement
    · cases hread

/-- The rules of a text that compiles are proper but for their patterns, which are of the kind that
is read. -/
theorem compile_read {source : String} {rules : List Rule} (h : compile source = .ok rules)
    (ht : Token.tokens false source.toList = .ok ts) (hk : ReadsPatterns kind ts) :
    ∀ r ∈ rules, r.IsRead kind := by
  have hsound : AllSound ts := Token.isSound_of_tokens ht
  intro r hr
  obtain ⟨placed, us, hplaced, hpart, hrule⟩ := readsRule_of_compile h hr
  obtain rfl := Except.ok.inj ((tokens_of_tokenize hplaced).symm.trans ht)
  exact hrule.isRead (fun t ht => hsound t (hpart.subset ht)) (hk.of_part hpart)

/-- The rules of a text that compiles are proper, if its patterns stand between slashes. -/
theorem compile_sound {source : String} {rules : List Rule} (h : compile source = .ok rules)
    (ht : Token.tokens false source.toList = .ok ts) (hw : WritesSlashes ts) :
    ∀ r ∈ rules, r.IsProper FitsWord :=
  fun r hr => (compile_read h ht (hw.readsPatterns (Token.isSound_of_tokens ht)) r hr).isProper

end Bylaw.Rule
