import Bylaw.Proofs.Rule.Derivation
import Bylaw.Proofs.Template.Source
import Mathlib.Data.List.Chain

/-! What reading can give. Main statement: the values and conditions that are read of the tokens of
a text are proper but for their patterns, and where patterns stand between slashes, these too. -/

namespace Bylaw

open Token (FitsWord IsSound)

/-- Whether a pattern can stand between slashes. -/
def Pattern.IsSlashed (p : Pattern) : Prop := Token.Slashed p.source.toList

/-- A clause that reading can give, with a pattern of a kind if it has one. -/
def Clause.IsRead (kind : Pattern → Prop) : Clause → Prop
  | .fits field p _ => field.IsOperand ∧ kind p
  | c => c.IsProper FitsWord

theorem Clause.IsRead.isProper {c : Clause} (h : c.IsRead Pattern.IsSlashed) :
    c.IsProper FitsWord := by
  cases c <;> exact h

namespace Rule

variable {ts rest : List Token}

/-- Whether all tokens are such as texts have. -/
def AllSound (ts : List Token) : Prop := ∀ t ∈ ts, t.IsSound

theorem AllSound.of_suffix (h : AllSound ts) (hs : rest <:+ ts) : AllSound rest :=
  fun t ht => h t (hs.subset ht)

theorem AllSound.tail {t : Token} (h : AllSound (t :: ts)) : AllSound ts :=
  fun u hu => h u (List.mem_cons_of_mem t hu)

theorem AllSound.head {t : Token} (h : AllSound (t :: ts)) : t.IsSound := h t List.mem_cons_self

theorem fitsWord_ofInt {i : Int} (h : i.natAbs < 0x8000000000000000) : FitsWord (.ofInt i) := by
  intro j hj
  have hi : -0x8000000000000000 ≤ i ∧ i < 0x10000000000000000 := by omega
  rw [Number.ofInt, dif_pos hi] at hj
  rw [← Number.int.inj hj]
  exact h

theorem natAbs_of_int64? {n : Number} (hn : FitsWord n) {days : Int} (h : n.int64? = some days) :
    days.natAbs < 0x8000000000000000 := by
  cases n with
  | int i =>
    rw [Number.int64?] at h
    split at h
    · rw [← Option.some.inj h]
      exact hn i rfl
    · cases h
  | real x => cases h

theorem fitsWord_negate {n : Number} (hn : FitsWord n) : FitsWord (negate n) := by
  unfold negate
  split
  · rename_i i hi
    have := natAbs_of_int64? hn hi
    exact fitsWord_ofInt (by omega)
  · exact Token.fitsWord_real _

theorem text_eq_of_read? {w : String} {path : FieldPath}
    (h : FieldPath.read? w.toList = some path) : path.text = w :=
  String.toList_inj.mp (FieldPath.text_of_read? h)

theorem isTarget_of_read? {w : String} {path : FieldPath} (hw : Token.isWord w = true)
    (hk : isKeyword w = false) (h : FieldPath.read? w.toList = some path) : path.IsTarget := by
  have htext := text_eq_of_read? h
  exact ⟨by rw [htext, hw], by rw [htext, hk], FieldPath.read?_text h⟩

theorem NamesField.isOperand {w : String} {path : FieldPath} (h : NamesField w path)
    (hw : Token.isWord w = true) : path.IsOperand := by
  have htext := text_eq_of_read? h.reads
  exact ⟨isTarget_of_read? hw h.notKeyword h.reads, by rw [htext, h.notLiteral],
    by rw [htext, h.notToday]⟩

theorem ReadsLiteral.isLiteral {v : Json} (h : ReadsLiteral ts v rest) (hts : AllSound ts) :
    v.IsLiteral FitsWord := by
  cases h with
  | number => exact hts.head
  | str => trivial
  | word hv => obtain rfl | rfl | rfl := literalWord?_cases hv <;> trivial
  | negative => exact fitsWord_negate hts.tail.head

theorem ReadsDays.isOffset {offset : Int} (h : ReadsDays ts offset rest) (hts : AllSound ts) :
    IsOffset offset := by
  unfold IsOffset
  cases h with
  | later hn => exact natAbs_of_int64? hts.tail.head hn
  | earlier hn =>
    rw [Int.natAbs_neg]
    exact natAbs_of_int64? hts.tail.head hn
  | none => decide

theorem ReadsOperand.isProper {x : Operand} (h : ReadsOperand ts x rest) (hts : AllSound ts) :
    x.IsProper FitsWord := by
  cases h with
  | literal h => exact h.isLiteral hts
  | today _ h => exact h.isOffset hts.tail
  | field h => exact h.isOperand hts.head

theorem isIdentifier_of_handlerName? {w handler : String} (h : handlerName? w = some handler) :
    isIdentifier handler = true := by
  have hname (name : String)
      (h : (if isIdentifier name then some name else none) = some handler) :
      isIdentifier handler = true := by
    split at h
    · rename_i hi
      rw [← Option.some.inj h, hi]
    · cases h
  exact hname _ h

/-- What reading gives of a tree: every expression in it is proper, and what is left is the end of
the tokens. -/
structure SoundExpr (ts : List Token) (e : Expr) (rest : List Token) : Prop where
  nodes : ∀ n ∈ e.nodes, n.IsProper FitsWord
  suffix : rest <:+ ts

/-- The same of several trees. -/
structure SoundArgs (ts : List Token) (args : List Expr) (rest : List Token) : Prop where
  nodes : ∀ n ∈ Expr.nodesOfArgs args, n.IsProper FitsWord
  suffix : rest <:+ ts

theorem SoundExpr.of_leaf {e : Expr} (hn : e.nodes = [e]) (he : e.IsProper FitsWord)
    (hs : rest <:+ ts) : SoundExpr ts e rest := by
  refine ⟨fun n hmem => ?_, hs⟩
  rw [hn, List.mem_singleton] at hmem
  rw [hmem]
  exact he

theorem SoundExpr.binary {op : ArithOp} {left right : Expr} {mid : List Token}
    (hl : ∀ n ∈ left.nodes, n.IsProper FitsWord) (hr : SoundExpr mid right rest)
    (hs : mid <:+ ts) : SoundExpr ts (.binary op left right) rest := by
  refine ⟨fun n hn => ?_, hr.suffix.trans hs⟩
  rw [Expr.nodes, List.mem_cons, List.mem_append] at hn
  rcases hn with rfl | hn | hn
  · exact trivial
  · exact hl n hn
  · exact hr.nodes n hn

theorem SoundExpr.call {handler : String} {args : List Expr} (hh : isIdentifier handler = true)
    (h : SoundArgs ts args rest) : SoundExpr ts (.call handler args) rest := by
  refine ⟨fun n hn => ?_, h.suffix⟩
  rw [Expr.nodes, List.mem_cons] at hn
  rcases hn with rfl | hn
  · exact hh
  · exact h.nodes n hn

/-- What reading gives of a part of an expression. -/
def Phrase.IsSound (ts rest : List Token) : Phrase → Prop
  | .sum e | .product e | .factor e => SoundExpr ts e rest
  | .arguments args => SoundArgs ts args rest

theorem ReadsPhrase.isSound {p : Phrase} (h : ReadsPhrase ts p rest) (hts : AllSound ts) :
    p.IsSound ts rest := by
  -- By induction on the derivation; each node is sound for the token that it is read of.
  induction h with
  | sum _ ih | product _ ih => exact ih hts
  | sumTail hl _ _ ihl ihr | productTail hl _ _ ihl ihr =>
    have hmid := (List.suffix_cons _ _).trans hl.suffix
    exact .binary (ihl hts).nodes (ihr (hts.of_suffix hmid)) hmid
  | literal h hv => exact .of_leaf rfl ⟨h.isLiteral hts, hv⟩ h.suffix
  | template ht => exact .of_leaf rfl (Template.read_source ht) (List.suffix_cons _ _)
  | today _ h =>
    exact .of_leaf rfl (h.isOffset hts.tail) (h.suffix.trans (List.suffix_cons _ _))
  | field h => exact .of_leaf rfl (h.isOperand hts.head) (List.suffix_cons _ _)
  | minus _ ih =>
    refine .binary (fun n hn => ?_) (ih hts.tail) (List.suffix_cons _ _)
    rw [List.mem_singleton.mp hn]
    exact ⟨Token.fitsWord_ofNat (by decide), rfl⟩
  | enclosed h ih =>
    exact ⟨(ih hts.tail).nodes, (ReadsPhrase.enclosed h).suffix⟩
  | callEmpty hk hh rest =>
    exact .of_leaf rfl (isIdentifier_of_handlerName? hh) (ReadsPhrase.callEmpty hk hh rest).suffix
  | call hk hh h ih =>
    exact .call (isIdentifier_of_handlerName? hh)
      ⟨(ih hts.tail.tail).nodes, (ReadsPhrase.call hk hh h).suffix⟩
  | lastArgument h ih =>
    refine ⟨fun n hn => (ih hts).nodes n ?_, (ReadsPhrase.lastArgument h).suffix⟩
    rwa [Expr.nodesOfArgs, Expr.nodesOfArgs, List.append_nil] at hn
  | argument h hmore ih ihmore =>
    refine ⟨fun n hn => ?_, (ReadsPhrase.argument h hmore).suffix⟩
    rw [Expr.nodesOfArgs, List.mem_append] at hn
    rcases hn with hn | hn
    · exact (ih hts).nodes n hn
    · exact (ihmore (hts.of_suffix ((List.suffix_cons _ _).trans h.suffix))).nodes n hn

theorem sum_sound (ts : List Token) (hts : AllSound ts) {e : Expr} {rest : List Token}
    (h : Yields (sum ts) e rest) : SoundExpr ts e rest :=
  (readsPhrase_of_sum ts h).isSound hts

/-- Whether a pattern between slashes is what follows the word `MATCHES`, wherever something follows
it. -/
def WritesSlashes (ts : List Token) : Prop :=
  ts.IsChain fun t u => t = .word "MATCHES" → u.isPattern = true

instance (ts : List Token) : Decidable (WritesSlashes ts) :=
  inferInstanceAs (Decidable (ts.IsChain fun t u => t = .word "MATCHES" → u.isPattern = true))

theorem WritesSlashes.of_part (h : WritesSlashes ts) (hs : rest <:+: ts) : WritesSlashes rest :=
  List.IsChain.infix h hs

/-- Whether all patterns that are read after the word `MATCHES` are of a kind. -/
def ReadsPatterns (kind : Pattern → Prop) (ts : List Token) : Prop :=
  ∀ us p rest, .word "MATCHES" :: us <:+: ts →
    patternAt (.word "MATCHES") us = .ok (p, rest) → kind p

section

variable {kind : Pattern → Prop}

theorem ReadsPatterns.of_part (h : ReadsPatterns kind ts) (hs : rest <:+: ts) :
    ReadsPatterns kind rest :=
  fun us p more hus => h us p more (hus.trans hs)

theorem ReadsPatterns.of_suffix (h : ReadsPatterns kind ts) (hs : rest <:+ ts) :
    ReadsPatterns kind rest :=
  h.of_part hs.isInfix

/-- Where patterns stand between slashes, all can. -/
theorem WritesSlashes.readsPatterns (hw : WritesSlashes ts) (hts : AllSound ts) :
    ReadsPatterns Pattern.IsSlashed ts := by
  intro us p rest hus h
  obtain ⟨t, ht, hfirst⟩ := patternAt_cases h
  have hnext {u : Token} {more : List Token} (hmore : us = u :: more) : u.isPattern = true :=
    (List.isChain_cons_cons.mp (hw.of_part (hmore ▸ hus))).1 rfl
  rcases hfirst with hfirst | hfirst
  · have hpattern := hnext hfirst
    rcases ht with rfl | rfl
    · exact hts (.pattern p.source) (hus.subset (by simp [hfirst]))
    · cases hpattern
  · cases hnext hfirst

/-- What is read as a clause is proper but for its pattern, which is of the kind that is read. -/
theorem ReadsClause.isRead {c : Clause} (h : ReadsClause ts c rest) (hts : AllSound ts)
    (hk : ReadsPatterns kind ts) : c.IsRead kind := by
  cases h with
  | compare hl _ hr =>
    have hmid := (List.suffix_cons _ _).trans hl.suffix
    exact ⟨hl.isProper hts, hr.isProper (hts.of_suffix hmid)⟩
  | present hf => exact hf.isProper hts
  | fits hf hp => exact ⟨hf.isProper hts, hk _ _ _ (readsOperand_test hf).isInfix hp⟩
  | contains hf hn =>
    exact ⟨hf.isProper hts, hn.isProper (hts.of_suffix (readsOperand_test hf)).tail⟩

theorem ReadsClauses.isRead {clauses : List Clause} (h : ReadsClauses ts clauses rest)
    (hts : AllSound ts) (hk : ReadsPatterns kind ts) : ∀ c ∈ clauses, c.IsRead kind := by
  induction h with
  | nil => exact nofun
  | cons hc _ ih =>
    have hclause := hk.of_suffix (List.suffix_cons _ _)
    exact List.forall_mem_cons.mpr ⟨hc.isRead hts.tail hclause,
      ih (hts.tail.of_suffix hc.suffix) (hclause.of_suffix hc.suffix)⟩

theorem ReadsCondition.isRead {condition : Option (List Clause)}
    (h : ReadsCondition ts condition rest) (hts : AllSound ts) (hk : ReadsPatterns kind ts) :
    ∀ clauses ∈ condition, clauses ≠ [] ∧ ∀ c ∈ clauses, c.IsRead kind := by
  cases h with
  | none => exact nofun
  | some hc hmore =>
    rintro _ ⟨⟩
    have hclause := hk.of_suffix (List.suffix_cons _ _)
    exact ⟨List.cons_ne_nil _ _, List.forall_mem_cons.mpr ⟨hc.isRead hts.tail hclause,
      hmore.isRead (hts.tail.of_suffix hc.suffix) (hclause.of_suffix hc.suffix)⟩⟩

end

end Rule

end Bylaw
