import Bylaw.Proofs.Rule.Canonical
import Bylaw.Proofs.Token.Soundness
import Bylaw.Proofs.Rule.Term

/-! Reading the canonical tokens of literals, operands and expressions. Main statement: an
expression is what is read of its own tokens, whatever follows that cannot continue it. -/

namespace Bylaw.Rule

open Token (numberTokens isWritable)

variable {rest : List Token}

theorem int64?_of_lt {i : WordInt} (h : i.val < 0x8000000000000000) :
    (Number.int i).int64? = some i.val := by
  rw [Number.int64?, if_pos h]

theorem int64?_ofNat {n : Nat} (h : n < 0x8000000000000000) :
    (Number.ofNat n).int64? = some (n : Int) := by
  obtain ⟨i, hi, hval⟩ := Token.ofNat_eq h
  have hlt : i.val < 0x8000000000000000 := by omega
  rw [hi, int64?_of_lt hlt, hval]

theorem ofInt_val (i : WordInt) : Number.ofInt i.val = .int i := by
  obtain ⟨v, hlower, hupper⟩ := i
  have hv : -0x8000000000000000 ≤ v ∧ v < 0x10000000000000000 := ⟨hlower, hupper⟩
  rw [Number.ofInt, dif_pos hv]

theorem negate_of_int64? {n : Number} {days : Int} (h : n.int64? = some days) :
    negate n = .ofInt (-days) := by
  simp only [negate, h]

theorem negate_ofNat {i : WordInt} (hi : i.val < 0) (h : i.val.natAbs < 0x8000000000000000) :
    negate (.ofNat i.val.natAbs) = .int i := by
  have hval : -((i.val.natAbs : Nat) : Int) = i.val := by omega
  rw [negate_of_int64? (int64?_ofNat h), hval, ofInt_val]

theorem isSigned_of_head {c : Char} {cs : List Char} {n : Number} (h : n.text = c :: cs)
    (hc : c.isDigit = true) : n.isSigned = false := by
  rw [Number.isSigned, h]
  simp [Token.ne_of_isDigit hc (d := '-') rfl]

/-- A number is written as itself, or with a sign before a number that it negates. -/
theorem numberTokens_cases {n : Number} (hn : isWritable n) :
    (n.isSigned = false ∧ numberTokens n = [.number n]) ∨
      (n.isSigned = true ∧ ∃ m, numberTokens n = [.symbol .minus, .number m] ∧ negate m = n) := by
  cases n with
  | int i =>
    -- A whole number below zero is written with a sign that is a token of its own.
    by_cases hi : i.val < 0
    · right
      refine ⟨?_, .ofNat i.val.natAbs, if_pos hi, negate_ofNat hi hn⟩
      simp [Number.isSigned, Number.text, Number.intText, hi]
    · left
      have hval : ((i.val.natAbs : Nat) : Int) = i.val := by omega
      have hvalue : Number.ofNat i.val.natAbs = .int i := by
        rw [Number.ofNat, hval, ofInt_val]
      refine ⟨?_, ?_⟩
      · cases hd : Decimal.digitChars i.val.natAbs with
        | nil => exact absurd hd (Decimal.digitChars_ne_nil _)
        | cons c cs =>
          have htext : (Number.int i).text = c :: cs := by
            simp [Number.text, Number.intText, hi, hd]
          apply isSigned_of_head htext
          exact Decimal.isDigit_of_mem_digitChars (hd ▸ List.mem_cons_self)
      · rw [numberTokens, if_neg hi, hvalue]
  | real x =>
    obtain ⟨whole, fraction, htext, hw, -, hdigits, -⟩ := x.text_isNumeral hn
    obtain ⟨negative, rank, finite⟩ := x
    cases negative with
    | true =>
      right
      exact ⟨by simp [Number.isSigned, Number.text, htext], _, rfl, rfl⟩
    | false =>
      left
      refine ⟨?_, rfl⟩
      cases whole with
      | nil => exact absurd rfl hw
      | cons c cs => exact isSigned_of_head (n := .real _) htext (hdigits c (by simp))

theorem literal?_tokens {v : Json} (hv : v.IsLiteral isWritable) :
    ∃ h, literal? (v.tokens ++ rest) = some ⟨v, rest, h⟩ := by
  match v, hv with
  | .null, _ => exact ⟨_, rfl⟩
  | .bool true, _ => exact ⟨_, rfl⟩
  | .bool false, _ => exact ⟨_, rfl⟩
  | .str s, _ => exact ⟨_, rfl⟩
  | .num n, hv =>
    rw [Json.tokens]
    obtain ⟨-, htokens⟩ | ⟨-, m, htokens, rfl⟩ := numberTokens_cases hv
    · rw [htokens]
      exact ⟨_, rfl⟩
    · rw [htokens]
      exact ⟨_, rfl⟩

theorem literal?_word {w : String} (h : literalWord? w = none) :
    literal? (.word w :: rest) = none := by
  simp [literal?, h]

theorem todayTokens_cons (offset : Int) :
    ∃ more, todayTokens offset = .word "current_date" :: more := by
  unfold todayTokens
  split
  · exact ⟨_, rfl⟩
  · split <;> exact ⟨_, rfl⟩

/-- The offset of today's date is what is read of its tokens. -/
theorem todayTokens_eq {offset : Int} (ho : IsOffset offset)
    (hrest : offset = 0 → NoOffset rest) :
    ∃ more, todayTokens offset = .word "current_date" :: more ∧
      Trails (todayOffset (more ++ rest)) offset rest := by
  unfold todayTokens
  split
  · rename_i hzero
    subst hzero
    exact ⟨[], rfl, trails_todayOffset_of_noOffset (hrest rfl)⟩
  · have hdays := int64?_ofNat ho
    split
    · rename_i hneg
      refine ⟨_, rfl, ?_⟩
      have h := trails_todayOffset_sign rest (.inr rfl) hdays
      have hval : -((offset.natAbs : Nat) : Int) = offset := by omega
      rwa [if_pos rfl, hval] at h
    · rename_i hpos
      refine ⟨_, rfl, ?_⟩
      have h := trails_todayOffset_sign rest (.inl rfl) hdays
      have hval : ((offset.natAbs : Nat) : Int) = offset := by omega
      rwa [if_neg (by decide), hval] at h

theorem operandAt_tokens {x : Operand} (hx : x.IsProper isWritable) (hrest : NoOffset rest) :
    operandAt (x.tokens ++ rest) = .ok (x, rest) := by
  cases x with
  | literal v =>
    obtain ⟨h, hv⟩ : ∃ h, literal? (v.tokens ++ rest) = some ⟨v, rest, h⟩ := literal?_tokens hx
    simp only [Operand.tokens, operandAt, hv]
  | field path =>
    have hpath : path.IsOperand := hx
    simp [Operand.tokens, operandAt, literal?_word hpath.notLiteral, hpath.notToday,
      hpath.notKeyword, hpath.reads]
  | today offset =>
    obtain ⟨more, htokens, h, hoffset⟩ := todayTokens_eq hx fun _ => hrest
    have hliteral : literal? (.word "current_date" :: (more ++ rest)) = none := literal?_word rfl
    have htoday : isToday "current_date" = true := rfl
    show operandAt (todayTokens offset ++ rest) = _
    rw [htokens, List.cons_append]
    simp only [operandAt, hliteral, htoday, if_true, hoffset]
    rfl

/-- Whether tokens cannot continue an expression. -/
def EndsExpr (ts : List Token) : Prop :=
  ∀ t ∈ ts.head?, sumOp? t = none ∧ productOp? t = none ∧ t ≠ .symbol .openParen

theorem endsExpr_nil : EndsExpr [] := by
  intro t h
  cases h

theorem endsExpr_cons {t : Token} (ts : List Token) (hs : sumOp? t = none)
    (hp : productOp? t = none) (ho : t ≠ .symbol .openParen) : EndsExpr (t :: ts) := by
  intro u hu
  obtain rfl := Option.some.inj hu
  exact ⟨hs, hp, ho⟩

theorem EndsExpr.noOffset (h : EndsExpr rest) : NoOffset rest := by
  rintro s n more rfl
  have hs := (h (.symbol s) rfl).1
  constructor
  · rintro rfl
    cases hs
  · rintro rfl
    cases hs

theorem EndsExpr.ne_openParen (h : EndsExpr rest) : rest.head? ≠ some (.symbol .openParen) := by
  intro hhead
  exact (h _ hhead).2.2 rfl

theorem EndsExpr.sumTail (h : EndsExpr rest) (e : Expr) : Trails (sumTail e rest) e rest := by
  cases rest with
  | nil => exact trails_sumTail_nil.mpr ⟨rfl, rfl⟩
  | cons t more => exact trails_sumTail_cons.mpr (.inl ⟨(h t rfl).1, rfl, rfl⟩)

theorem EndsExpr.productTail (h : EndsExpr rest) (e : Expr) :
    Trails (productTail e rest) e rest := by
  cases rest with
  | nil => exact trails_productTail_nil.mpr ⟨rfl, rfl⟩
  | cons t more => exact trails_productTail_cons.mpr (.inl ⟨(h t rfl).2.1, rfl, rfl⟩)

theorem EndsExpr.sum {ts : List Token} {e : Expr} (h : EndsExpr rest)
    (hf : Yields (factor ts) e rest) : Yields (sum ts) e rest :=
  yields_sum.mpr ⟨e, rest, yields_product.mpr ⟨e, rest, hf, h.productTail e⟩, h.sumTail e⟩

theorem EndsExpr.binary {ts mid : List Token} {op : ArithOp} {left right : Expr}
    (h : EndsExpr rest) (hl : Yields (factor ts) left (.symbol op.symbol :: mid))
    (hr : Yields (factor mid) right rest) : Yields (Rule.sum ts) (.binary op left right) rest := by
  have hsum (hs : sumOp? (.symbol op.symbol) = some op)
      (hp : productOp? (.symbol op.symbol) = none) :
      Yields (Rule.sum ts) (.binary op left right) rest := by
    have hright := yields_product.mpr ⟨right, rest, hr, h.productTail right⟩
    have hleft := yields_product.mpr
      ⟨left, _, hl, trails_productTail_cons.mpr (.inl ⟨hp, rfl, rfl⟩)⟩
    refine yields_sum.mpr ⟨left, _, hleft, ?_⟩
    exact trails_sumTail_cons.mpr (.inr ⟨op, right, rest, hs, hright, h.sumTail _⟩)
  have hproduct (hp : productOp? (.symbol op.symbol) = some op) :
      Yields (Rule.sum ts) (.binary op left right) rest := by
    have htail := trails_productTail_cons.mpr
      (.inr ⟨op, right, rest, hp, hr, h.productTail (.binary op left right)⟩)
    exact yields_sum.mpr ⟨_, rest, yields_product.mpr ⟨left, _, hl, htail⟩, h.sumTail _⟩
  cases op with
  | add | sub => exact hsum rfl rfl
  | mul | div => exact hproduct rfl

/-- The two ways in which an expression is read of its tokens: as a sum, and as an operand of
arithmetic, which today's date is only if no offset follows. -/
structure Rereads (e : Expr) : Prop where
  sum : ∀ rest, EndsExpr rest → Yields (Rule.sum (e.tokens ++ rest)) e rest
  factor : ∀ rest, rest.head? ≠ some (.symbol .openParen) → (e = .today 0 → NoOffset rest) →
    Yields (Rule.factor (Expr.parenthesizedTokens e.isCompound e.tokens ++ rest)) e rest

theorem Rereads.of_factor {e : Expr} (hc : e.isCompound = false)
    (h : ∀ rest, rest.head? ≠ some (.symbol .openParen) → (e = .today 0 → NoOffset rest) →
      Yields (Rule.factor (e.tokens ++ rest)) e rest) : Rereads e := by
  constructor
  · intro rest hrest
    exact hrest.sum (h rest hrest.ne_openParen fun _ => hrest.noOffset)
  · rw [hc]
    exact h

theorem Rereads.of_sum {e : Expr} (hc : e.isCompound = true)
    (h : ∀ rest, EndsExpr rest → Yields (Rule.sum (e.tokens ++ rest)) e rest) : Rereads e := by
  refine ⟨h, fun rest _ _ => ?_⟩
  have htokens : Expr.parenthesizedTokens true e.tokens ++ rest =
      .symbol .openParen :: (e.tokens ++ .symbol .closeParen :: rest) := by
    simp [Expr.parenthesizedTokens]
  rw [hc, htokens]
  exact yields_factor_openParen.mpr (h _ (endsExpr_cons _ rfl rfl (by decide)))

theorem rereads_literal {v : Json} (hv : v.IsLiteral isWritable) (hs : v.isString = false) :
    Rereads (.literal v) := by
  refine Rereads.of_factor rfl fun rest _ _ => ?_
  rw [Expr.tokens]
  match v, hv with
  | .null, _ => exact (yields_factor_literal rfl).mpr ⟨rfl, rfl⟩
  | .bool true, _ => exact (yields_factor_literal rfl).mpr ⟨rfl, rfl⟩
  | .bool false, _ => exact (yields_factor_literal rfl).mpr ⟨rfl, rfl⟩
  | .num n, hv =>
    rw [Json.tokens]
    obtain ⟨-, htokens⟩ | ⟨-, m, htokens, rfl⟩ := numberTokens_cases hv
    · rw [htokens]
      exact yields_factor_number.mpr ⟨rfl, rfl⟩
    · rw [htokens]
      exact yields_factor_minus_number.mpr ⟨rfl, rfl⟩

theorem rereads_template {t : Template} (ht : Template.read t.source = .ok t) :
    Rereads (.template t) :=
  Rereads.of_factor rfl fun _ _ _ => yields_factor_str.mpr ⟨t, ht, rfl, rfl⟩

theorem rereads_field {path : FieldPath} (hp : path.IsOperand) : Rereads (.field path) := by
  refine Rereads.of_factor rfl fun rest hrest _ => ?_
  exact (yields_factor_field hp.notLiteral hp.notToday hp.notKeyword hrest).mpr
    ⟨path, hp.reads, rfl, rfl⟩

theorem rereads_today {offset : Int} (ho : IsOffset offset) : Rereads (.today offset) := by
  have hfactor (rest : List Token) (hrest : offset = 0 → NoOffset rest) :
      Yields (factor ((Expr.today offset).tokens ++ rest)) (.today offset) rest := by
    obtain ⟨more, htokens, h⟩ := todayTokens_eq ho hrest
    rw [Expr.tokens, htokens]
    exact (yields_factor_today rfl rfl).mpr ⟨offset, h, rfl⟩
  by_cases hzero : offset = 0
  · refine Rereads.of_factor (by simp [Expr.isCompound, hzero]) fun rest _ hrest => ?_
    exact hfactor rest fun _ => hrest (by rw [hzero])
  · refine Rereads.of_sum (by simp [Expr.isCompound, hzero]) fun rest hrest => ?_
    exact hrest.sum (hfactor rest fun h => absurd h hzero)

/-- An operand of arithmetic begins with a number only if it is one, without a sign. -/
theorem number_of_head {e : Expr} (he : e.IsProper isWritable) {rest more : List Token}
    {n : Number}
    (h : Expr.parenthesizedTokens e.isCompound e.tokens ++ rest = .number n :: more) :
    ∃ m, e = .literal (.num m) ∧ m.isSigned = false := by
  cases e with
  -- Only a literal can begin with a number, and one with a sign begins with the sign.
  | literal v =>
    obtain ⟨hv, -⟩ := he
    match v, hv with
    | .null, _ | .bool true, _ | .bool false, _ | .str s, _ => cases h
    | .num m, hv =>
      refine ⟨m, rfl, ?_⟩
      obtain ⟨hm, -⟩ | ⟨-, m', htokens, -⟩ := numberTokens_cases hv
      · exact hm
      · have hfirst : numberTokens m ++ rest = .number n :: more := h
        rw [htokens] at hfirst
        cases hfirst
  | template t => cases h
  | field path => cases h
  | today offset =>
    obtain ⟨ts, htokens⟩ := todayTokens_cons offset
    rw [Expr.tokens, htokens] at h
    cases hc : (Expr.today offset).isCompound with
    | true =>
      rw [hc] at h
      cases h
    | false =>
      rw [hc] at h
      cases h
  | binary op left right => cases h
  | call handler args => cases h

theorem yields_arguments_tokens {args : List Expr} (hne : args ≠ [])
    (h : ∀ e ∈ args, Rereads e) :
    Yields (arguments ([.symbol .comma].intercalate (args.map Expr.tokens) ++
      .symbol .closeParen :: rest)) args rest := by
  induction args with
  | nil => exact absurd rfl hne
  | cons e args ih =>
    have he := (h e List.mem_cons_self).sum
    cases args with
    | nil =>
      have hlast := he (.symbol .closeParen :: rest) (endsExpr_cons _ rfl rfl (by decide))
      rw [List.map_cons, List.map_nil, List.intercalate_singleton]
      exact yields_arguments.mpr ⟨e, _, hlast, .inr ⟨rfl, rfl⟩⟩
    | cons f args =>
      have hothers := ih (List.cons_ne_nil f args) fun g hg => h g (List.mem_cons_of_mem e hg)
      rw [List.map_cons, List.map_cons, List.intercalate_cons_cons, List.append_assoc,
        List.append_assoc]
      exact yields_arguments.mpr ⟨e, _, he _ (endsExpr_cons _ rfl rfl (by decide)),
        .inl ⟨f :: args, _, rfl, hothers, rfl⟩⟩

theorem handlerName?_call {handler : String} (h : isIdentifier handler = true) :
    handlerName? ("action." ++ handler) = some handler := by
  have hname : ("action." ++ handler).toList =
      'a' :: 'c' :: 't' :: 'i' :: 'o' :: 'n' :: '.' :: handler.toList := by simp
  simp [handlerName?, hname, h]

theorem isKeyword_call (handler : String) : isKeyword ("action." ++ handler) = false := by
  have hcapital : ∀ k ∈ keywords, k.toList.head? ≠ some 'a' := by decide
  cases hk : isKeyword ("action." ++ handler) with
  | false => rfl
  | true =>
    have hmem : "action." ++ handler ∈ keywords := by simpa [isKeyword] using hk
    exact absurd (by simp) (hcapital _ hmem)

theorem head?_of_arguments {ts : List Token} {args : List Expr}
    (h : Yields (arguments ts) args rest) : ts.head? ≠ some (.symbol .closeParen) := by
  intro hhead
  obtain ⟨more, rfl⟩ := List.head?_eq_some_iff.mp hhead
  obtain ⟨first, mid, hfirst, -⟩ := yields_arguments.mp h
  obtain ⟨_, _, hproduct, -⟩ := yields_sum.mp hfirst
  obtain ⟨_, _, hfactor, -⟩ := yields_product.mp hproduct
  exact not_yields_factor_symbol (by decide) (by decide) hfactor

theorem tokens_call (handler : String) (args : List Expr) (rest : List Token) :
    (Expr.call handler args).tokens ++ rest =
      .word ("action." ++ handler) :: .symbol .openParen ::
        ([.symbol .comma].intercalate (args.map Expr.tokens) ++ .symbol .closeParen :: rest) := by
  simp [Expr.tokens, Expr.tokensOfArgs_eq]

/-- The call of a handler by its canonical name. -/
theorem yields_factor_action {handler : String} (h : isIdentifier handler = true)
    {ts : List Token} {e : Expr} :
    Yields (factor (.word ("action." ++ handler) :: .symbol .openParen :: ts)) e rest ↔
      (ts = .symbol .closeParen :: rest ∧ e = .call handler []) ∨
        ∃ args, Yields (arguments ts) args rest ∧ e = .call handler args := by
  have hliteral : literalWord? ("action." ++ handler) = none := by
    simp [literalWord?]
  have htoday : isToday ("action." ++ handler) = false := by
    simp [isToday]
  rw [yields_factor_call hliteral htoday (isKeyword_call handler)]
  constructor
  · rintro ⟨name, hname, hcall⟩
    obtain rfl := Option.some.inj ((handlerName?_call h).symm.trans hname)
    exact hcall.imp id fun hargs => hargs.2
  · rintro (hnone | ⟨args, hargs, he⟩)
    · exact ⟨handler, handlerName?_call h, .inl hnone⟩
    · exact ⟨handler, handlerName?_call h, .inr ⟨head?_of_arguments hargs, args, hargs, he⟩⟩

theorem rereads_call {handler : String} {args : List Expr} (hh : isIdentifier handler = true)
    (h : ∀ e ∈ args, Rereads e) : Rereads (.call handler args) := by
  refine Rereads.of_factor rfl fun rest _ _ => ?_
  rw [tokens_call]
  refine (yields_factor_action hh).mpr ?_
  cases args with
  | nil => exact .inl ⟨rfl, rfl⟩
  | cons e es => exact .inr ⟨e :: es, yields_arguments_tokens (List.cons_ne_nil e es) h, rfl⟩

/-- Today's date with a number after it is no offset of it unless the number has no sign. -/
theorem noOffset_right {op : ArithOp} {right : Expr} (hp : right.IsProper isWritable)
    (ho : (Expr.binary op (.today 0) right).IsOrdinary) :
    NoOffset (.symbol op.symbol ::
      (Expr.parenthesizedTokens right.isCompound right.tokens ++ rest)) := by
  intro s n more heq
  obtain ⟨hsymbol, hhead⟩ := List.cons.inj heq
  obtain ⟨m, rfl, hm⟩ := number_of_head hp hhead
  have hsigned : op = .add ∨ op = .sub → m.isSigned = true := ho
  rw [hm] at hsigned
  obtain rfl : op.symbol = s := by simpa using hsymbol
  cases op with
  | add => exact absurd (hsigned (.inl rfl)) (by decide)
  | sub => exact absurd (hsigned (.inr rfl)) (by decide)
  | mul | div => exact ⟨by decide, by decide⟩

theorem rereads_binary {op : ArithOp} {left right : Expr} (hl : Rereads left) (hr : Rereads right)
    (hp : right.IsProper isWritable) (ho : (Expr.binary op left right).IsOrdinary) :
    Rereads (.binary op left right) := by
  refine Rereads.of_sum rfl fun rest hrest => ?_
  have htokens : (Expr.binary op left right).tokens ++ rest =
      Expr.parenthesizedTokens left.isCompound left.tokens ++ .symbol op.symbol ::
        (Expr.parenthesizedTokens right.isCompound right.tokens ++ rest) := by
    simp [Expr.tokens]
  rw [htokens]
  refine hrest.binary (hl.factor _ ?_ ?_)
    (hr.factor rest hrest.ne_openParen fun _ => hrest.noOffset)
  · cases op <;> simp [ArithOp.symbol]
  · rintro rfl
    exact noOffset_right hp ho

mutual

theorem rereads (e : Expr) (hp : ∀ n ∈ e.nodes, n.IsProper isWritable)
    (ho : ∀ n ∈ e.nodes, n.IsOrdinary) : Rereads e := by
  match e with
  | .literal v =>
    have hv : v.IsLiteral isWritable ∧ v.isString = false := hp (.literal v) (by simp [Expr.nodes])
    exact rereads_literal hv.1 hv.2
  | .template t => exact rereads_template (hp (.template t) (by simp [Expr.nodes]))
  | .field path => exact rereads_field (hp (.field path) (by simp [Expr.nodes]))
  | .today offset => exact rereads_today (hp (.today offset) (by simp [Expr.nodes]))
  | .binary op left right =>
    have hleft := rereads left (fun n hn => hp n (by simp [Expr.nodes, hn]))
      fun n hn => ho n (by simp [Expr.nodes, hn])
    have hright := rereads right (fun n hn => hp n (by simp [Expr.nodes, hn]))
      fun n hn => ho n (by simp [Expr.nodes, hn])
    exact rereads_binary hleft hright (hp right (by simp [Expr.nodes, right.mem_nodes]))
      (ho (.binary op left right) (by simp [Expr.nodes]))
  | .call handler args =>
    have hh : isIdentifier handler = true := hp (.call handler args) (by simp [Expr.nodes])
    exact rereads_call hh (rereads_args args (fun n hn => hp n (by simp [Expr.nodes, hn]))
      fun n hn => ho n (by simp [Expr.nodes, hn]))

theorem rereads_args (es : List Expr) (hp : ∀ n ∈ Expr.nodesOfArgs es, n.IsProper isWritable)
    (ho : ∀ n ∈ Expr.nodesOfArgs es, n.IsOrdinary) : ∀ e ∈ es, Rereads e := by
  match es with
  | [] =>
    intro e h
    cases h
  | x :: es =>
    have hx := rereads x (fun n hn => hp n (by simp [Expr.nodesOfArgs, hn]))
      fun n hn => ho n (by simp [Expr.nodesOfArgs, hn])
    have hes := rereads_args es (fun n hn => hp n (by simp [Expr.nodesOfArgs, hn]))
      fun n hn => ho n (by simp [Expr.nodesOfArgs, hn])
    intro e h
    rcases List.mem_cons.mp h with rfl | h
    · exact hx
    · exact hes e h

end

end Bylaw.Rule
