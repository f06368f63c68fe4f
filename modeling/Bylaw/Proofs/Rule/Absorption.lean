import Bylaw.Proofs.Rule.RoundTrip

/-! Today's date with a number after it. Printed as the operands of a sum or a difference, the two
are read as one date. Main statement: what is read of the text of an expression is the expression
in which each such pair has become a date, so it is the expression itself if and only if it has no
such pair. -/

namespace Bylaw

namespace Expr

/-- The number that is taken for an offset of today's date, if two operands are printed so. -/
def absorbed? (op : ArithOp) : Expr → Expr → Option Number
  | .today 0, .literal (.num n) =>
    if (op = .add ∨ op = .sub) ∧ n.isSigned = false then some n else none
  | _, _ => none

/-- Today's date with a number of days added or taken away. -/
def shifted (op : ArithOp) (n : Number) : Expr :=
  let days := n.int64?.getD 0
  .today (if op = .sub then -days else days)

mutual

/-- An expression with each number that is absorbed put into the date before it. -/
def merged : Expr → Expr
  | .binary op left right =>
    match absorbed? op left right with
    | some n => shifted op n
    | none => .binary op (merged left) (merged right)
  | .call handler args => .call handler (mergedArgs args)
  | .literal v => .literal v
  | .template t => .template t
  | .field path => .field path
  | .today offset => .today offset

def mergedArgs : List Expr → List Expr
  | [] => []
  | e :: es => merged e :: mergedArgs es

end

theorem nodesOfArgs_eq (es : List Expr) : nodesOfArgs es = es.flatMap nodes := by
  induction es with
  | nil => rfl
  | cons e es ih => rw [nodesOfArgs, ih, List.flatMap_cons]

theorem absorbed?_eq_some_iff {op : ArithOp} {left right : Expr} {n : Number} :
    absorbed? op left right = some n ↔ left = .today 0 ∧ right = .literal (.num n) ∧
      (op = .add ∨ op = .sub) ∧ n.isSigned = false := by
  constructor
  · intro h
    unfold absorbed? at h
    split at h
    · split at h
      · rename_i hop
        obtain rfl := Option.some.inj h
        exact ⟨rfl, rfl, hop⟩
      · cases h
    · cases h
  · rintro ⟨rfl, rfl, hop⟩
    exact if_pos hop

/-- Whether all numbers that are absorbed in some expressions have a property. -/
def AllAbsorbed (p : Number → Prop) (nodes : List Expr) : Prop :=
  ∀ op left right n, .binary op left right ∈ nodes → absorbed? op left right = some n → p n

/-- Whether each number that is absorbed in an expression is a whole number of days. -/
def AbsorbsDays (e : Expr) : Prop := AllAbsorbed (fun n => n.int64?.isSome) e.nodes

section

variable {p : Number → Prop} {nodes others : List Expr}

theorem allAbsorbed_append :
    AllAbsorbed p (nodes ++ others) ↔ AllAbsorbed p nodes ∧ AllAbsorbed p others := by
  constructor
  · exact fun h => ⟨fun op l r n hm => h op l r n (List.mem_append_left _ hm),
      fun op l r n hm => h op l r n (List.mem_append_right _ hm)⟩
  · rintro ⟨h, h'⟩ op l r n hm
    rcases List.mem_append.mp hm with hm | hm
    · exact h op l r n hm
    · exact h' op l r n hm

theorem allAbsorbed_leaf {e : Expr} (h : ∀ op left right, .binary op left right ≠ e) :
    AllAbsorbed p [e] :=
  fun op left right _ hm => absurd (List.mem_singleton.mp hm) (h op left right)

theorem allAbsorbed_binary {op : ArithOp} {left right : Expr} :
    AllAbsorbed p (Expr.binary op left right).nodes ↔
      (∀ n, absorbed? op left right = some n → p n) ∧
        AllAbsorbed p left.nodes ∧ AllAbsorbed p right.nodes := by
  rw [nodes, ← List.singleton_append, allAbsorbed_append, allAbsorbed_append]
  refine and_congr_left fun _ => ⟨fun h n => h op left right n (List.mem_singleton_self _), ?_⟩
  intro h op' left' right' n hm
  obtain ⟨rfl, rfl, rfl⟩ := Expr.binary.inj (List.mem_singleton.mp hm)
  exact h n

theorem allAbsorbed_call {handler : String} {args : List Expr} :
    AllAbsorbed p (Expr.call handler args).nodes ↔ AllAbsorbed p (nodesOfArgs args) := by
  rw [nodes, ← List.singleton_append, allAbsorbed_append]
  exact and_iff_right (allAbsorbed_leaf nofun)

/-- The two operands of which one is absorbed have none inside them. -/
theorem allAbsorbed_operands {op : ArithOp} {left right : Expr} {n : Number}
    (h : absorbed? op left right = some n) :
    AllAbsorbed p left.nodes ∧ AllAbsorbed p right.nodes := by
  obtain ⟨rfl, rfl, -⟩ := absorbed?_eq_some_iff.mp h
  exact ⟨allAbsorbed_leaf nofun, allAbsorbed_leaf nofun⟩

/-- Nothing is absorbed where no operand is today's date before a number without a sign. -/
theorem allAbsorbed_false_iff :
    AllAbsorbed (fun _ => False) nodes ↔ ∀ op n, .binary op (.today 0) (.literal (.num n)) ∈ nodes →
      op = .add ∨ op = .sub → n.isSigned = true := by
  constructor
  · intro h op n hm hop
    by_contra hsigned
    exact h op _ _ n hm
      (absorbed?_eq_some_iff.mpr ⟨rfl, rfl, hop, Bool.not_eq_true _ ▸ hsigned⟩)
  · intro h op left right n hm habsorbed
    obtain ⟨rfl, rfl, hop, hsigned⟩ := absorbed?_eq_some_iff.mp habsorbed
    rw [h op n hm hop] at hsigned
    cases hsigned

end

mutual

/-- An expression is left as it is if and only if nothing is absorbed in it. -/
theorem merged_eq_iff (e : Expr) : e.merged = e ↔ AllAbsorbed (fun _ => False) e.nodes := by
  match e with
  | .literal v => exact iff_of_true rfl (allAbsorbed_leaf nofun)
  | .template t => exact iff_of_true rfl (allAbsorbed_leaf nofun)
  | .field path => exact iff_of_true rfl (allAbsorbed_leaf nofun)
  | .today offset => exact iff_of_true rfl (allAbsorbed_leaf nofun)
  | .binary op left right =>
    rw [allAbsorbed_binary, merged]
    cases habsorbed : absorbed? op left right with
    | some n => simp [shifted]
    | none => simp [merged_eq_iff left, merged_eq_iff right]
  | .call handler args =>
    rw [allAbsorbed_call, ← mergedArgs_eq_iff args]
    simp [merged]

theorem mergedArgs_eq_iff (es : List Expr) :
    mergedArgs es = es ↔ AllAbsorbed (fun _ => False) (nodesOfArgs es) := by
  match es with
  | [] => exact iff_of_true rfl fun _ _ _ _ hm => absurd hm List.not_mem_nil
  | e :: es =>
    rw [nodesOfArgs, allAbsorbed_append, ← merged_eq_iff e, ← mergedArgs_eq_iff es]
    simp [mergedArgs]

end

end Expr

namespace Rule

open Token (FitsWord isWritable numberTokens)

variable {ts rest : List Token}

/-- A reader finds a value and leaves a rest if something holds, and otherwise finds nothing. -/
def YieldsIf {α : Type} (p : Prop) (r : Except Rejection (Reading α ts)) (value : α)
    (rest : List Token) : Prop :=
  ∀ x more, Yields r x more ↔ p ∧ x = value ∧ more = rest

namespace YieldsIf

variable {α : Type} {p : Prop} {r : Except Rejection (Reading α ts)} {value : α}

/-- What is found if something holds, and never otherwise. -/
theorem intro (hyes : p → Yields r value rest) (hno : ∀ x more, Yields r x more → p) :
    YieldsIf p r value rest := by
  intro x more
  constructor
  · intro h
    have hp := hno x more h
    exact ⟨hp, h.unique (hyes hp)⟩
  · rintro ⟨hp, rfl, rfl⟩
    exact hyes hp

theorem of_yields (h : Yields r value rest) (hp : p) : YieldsIf p r value rest :=
  intro (fun _ => h) fun _ _ _ => hp

theorem yields (h : YieldsIf p r value rest) (hp : p) : Yields r value rest :=
  (h _ _).mpr ⟨hp, rfl, rfl⟩

end YieldsIf

section

variable {p q : Prop}

theorem EndsExpr.sum_if (h : EndsExpr rest) {e : Expr} (hf : YieldsIf p (factor ts) e rest) :
    YieldsIf p (Rule.sum ts) e rest := by
  refine .intro (fun hp => h.sum (hf.yields hp)) fun x more hsum => ?_
  obtain ⟨_, _, hproduct, -⟩ := yields_sum.mp hsum
  obtain ⟨_, _, hfactor, -⟩ := yields_product.mp hproduct
  exact ((hf _ _).mp hfactor).1

/-- Two factors with an operation between them, of which each is found if something holds. -/
theorem EndsExpr.binary_if {mid : List Token} {op : ArithOp} {left right : Expr} (h : EndsExpr rest)
    (hl : YieldsIf p (factor ts) left (.symbol op.symbol :: mid))
    (hr : YieldsIf q (factor mid) right rest) :
    YieldsIf (p ∧ q) (Rule.sum ts) (.binary op left right) rest := by
  -- If both operands are read, so is the operation; what is read otherwise is ruled out below.
  refine .intro (fun hpq => h.binary (hl.yields hpq.1) (hr.yields hpq.2)) fun x more hsum => ?_
  obtain ⟨_, _, hproduct, hsumTail⟩ := yields_sum.mp hsum
  obtain ⟨_, _, hfactor, hproductTail⟩ := yields_product.mp hproduct
  obtain ⟨hp, rfl, rfl⟩ := (hl _ _).mp hfactor
  have hsumOp (hs : sumOp? (.symbol op.symbol) = some op)
      (hn : productOp? (.symbol op.symbol) = none) : q := by
    obtain ⟨-, rfl, rfl⟩ | ⟨op', _, _, hop, -⟩ := trails_productTail_cons.mp hproductTail
    · obtain ⟨hop, -⟩ | ⟨_, _, _, -, hright, -⟩ := trails_sumTail_cons.mp hsumTail
      · rw [hs] at hop
        cases hop
      · obtain ⟨_, _, hfactor, -⟩ := yields_product.mp hright
        exact ((hr _ _).mp hfactor).1
    · rw [hn] at hop
      cases hop
  have hproductOp (hp : productOp? (.symbol op.symbol) = some op) : q := by
    obtain ⟨hop, -⟩ | ⟨_, _, _, -, hright, -⟩ := trails_productTail_cons.mp hproductTail
    · rw [hp] at hop
      cases hop
    · exact ((hr _ _).mp hright).1
  refine ⟨hp, ?_⟩
  cases op with
  | add | sub => exact hsumOp rfl rfl
  | mul | div => exact hproductOp rfl

end

/-- What is read of the tokens of an expression as a sum, and as an operand of arithmetic. -/
structure Remerges (e : Expr) : Prop where
  sum : ∀ rest, EndsExpr rest →
    YieldsIf e.AbsorbsDays (Rule.sum (e.tokens ++ rest)) e.merged rest
  factor : ∀ rest, rest.head? ≠ some (.symbol .openParen) → (e = .today 0 → NoOffset rest) →
    YieldsIf e.AbsorbsDays (Rule.factor (Expr.parenthesizedTokens e.isCompound e.tokens ++ rest))
      e.merged rest

theorem Remerges.of_rereads {e : Expr} (h : Rereads e) (hn : e.AbsorbsDays) (he : e.merged = e) :
    Remerges e := by
  constructor
  · intro rest hrest
    rw [he]
    exact .of_yields (h.sum rest hrest) hn
  · intro rest hparen hoffset
    rw [he]
    exact .of_yields (h.factor rest hparen hoffset) hn

theorem Remerges.of_sum {e : Expr} (hc : e.isCompound = true)
    (h : ∀ rest, EndsExpr rest →
      YieldsIf e.AbsorbsDays (Rule.sum (e.tokens ++ rest)) e.merged rest) : Remerges e := by
  refine ⟨h, fun rest _ _ => ?_⟩
  have htokens : Expr.parenthesizedTokens true e.tokens ++ rest =
      .symbol .openParen :: (e.tokens ++ .symbol .closeParen :: rest) := by
    simp [Expr.parenthesizedTokens]
  have hinside := h (.symbol .closeParen :: rest) (endsExpr_cons _ rfl rfl (by decide))
  rw [hc, htokens]
  intro x more
  rw [yields_factor_openParen, hinside]
  simp

theorem trails_todayOffset_sign_iff {op : ArithOp} {n : Number} {offset : Int} {more : List Token}
    (hop : op = .add ∨ op = .sub) :
    Trails (todayOffset (.symbol op.symbol :: .number n :: rest)) offset more ↔
      n.int64?.isSome ∧ Expr.today offset = Expr.shifted op n ∧ more = rest := by
  rcases hop with rfl | rfl
  · cases hn : n.int64? <;>
      simp [ArithOp.symbol, todayOffset, reject, Expr.shifted, hn, @eq_comm _ offset,
        @eq_comm _ more]
  · cases hn : n.int64? <;>
      simp [ArithOp.symbol, todayOffset, reject, Expr.shifted, hn, @eq_comm _ offset,
        @eq_comm _ more]

theorem remerges_absorbed {op : ArithOp} {left right : Expr} {n : Number}
    (h : Expr.absorbed? op left right = some n) (hright : right.IsProper isWritable) :
    Remerges (.binary op left right) := by
  have hmerged : (Expr.binary op left right).merged = .shifted op n := by
    rw [Expr.merged, h]
  have hdays : (Expr.binary op left right).AbsorbsDays ↔ n.int64?.isSome := by
    rw [Expr.AbsorbsDays, Expr.allAbsorbed_binary, and_iff_left (Expr.allAbsorbed_operands h), h]
    simp
  obtain ⟨rfl, rfl, hop, hsigned⟩ := Expr.absorbed?_eq_some_iff.mp h
  have htokens (rest : List Token) :
      (Expr.binary op (.today 0) (.literal (.num n))).tokens ++ rest =
        .word "current_date" :: .symbol op.symbol :: .number n :: rest := by
    have hn : isWritable n := hright.1
    obtain ⟨-, hnumber⟩ | ⟨hminus, -⟩ := numberTokens_cases hn
    · show todayTokens 0 ++ .symbol op.symbol :: numberTokens n ++ rest = _
      rw [hnumber]
      rfl
    · rw [hsigned] at hminus
      cases hminus
  -- Sign and number are taken up by the date, and nothing is left for a sum.
  refine Remerges.of_sum rfl fun rest hrest => hrest.sum_if fun x more => ?_
  rw [htokens, yields_factor_today rfl rfl, hdays, hmerged]
  constructor
  · rintro ⟨offset, hoffset, rfl⟩
    exact (trails_todayOffset_sign_iff hop).mp hoffset
  · rintro ⟨hn, rfl, rfl⟩
    exact ⟨_, (trails_todayOffset_sign_iff hop).mpr ⟨hn, rfl, rfl⟩, rfl⟩

theorem isOrdinary_of_absorbed? {op : ArithOp} {right : Expr}
    (h : Expr.absorbed? op (.today 0) right = none) :
    (Expr.binary op (.today 0) right).IsOrdinary := by
  match right with
  | .literal (.num n) =>
    intro hop
    rw [Expr.absorbed?, ite_eq_right_iff] at h
    by_contra hsigned
    cases h ⟨hop, Bool.not_eq_true _ ▸ hsigned⟩
  | .literal .null | .literal (.bool _) | .literal (.str _) | .literal (.arr _)
  | .literal (.obj _) | .template _ | .field _ | .today _ | .binary .. | .call .. => exact trivial

theorem remerges_binary {op : ArithOp} {left right : Expr}
    (h : Expr.absorbed? op left right = none) (hl : Remerges left) (hr : Remerges right)
    (hright : right.IsProper isWritable) : Remerges (.binary op left right) := by
  have hmerged : (Expr.binary op left right).merged = .binary op left.merged right.merged := by
    rw [Expr.merged, h]
  have hdays : (Expr.binary op left right).AbsorbsDays ↔ left.AbsorbsDays ∧ right.AbsorbsDays := by
    rw [Expr.AbsorbsDays, Expr.allAbsorbed_binary, h]
    simp [Expr.AbsorbsDays]
  refine Remerges.of_sum rfl fun rest hrest => ?_
  have htokens : (Expr.binary op left right).tokens ++ rest =
      Expr.parenthesizedTokens left.isCompound left.tokens ++ .symbol op.symbol ::
        (Expr.parenthesizedTokens right.isCompound right.tokens ++ rest) := by
    simp [Expr.tokens]
  have hleft := hl.factor (.symbol op.symbol ::
      (Expr.parenthesizedTokens right.isCompound right.tokens ++ rest))
    (by cases op <;> simp [ArithOp.symbol]) fun heq => ?_
  have hboth := hrest.binary_if hleft
    (hr.factor rest hrest.ne_openParen fun _ => hrest.noOffset)
  · rw [htokens, hmerged]
    intro x more
    rw [hboth, hdays]
  · subst heq
    exact noOffset_right hright (isOrdinary_of_absorbed? h)

theorem arguments_if (rest : List Token) {args : List Expr} (hne : args ≠ [])
    (h : ∀ e ∈ args, Remerges e) :
    YieldsIf (Expr.AllAbsorbed (fun n => n.int64?.isSome) (Expr.nodesOfArgs args))
      (arguments ([.symbol .comma].intercalate (args.map Expr.tokens) ++
        .symbol .closeParen :: rest)) (Expr.mergedArgs args) rest := by
  induction args with
  | nil => exact absurd rfl hne
  | cons e args ih =>
    have he := (h e List.mem_cons_self).sum
    rw [Expr.nodesOfArgs, Expr.mergedArgs]
    -- The last argument is followed by the parenthesis, any other by a comma.
    cases args with
    | nil =>
      have hlast := he (.symbol .closeParen :: rest) (endsExpr_cons _ rfl rfl (by decide))
      rw [List.map_cons, List.map_nil, List.intercalate_singleton, Expr.nodesOfArgs,
        List.append_nil]
      intro xs more
      rw [yields_arguments]
      constructor
      · rintro ⟨first, mid, hfirst, hrest⟩
        obtain ⟨hdays, rfl, rfl⟩ := (hlast _ _).mp hfirst
        obtain ⟨_, _, hcomma, -⟩ | ⟨hclose, rfl⟩ := hrest
        · cases hcomma
        · exact ⟨hdays, rfl, (List.cons.inj hclose).2.symm⟩
      · rintro ⟨hdays, rfl, rfl⟩
        exact ⟨_, _, hlast.yields hdays, .inr ⟨rfl, rfl⟩⟩
    | cons f args =>
      have hothers := ih (List.cons_ne_nil f args) fun g hg => h g (List.mem_cons_of_mem e hg)
      rw [List.map_cons, List.map_cons, List.intercalate_cons_cons, List.append_assoc,
        List.append_assoc, Expr.allAbsorbed_append]
      have hfirst := he (.symbol .comma :: ([.symbol .comma].intercalate
        ((f :: args).map Expr.tokens) ++ .symbol .closeParen :: rest))
        (endsExpr_cons _ rfl rfl (by decide))
      intro xs more
      rw [yields_arguments]
      constructor
      · rintro ⟨first, mid, hsum, hrest⟩
        obtain ⟨hdays, rfl, rfl⟩ := (hfirst _ _).mp hsum
        obtain ⟨others, after, hcomma, hafter, rfl⟩ | ⟨hclose, -⟩ := hrest
        · obtain rfl := (List.cons.inj hcomma).2
          obtain ⟨hall, rfl, rfl⟩ := (hothers _ _).mp hafter
          exact ⟨⟨hdays, hall⟩, rfl, rfl⟩
        · cases hclose
      · rintro ⟨⟨hdays, hall⟩, rfl, rfl⟩
        exact ⟨_, _, hfirst.yields hdays, .inl ⟨_, _, rfl, hothers.yields hall, rfl⟩⟩

theorem tokens_ne_closeParen (e : Expr) (he : ∀ n ∈ e.nodes, n.IsProper isWritable)
    (ts more : List Token) : e.tokens ++ ts ≠ .symbol .closeParen :: more := by
  match e with
  | .literal v =>
    have hv : v.IsLiteral isWritable := (he (.literal v) (Expr.mem_nodes _)).1
    match v, hv with
    | .null, _ | .bool true, _ | .bool false, _ | .str _, _ => exact nofun
    | .num n, hn =>
      show numberTokens n ++ ts ≠ _
      obtain ⟨-, hnumber⟩ | ⟨-, m, hnumber, -⟩ := numberTokens_cases hn
      · rw [hnumber]
        exact nofun
      · rw [hnumber]
        exact nofun
  | .template _ | .field _ | .call .. => exact nofun
  | .today offset =>
    obtain ⟨tail, htail⟩ := todayTokens_cons offset
    rw [Expr.tokens, htail]
    exact nofun
  | .binary op left right =>
    rw [Expr.tokens, List.append_assoc]
    cases left.isCompound with
    | true => exact nofun
    | false => exact tokens_ne_closeParen left (fun n hn => he n (by simp [Expr.nodes, hn])) _ _

theorem remerges_call {handler : String} {args : List Expr} (hh : isIdentifier handler = true)
    (hargs : ∀ e ∈ args, ∀ n ∈ e.nodes, n.IsProper isWritable) (h : ∀ e ∈ args, Remerges e) :
    Remerges (.call handler args) := by
  have hdays : (Expr.call handler args).AbsorbsDays ↔
      Expr.AllAbsorbed (fun n => n.int64?.isSome) (Expr.nodesOfArgs args) := Expr.allAbsorbed_call
  cases args with
  | nil =>
    exact .of_rereads (rereads_call hh nofun)
      (hdays.mpr fun _ _ _ _ hm => absurd hm List.not_mem_nil) rfl
  | cons e es =>
    have hfactor (rest : List Token) : YieldsIf (Expr.call handler (e :: es)).AbsorbsDays
        (factor ((Expr.call handler (e :: es)).tokens ++ rest))
        (Expr.call handler (e :: es)).merged rest := by
      have hall := arguments_if rest (List.cons_ne_nil e es) h
      intro x more
      rw [tokens_call, yields_factor_action hh, hdays, Expr.merged]
      constructor
      · rintro (⟨hclose, -⟩ | ⟨args, hread, rfl⟩)
        -- Arguments do not begin with the parenthesis that closes them.
        · rw [List.map_cons, intercalate_cons, List.append_assoc] at hclose
          exact absurd hclose (tokens_ne_closeParen e (hargs e List.mem_cons_self) _ _)
        · obtain ⟨hp, rfl, rfl⟩ := (hall _ _).mp hread
          exact ⟨hp, rfl, rfl⟩
      · rintro ⟨hp, rfl, rfl⟩
        exact .inr ⟨_, hall.yields hp, rfl⟩
    exact ⟨fun rest hrest => hrest.sum_if (hfactor rest), fun rest _ _ => hfactor rest⟩

mutual

/-- What is read of the tokens of an expression is the expression with each number that is absorbed
put into the date before it. -/
theorem remerges (e : Expr) (hp : ∀ n ∈ e.nodes, n.IsProper isWritable) : Remerges e := by
  match e with
  | .literal v =>
    have hv : v.IsLiteral isWritable ∧ v.isString = false := hp (.literal v) (Expr.mem_nodes _)
    exact .of_rereads (rereads_literal hv.1 hv.2) (Expr.allAbsorbed_leaf nofun) rfl
  | .template t =>
    exact .of_rereads (rereads_template (hp (.template t) (Expr.mem_nodes _)))
      (Expr.allAbsorbed_leaf nofun) rfl
  | .field path =>
    exact .of_rereads (rereads_field (hp (.field path) (Expr.mem_nodes _)))
      (Expr.allAbsorbed_leaf nofun) rfl
  | .today offset =>
    exact .of_rereads (rereads_today (hp (.today offset) (Expr.mem_nodes _)))
      (Expr.allAbsorbed_leaf nofun) rfl
  | .binary op left right =>
    have hright := hp right (by simp [Expr.nodes, right.mem_nodes])
    -- Today's date before a number without a sign takes it up; no other operands interfere.
    cases h : Expr.absorbed? op left right with
    | some n => exact remerges_absorbed h hright
    | none =>
      have hl := remerges left fun n hn => hp n (by simp [Expr.nodes, hn])
      have hr := remerges right fun n hn => hp n (by simp [Expr.nodes, hn])
      exact remerges_binary h hl hr hright
  | .call handler args =>
    have hh : isIdentifier handler = true := hp (.call handler args) (Expr.mem_nodes _)
    have hargs : ∀ n ∈ Expr.nodesOfArgs args, n.IsProper isWritable :=
      fun n hn => hp n (by simp [Expr.nodes, hn])
    refine remerges_call hh (fun e he n hn => hargs n ?_) (remerges_args args hargs)
    exact Expr.nodesOfArgs_eq args ▸ List.mem_flatMap_of_mem he hn

theorem remerges_args (es : List Expr) (hp : ∀ n ∈ Expr.nodesOfArgs es, n.IsProper isWritable) :
    ∀ e ∈ es, Remerges e := by
  match es with
  | [] => exact nofun
  | x :: es =>
    rw [Expr.nodesOfArgs, List.forall_mem_append] at hp
    exact List.forall_mem_cons.mpr ⟨remerges x hp.1, remerges_args es hp.2⟩

end

/-- What is read of the text of an expression that reading gave, and whose numbers are written
without powers of ten. Its text is a list of tokens, and all that can be read of these is the
expression with each number that is absorbed put into the date before it, if each of them is a
number of days. So it is the expression itself if and only if no operand of a sum or a difference is
today's date before a number without a sign. -/
theorem sum_text_exact {source : String} {ts part rest : List Token} {e : Expr}
    (htokens : Token.tokens false source.toList = .ok ts) (hpart : part <:+: ts)
    (he : Yields (sum part) e rest)
    (hnumbers : ∀ n, .literal (.num n) ∈ e.nodes → 'e' ∉ n.text) :
    ∃ us, Token.tokens false e.text.toList = .ok us ∧
      (∀ x more, Yields (sum us) x more ↔ e.AbsorbsDays ∧ x = e.merged ∧ more = []) ∧
      (Yields (sum us) e [] ↔ ∀ op n, .binary op (.today 0) (.literal (.num n)) ∈ e.nodes →
        op = .add ∨ op = .sub → n.isSigned = true) := by
  have hsound : AllSound part := fun t ht => Token.isSound_of_tokens htokens t (hpart.subset ht)
  have hproper : ∀ x ∈ e.nodes, x.IsProper isWritable := by
    intro x hx
    refine ((sum_sound part hsound he).nodes x hx).writable ?_
    rintro v rfl
    cases v with
    | num n => exact hnumbers n hx
    | _ => exact trivial
  have hread : YieldsIf e.AbsorbsDays (sum e.tokens) e.merged [] := by
    have h := (remerges e hproper).sum [] endsExpr_nil
    rwa [List.append_nil] at h
  refine ⟨e.tokens, (Expr.spells e hproper [] Token.stops_nil).tokens_eq, hread, ?_⟩
  rw [hread, ← Expr.allAbsorbed_false_iff, ← Expr.merged_eq_iff]
  constructor
  · exact fun h => h.2.1.symm
  · intro h
    have hnone := (Expr.merged_eq_iff e).mp h
    have hdays : e.AbsorbsDays :=
      fun op left right n hm habsorbed => (hnone op left right n hm habsorbed).elim
    exact ⟨hdays, h.symm, rfl⟩

/-- Today's date before a number that it does not absorb, in a product and in parentheses. -/
theorem sum_text_exact_product :
    let product := Expr.binary .mul (.today 0) (.literal (.num (.ofNat 2)))
    let e := Expr.binary .sub product (.literal (.num (.ofNat 5)))
    e.text = "(current_date * 2) - 5" ∧
      ∃ us, Token.tokens false e.text.toList = .ok us ∧ Yields (sum us) e [] := by
  intro product e
  have htokens : Token.tokens false "(current_date * 2) - 5".toList =
      .ok [.symbol .openParen, .word "current_date", .symbol .star, .number (.ofNat 2),
        .symbol .closeParen, .symbol .minus, .number (.ofNat 5)] := by
    with_unfolding_all rfl
  have hproduct : Yields (factor [.symbol .openParen, .word "current_date", .symbol .star,
        .number (.ofNat 2), .symbol .closeParen, .symbol .minus, .number (.ofNat 5)]) product
      [.symbol (ArithOp.symbol .sub), .number (.ofNat 5)] := by
    refine yields_factor_openParen.mpr ((endsExpr_cons _ rfl rfl (by decide)).binary ?_
      (yields_factor_number.mpr ⟨rfl, rfl⟩))
    exact (yields_factor_today rfl rfl).mpr
      ⟨0, trails_todayOffset_of_noOffset (by simp [NoOffset]), rfl⟩
  have he : Yields (sum _) e [] :=
    endsExpr_nil.binary hproduct (yields_factor_number.mpr ⟨rfl, rfl⟩)
  have hnumbers : ∀ n, .literal (.num n) ∈ e.nodes → 'e' ∉ n.text := by
    have htwo : 'e' ∉ (Number.ofNat 2).text := by decide +kernel
    have hfive : 'e' ∉ (Number.ofNat 5).text := by decide +kernel
    simp [e, product, Expr.nodes, htwo, hfive]
  obtain ⟨us, hus, -, hexact⟩ := sum_text_exact htokens List.infix_rfl he hnumbers
  refine ⟨by with_unfolding_all rfl, us, hus, hexact.mpr ?_⟩
  simp [e, product, Expr.nodes]

/-- Today's date in parentheses, to which a number is added: printed without them, it absorbs it. -/
theorem sum_not_reread :
    let e := Expr.binary .add (.today 0) (.literal (.num (.ofNat 5)))
    ∃ ts us, Token.tokens false "(current_date) + 5".toList = .ok ts ∧ Yields (sum ts) e [] ∧
      (∀ n, .literal (.num n) ∈ e.nodes → 'e' ∉ n.text) ∧
      e.text = "current_date + 5" ∧ Token.tokens false e.text.toList = .ok us ∧
      Yields (sum us) (.today 5) [] ∧ ¬Yields (sum us) e [] := by
  intro e
  have htoday : Yields (sum [.word "current_date", .symbol .closeParen, .symbol .plus,
      .number (.ofNat 5)]) (.today 0)
      [.symbol .closeParen, .symbol (ArithOp.symbol .add), .number (.ofNat 5)] := by
    refine (endsExpr_cons _ rfl rfl (by decide)).sum ((yields_factor_today rfl rfl).mpr ?_)
    exact ⟨0, trails_todayOffset_of_noOffset (by simp [NoOffset]), rfl⟩
  have he : Yields (sum [.symbol .openParen, .word "current_date", .symbol .closeParen,
      .symbol .plus, .number (.ofNat 5)]) e [] :=
    endsExpr_nil.binary (yields_factor_openParen.mpr htoday)
      (yields_factor_number.mpr ⟨rfl, rfl⟩)
  have hdate : Yields (sum [.word "current_date", .symbol .plus, .number (.ofNat 5)])
      (.today 5) [] :=
    endsExpr_nil.sum ((yields_factor_today rfl rfl).mpr ⟨5, ⟨by decide, rfl⟩, rfl⟩)
  have htext : e.text = "current_date + 5" := by with_unfolding_all rfl
  have hfive : 'e' ∉ (Number.ofNat 5).text := by decide +kernel
  refine ⟨_, _, by with_unfolding_all rfl, he, ?_, htext, ?_, hdate, ?_⟩
  · simp [e, Expr.nodes, hfive]
  · rw [htext]
    with_unfolding_all rfl
  · intro hsame
    exact Expr.noConfusion (hsame.unique hdate).1

end Rule

end Bylaw
