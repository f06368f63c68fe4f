import Bylaw.Proofs.Rule.RoundTrip

/-! Arithmetic written with parentheses only where products bind tighter than sums and both group to
the left, and with further pairs of parentheses anywhere. Main statement: it is read as the tree
that was written. -/

namespace Bylaw

open Token

/-- Whether an operation binds as products do. -/
def ArithOp.isProduct : ArithOp → Bool
  | .mul | .div => true
  | .add | .sub => false

/-- A tree of references, numbers and operations, and the pairs of parentheses in its text that it
does not need. -/
inductive Arith where
  | field (path : FieldPath)
  | number (n : Number)
  | binary (op : ArithOp) (left right : Arith)
  | grouped (e : Arith)

namespace Arith

/-- The tree, without the parentheses. -/
def toExpr : Arith → Expr
  | .field path => .field path
  | .number n => .literal (.num n)
  | .binary op left right => .binary op left.toExpr right.toExpr
  | .grouped e => e.toExpr

/-- The tree with no parentheses but those that it needs. -/
def bare : Arith → Arith
  | .field path => .field path
  | .number n => .number n
  | .binary op left right => .binary op left.bare right.bare
  | .grouped e => e.bare

@[simp] theorem toExpr_bare (e : Arith) : e.bare.toExpr = e.toExpr := by
  induction e with
  | field | number => rfl
  | binary op left right ihl ihr => rw [bare, toExpr, ihl, ihr, toExpr]
  | grouped e ih => exact ih

def isSum : Arith → Bool
  | .binary op _ _ => !op.isProduct
  | _ => false

def isBinary : Arith → Bool
  | .binary .. => true
  | _ => false

/-- Whether an operand on the left needs parentheses: in a product, a sum does. -/
def needsOnLeft (op : ArithOp) (left : Arith) : Bool := op.isProduct && left.isSum

/-- Whether an operand on the right needs parentheses: in a sum, a sum does, and in a product, a sum
or a product. -/
def needsOnRight (op : ArithOp) (right : Arith) : Bool :=
  if op.isProduct then right.isBinary else right.isSum

def text : Arith → String
  | .field path => path.text
  | .number n => (Json.num n).compact
  | .binary op left right =>
    Expr.parenthesized (needsOnLeft op left) left.text ++ " " ++ op.text ++ " " ++
      Expr.parenthesized (needsOnRight op right) right.text
  | .grouped e => Expr.parenthesized true e.text

def tokens : Arith → List Token
  | .field path => [.word path.text]
  | .number n => [.number n]
  | .binary op left right =>
    Expr.parenthesizedTokens (needsOnLeft op left) left.tokens ++
      .symbol op.symbol :: Expr.parenthesizedTokens (needsOnRight op right) right.tokens
  | .grouped e => Expr.parenthesizedTokens true e.tokens

/-- Trees of references that can stand for values, and of numbers that a text can hold, without a
sign and without a power of ten. -/
def IsPlain : Arith → Prop
  | .field path => path.IsOperand
  | .number n => FitsWord n ∧ n.isSigned = false ∧ 'e' ∉ n.text
  | .binary _ left right => left.IsPlain ∧ right.IsPlain
  | .grouped e => e.IsPlain

theorem IsPlain.bare {e : Arith} (he : e.IsPlain) : e.bare.IsPlain := by
  induction e with
  | field | number => exact he
  | binary op left right ihl ihr => exact ⟨ihl he.1, ihr he.2⟩
  | grouped e ih => exact ih he

end Arith

namespace Rule

variable {ts us rest : List Token} {e left right : Expr}

/-- Whether tokens cannot continue a product. -/
def EndsProduct (ts : List Token) : Prop :=
  ∀ t ∈ ts.head?, productOp? t = none ∧ t ≠ .symbol .openParen

theorem endsProduct_cons {t : Token} (ts : List Token) (hp : productOp? t = none)
    (ho : t ≠ .symbol .openParen) : EndsProduct (t :: ts) := by
  intro u hu
  obtain rfl := Option.some.inj hu
  exact ⟨hp, ho⟩

theorem EndsExpr.endsProduct (h : EndsExpr rest) : EndsProduct rest := fun t ht => (h t ht).2

theorem EndsProduct.ne_openParen (h : EndsProduct rest) :
    rest.head? ≠ some (.symbol .openParen) :=
  fun hhead => (h _ hhead).2 rfl

theorem EndsProduct.productTail (h : EndsProduct rest) (e : Expr) :
    Trails (productTail e rest) e rest := by
  cases rest with
  | nil => exact trails_productTail_nil.mpr ⟨rfl, rfl⟩
  | cons t more => exact trails_productTail_cons.mpr (.inl ⟨(h t rfl).1, rfl, rfl⟩)

/-- Tokens of an expression at the beginning of a sum: read as one, they go on with what follows. -/
def OpensSum (ts : List Token) (e : Expr) : Prop :=
  ∀ rest v after, EndsProduct rest → Trails (sumTail e rest) v after →
    Yields (sum (ts ++ rest)) v after

/-- Tokens of an expression at the beginning of a product: read as one, they go on with what
follows. -/
def OpensProduct (ts : List Token) (e : Expr) : Prop :=
  ∀ rest v after, rest.head? ≠ some (.symbol .openParen) → Trails (productTail e rest) v after →
    Yields (product (ts ++ rest)) v after

/-- Tokens of an expression that is a factor. -/
def IsFactor (ts : List Token) (e : Expr) : Prop :=
  ∀ rest, rest.head? ≠ some (.symbol .openParen) → Yields (factor (ts ++ rest)) e rest

theorem IsFactor.opensProduct (h : IsFactor ts e) : OpensProduct ts e :=
  fun rest _ _ hrest htail => yields_product.mpr ⟨e, rest, h rest hrest, htail⟩

theorem OpensProduct.opensSum (h : OpensProduct ts e) : OpensSum ts e := by
  intro rest v after hrest htail
  have hproduct := h rest e rest hrest.ne_openParen (hrest.productTail e)
  exact yields_sum.mpr ⟨e, rest, hproduct, htail⟩

theorem OpensSum.parenthesized (h : OpensSum ts e) :
    IsFactor (Expr.parenthesizedTokens true ts) e := by
  intro rest _
  have hinside : EndsExpr (.symbol .closeParen :: rest) := endsExpr_cons _ rfl rfl (by decide)
  have htokens : Expr.parenthesizedTokens true ts ++ rest =
      .symbol .openParen :: (ts ++ .symbol .closeParen :: rest) := by
    simp [Expr.parenthesizedTokens]
  rw [htokens]
  exact yields_factor_openParen.mpr (h _ _ _ hinside.endsProduct (hinside.sumTail e))

theorem OpensSum.binary {op : ArithOp} (hop : op.isProduct = false) (hl : OpensSum ts left)
    (hr : OpensProduct us right) :
    OpensSum (ts ++ .symbol op.symbol :: us) (.binary op left right) := by
  intro rest v after hrest htail
  have hsign : sumOp? (.symbol op.symbol) = some op ∧ productOp? (.symbol op.symbol) = none := by
    cases op with
    | add | sub => exact ⟨rfl, rfl⟩
    | mul | div => cases hop
  have hnext : EndsProduct (.symbol op.symbol :: (us ++ rest)) :=
    endsProduct_cons _ hsign.2 (by cases op <;> decide)
  have hproduct := hr rest right rest hrest.ne_openParen (hrest.productTail right)
  rw [List.append_assoc, List.cons_append]
  exact hl _ _ _ hnext (trails_sumTail_cons.mpr (.inr ⟨op, right, rest, hsign.1, hproduct, htail⟩))

theorem OpensProduct.binary {op : ArithOp} (hop : op.isProduct = true) (hl : OpensProduct ts left)
    (hr : IsFactor us right) :
    OpensProduct (ts ++ .symbol op.symbol :: us) (.binary op left right) := by
  intro rest v after hrest htail
  have hsign : productOp? (.symbol op.symbol) = some op := by
    cases op with
    | add | sub => cases hop
    | mul | div => rfl
  have hnext : (Token.symbol op.symbol :: (us ++ rest)).head? ≠ some (.symbol .openParen) := by
    cases op <;> simp [ArithOp.symbol]
  rw [List.append_assoc, List.cons_append]
  exact hl _ _ _ hnext
    (trails_productTail_cons.mpr (.inr ⟨op, right, rest, hsign, hr rest hrest, htail⟩))

/-- What a tree is read as: at the beginning of a sum, and if it needs no parentheses there, at the
beginning of a product and as a factor. -/
structure ReadsTree (e : Arith) : Prop where
  sum : OpensSum e.tokens e.toExpr
  product : e.isSum = false → OpensProduct e.tokens e.toExpr
  factor : e.isBinary = false → IsFactor e.tokens e.toExpr

namespace ReadsTree

variable {e : Arith}

theorem of_factor (h : IsFactor e.tokens e.toExpr) : ReadsTree e :=
  ⟨h.opensProduct.opensSum, fun _ => h.opensProduct, fun _ => h⟩

/-- With parentheses if it is a sum, a tree stands in a product. -/
theorem opensProduct (h : ReadsTree e) :
    OpensProduct (Expr.parenthesizedTokens e.isSum e.tokens) e.toExpr := by
  cases hs : e.isSum with
  | true => exact h.sum.parenthesized.opensProduct
  | false => exact h.product hs

/-- With parentheses unless it is a leaf, a tree is a factor. -/
theorem isFactor (h : ReadsTree e) :
    IsFactor (Expr.parenthesizedTokens e.isBinary e.tokens) e.toExpr := by
  cases hb : e.isBinary with
  | true => exact h.sum.parenthesized
  | false => exact h.factor hb

theorem binary {op : ArithOp} {left right : Arith} (hl : ReadsTree left) (hr : ReadsTree right) :
    ReadsTree (.binary op left right) := by
  cases hop : op.isProduct with
  | false =>
    have htokens : (Arith.binary op left right).tokens =
        left.tokens ++ .symbol op.symbol :: Expr.parenthesizedTokens right.isSum right.tokens := by
      simp [Arith.tokens, Arith.needsOnLeft, Arith.needsOnRight, hop, Expr.parenthesizedTokens]
    have hsum := hl.sum.binary hop hr.opensProduct
    rw [← htokens] at hsum
    refine ⟨hsum, fun hnot => ?_, fun hnot => ?_⟩
    · simp [Arith.isSum, hop] at hnot
    · cases hnot
  | true =>
    have htokens : (Arith.binary op left right).tokens =
        Expr.parenthesizedTokens left.isSum left.tokens ++
          .symbol op.symbol :: Expr.parenthesizedTokens right.isBinary right.tokens := by
      simp [Arith.tokens, Arith.needsOnLeft, Arith.needsOnRight, hop]
    have hproduct := hl.opensProduct.binary hop hr.isFactor
    rw [← htokens] at hproduct
    refine ⟨hproduct.opensSum, fun _ => hproduct, fun hnot => ?_⟩
    cases hnot

end ReadsTree

theorem readsTree (e : Arith) (he : e.IsPlain) : ReadsTree e := by
  induction e with
  | field path =>
    refine .of_factor fun rest hrest => ?_
    exact (yields_factor_field he.notLiteral he.notToday he.notKeyword hrest).mpr
      ⟨path, he.reads, rfl, rfl⟩
  | number n => exact .of_factor fun rest _ => yields_factor_number.mpr ⟨rfl, rfl⟩
  | binary op left right ihl ihr => exact .binary (ihl he.1) (ihr he.2)
  | grouped e ih => exact .of_factor (ih he).sum.parenthesized

end Rule

namespace Arith

theorem spells (e : Arith) (he : e.IsPlain) :
    ∀ rest, Stops rest → Spells e.text.toList e.tokens rest := by
  -- By induction on the tree; parentheses end an operand wherever they are needed.
  induction e with
  | field path =>
    have hpath : path.IsOperand := he
    exact fun rest hrest => hpath.toIsTarget.spells hrest
  | number n =>
    intro rest hrest
    obtain ⟨hfits, hsign, hplain⟩ := he
    obtain ⟨-, htokens⟩ | ⟨hsigned, -⟩ :=
      Rule.numberTokens_cases (isWritable_of_fitsWord hfits hplain)
    · rw [text, Json.compact, String.toList_ofList, tokens, ← htokens]
      exact Spells.number (isWritable_of_fitsWord hfits hplain) hrest
    · rw [hsign] at hsigned
      cases hsigned
  | binary op left right ihl ihr =>
    intro rest hrest
    have htext : (Arith.binary op left right).text.toList =
        (Expr.parenthesized (needsOnLeft op left) left.text).toList ++ ' ' ::
          (op.symbol.text.toList ++
            ' ' :: (Expr.parenthesized (needsOnRight op right) right.text).toList) := by
      simp [text, op.text_eq]
    rw [htext, tokens]
    exact (Expr.spells_parenthesized (ihl he.1) (stops_blank _)).append
      (Spells.symbol_blank op.symbol (Expr.spells_parenthesized (ihr he.2) hrest)).blank_cons
  | grouped e ih => exact fun rest hrest => Expr.spells_parenthesized (ih he) hrest

end Arith

namespace Rule

/-- A tree is what is read of all the tokens of its text. -/
theorem yields_arith (e : Arith) (he : e.IsPlain) :
    ∃ ts, Token.tokens false e.text.toList = .ok ts ∧ Yields (sum ts) e.toExpr [] := by
  have hread := (readsTree e he).sum [] e.toExpr [] endsExpr_nil.endsProduct
    (endsExpr_nil.sumTail e.toExpr)
  rw [List.append_nil] at hread
  exact ⟨e.tokens, (e.spells he [] stops_nil).tokens_eq, hread⟩

/-- Arithmetic is read with the usual precedence. A tree of references, numbers and operations that
is written with the parentheses it needs is what is read of all the tokens of its text, and further
pairs of parentheses around any part of it make no difference. -/
theorem sum_arith_text (e : Arith) (he : e.IsPlain) :
    (∃ ts, Token.tokens false e.bare.text.toList = .ok ts ∧ Yields (sum ts) e.toExpr []) ∧
      ∃ ts, Token.tokens false e.text.toList = .ok ts ∧ Yields (sum ts) e.toExpr [] := by
  have hbare := yields_arith e.bare he.bare
  rw [Arith.toExpr_bare] at hbare
  exact ⟨hbare, yields_arith e he⟩

/-- A difference on the right of a difference and inside a product, and a reference in parentheses
that are not needed. -/
theorem sum_arith_text_difference :
    let a := FieldPath.mk ["a"] (by decide) (by decide)
    let b := FieldPath.mk ["b", "c"] (by decide) (by decide)
    let e := Arith.binary .sub (.field a) (.binary .mul
      (.binary .sub (.field b) (.number (.ofNat 1))) (.grouped (.field a)))
    e.text = "a - (b.c - 1) * (a)" ∧ e.bare.text = "a - (b.c - 1) * a" ∧
      (∃ ts, Token.tokens false e.bare.text.toList = .ok ts ∧ Yields (sum ts) e.toExpr []) ∧
      ∃ ts, Token.tokens false e.text.toList = .ok ts ∧ Yields (sum ts) e.toExpr [] := by
  intro a b e
  have ha : a.IsOperand := ⟨⟨by decide, by decide, by decide +kernel⟩, by decide, by decide⟩
  have hb : b.IsOperand := ⟨⟨by decide, by decide, by decide +kernel⟩, by decide, by decide⟩
  have hone : Arith.IsPlain (.number (.ofNat 1)) :=
    ⟨Token.fitsWord_ofNat (by decide), by decide, by decide +kernel⟩
  exact ⟨by with_unfolding_all rfl, by with_unfolding_all rfl,
    sum_arith_text e ⟨ha, ⟨⟨hb, hone⟩, ha⟩⟩⟩

end Rule

end Bylaw
