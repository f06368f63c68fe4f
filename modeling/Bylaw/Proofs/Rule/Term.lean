import Bylaw.Proofs.Text.Reading
import Bylaw.Rule.Term

/-! What the readers of terms give, each in terms of those it calls. Every statement here is an
equivalence, so that it serves to show what is read as well as what was read. -/

namespace Bylaw.Rule

variable {ts rest : List Token} {e left : Expr}

theorem yields_sum :
    Yields (sum ts) e rest ↔
      ∃ first more, Yields (product ts) first more ∧ Trails (sumTail first more) e rest := by
  rw [sum.eq_def]
  refine chain_iff (fun fault h => by simp [h]) fun first h => ?_
  simp only [h]
  cases sumTail first.value first.rest <;> simp

theorem yields_product :
    Yields (product ts) e rest ↔
      ∃ first more, Yields (factor ts) first more ∧ Trails (productTail first more) e rest := by
  rw [product.eq_def]
  refine chain_iff (fun fault h => by simp [h]) fun first h => ?_
  simp only [h]
  cases productTail first.value first.rest <;> simp

theorem trails_sumTail_nil : Trails (sumTail left []) e rest ↔ e = left ∧ rest = [] := by
  rw [sumTail.eq_def]
  simp [Trailing.ofNone, eq_comm]

theorem trails_sumTail_cons {t : Token} :
    Trails (sumTail left (t :: ts)) e rest ↔
      (sumOp? t = none ∧ e = left ∧ rest = t :: ts) ∨
      ∃ op right more, sumOp? t = some op ∧ Yields (product ts) right more ∧
        Trails (sumTail (.binary op left right) more) e rest := by
  rw [sumTail.eq_def]
  cases hop : sumOp? t with
  | none => simp [Trailing.ofNone, hop, eq_comm]
  | some op =>
    simp only [hop, reduceCtorEq, false_and, false_or, Option.some.injEq, exists_and_left,
      exists_eq_left']
    refine chain_iff (fun fault h => by simp [h]) fun right h => ?_
    simp only [h]
    cases sumTail (.binary op left right.value) right.rest <;> simp

theorem trails_productTail_nil : Trails (productTail left []) e rest ↔ e = left ∧ rest = [] := by
  rw [productTail.eq_def]
  simp [Trailing.ofNone, eq_comm]

theorem trails_productTail_cons {t : Token} :
    Trails (productTail left (t :: ts)) e rest ↔
      (productOp? t = none ∧ e = left ∧ rest = t :: ts) ∨
      ∃ op right more, productOp? t = some op ∧ Yields (factor ts) right more ∧
        Trails (productTail (.binary op left right) more) e rest := by
  rw [productTail.eq_def]
  cases hop : productOp? t with
  | none => simp [Trailing.ofNone, hop, eq_comm]
  | some op =>
    simp only [hop, reduceCtorEq, false_and, false_or, Option.some.injEq, exists_and_left,
      exists_eq_left']
    refine chain_iff (fun fault h => by simp [h]) fun right h => ?_
    simp only [h]
    cases productTail (.binary op left right.value) right.rest <;> simp

theorem yields_factor_str {s : String} :
    Yields (factor (.str s :: ts)) e rest ↔
      ∃ t, Template.read s = .ok t ∧ e = .template t ∧ rest = ts := by
  rw [factor.eq_def]
  cases ht : Template.read s with
  | error fault => simp [ht, reject]
  | ok t => simp [ht, Reading.ofHead, eq_comm]

theorem yields_factor_openParen :
    Yields (factor (.symbol .openParen :: ts)) e rest ↔
      Yields (sum ts) e (.symbol .closeParen :: rest) := by
  rw [factor.eq_def]
  cases hs : sum ts with
  | error fault => simp [hs]
  | ok inner =>
    simp only [hs, yields_ok]
    split
    · rename_i after hrest
      simp [hrest]
    · rename_i hrest
      simp only [rejectExpected, reject, yields_error, false_iff, not_and]
      intro _ h
      exact hrest _ h

theorem yields_factor_number {n : Number} :
    Yields (factor (.number n :: ts)) e rest ↔ e = .literal (.num n) ∧ rest = ts := by
  rw [factor.eq_def]
  simp [Reading.ofHead, eq_comm]

theorem yields_factor_minus_number {n : Number} :
    Yields (factor (.symbol .minus :: .number n :: ts)) e rest ↔
      e = .literal (.num (negate n)) ∧ rest = ts := by
  rw [factor.eq_def]
  simp [Reading.ofHead, Reading.behind, eq_comm]

theorem yields_factor_minus (h : ∀ n more, ts ≠ .number n :: more) :
    Yields (factor (.symbol .minus :: ts)) e rest ↔
      ∃ right, Yields (factor ts) right rest ∧ e = .binary .sub (.literal (.ofNat 0)) right := by
  have hfactor := factor.eq_4 ts fun n more hts => h n more hts
  rw [hfactor]
  cases factor ts with
  | error fault => simp
  | ok r =>
    simp only [yields_ok, Reading.map, Reading.behind]
    constructor
    · rintro ⟨rfl, rfl⟩
      exact ⟨r.value, ⟨rfl, rfl⟩, rfl⟩
    · rintro ⟨_, ⟨rfl, rfl⟩, rfl⟩
      exact ⟨rfl, rfl⟩

theorem yields_factor_literal {w : String} {v : Json} (hw : literalWord? w = some v) :
    Yields (factor (.word w :: ts)) e rest ↔ e = .literal v ∧ rest = ts := by
  rw [factor.eq_def]
  simp [hw, Reading.ofHead, eq_comm]

theorem yields_factor_today {w : String} (hl : literalWord? w = none) (hw : isToday w = true) :
    Yields (factor (.word w :: ts)) e rest ↔
      ∃ offset, Trails (todayOffset ts) offset rest ∧ e = .today offset := by
  rw [factor.eq_def]
  simp only [hl, hw, if_true]
  cases todayOffset ts with
  | error fault => simp
  | ok r =>
    simp only [yields_ok, trails_ok, Trailing.map, Trailing.behind]
    constructor
    · rintro ⟨rfl, rfl⟩
      exact ⟨r.value, ⟨rfl, rfl⟩, rfl⟩
    · rintro ⟨_, ⟨rfl, rfl⟩, rfl⟩
      exact ⟨rfl, rfl⟩

theorem yields_factor_keyword {w : String} (hl : literalWord? w = none) (hw : isToday w = false)
    (hk : isKeyword w = true) : ¬ Yields (factor (.word w :: ts)) e rest := by
  rw [factor.eq_def]
  simp [hl, hw, hk, rejectExpected, reject]

theorem yields_factor_field {w : String} (hl : literalWord? w = none) (hw : isToday w = false)
    (hk : isKeyword w = false) (hp : ts.head? ≠ some (.symbol .openParen)) :
    Yields (factor (.word w :: ts)) e rest ↔
      ∃ path, FieldPath.read? w.toList = some path ∧ e = .field path ∧ rest = ts := by
  rw [factor.eq_def]
  simp only [hl, hw, hk, Bool.false_eq_true, if_false]
  split
  · exact absurd rfl hp
  · cases hr : FieldPath.read? w.toList with
    | none => simp [reject]
    | some path => simp [Reading.ofHead, eq_comm]

theorem yields_factor_call {w : String} (hl : literalWord? w = none) (hw : isToday w = false)
    (hk : isKeyword w = false) :
    Yields (factor (.word w :: .symbol .openParen :: ts)) e rest ↔
      ∃ handler, handlerName? w = some handler ∧
        ((ts = .symbol .closeParen :: rest ∧ e = .call handler []) ∨
          (ts.head? ≠ some (.symbol .closeParen) ∧
            ∃ args, Yields (arguments ts) args rest ∧ e = .call handler args)) := by
  rw [factor.eq_def]
  simp only [hl, hw, hk, Bool.false_eq_true, if_false]
  cases hh : handlerName? w with
  | none => simp [reject]
  | some handler =>
    simp only [Option.some.injEq, exists_eq_left']
    split
    · simp only [yields_ok, Reading.ofHead, Reading.behind, List.cons.injEq, true_and,
        List.head?_cons, ne_eq, not_true_eq_false, false_and, or_false]
      rw [and_comm, @eq_comm _ e]
    · rename_i hts
      -- The parenthesis does not close at once, so arguments are read.
      have hne : ts.head? ≠ some (.symbol .closeParen) := by
        intro hhead
        obtain ⟨more, rfl⟩ := List.head?_eq_some_iff.mp hhead
        exact hts more rfl
      cases ha : arguments ts with
      | error fault =>
        simp only [yields_error, false_and, exists_false, and_false, or_false, false_iff, not_and]
        rintro rfl
        exact absurd rfl hne
      | ok r =>
        simp only [yields_ok, Reading.map, Reading.behind]
        constructor
        · rintro ⟨rfl, rfl⟩
          exact .inr ⟨hne, r.value, ⟨rfl, rfl⟩, rfl⟩
        · rintro (⟨rfl, -⟩ | ⟨-, _, ⟨rfl, rfl⟩, rfl⟩)
          · exact absurd rfl hne
          · exact ⟨rfl, rfl⟩

/-- Nothing else begins an expression. -/
theorem not_yields_factor_symbol {s : Symbol} (ho : s ≠ .openParen) (hm : s ≠ .minus) :
    ¬ Yields (factor (.symbol s :: ts)) e rest := by
  rw [factor.eq_def]
  cases s with
  | openParen => exact absurd rfl ho
  | minus => exact absurd rfl hm
  | _ => simp [rejectExpected, reject]

theorem not_yields_factor_nil : ¬ Yields (factor []) e rest := by
  rw [factor.eq_def]
  simp [rejectExpected, reject]

theorem not_yields_factor_pattern {source : String} :
    ¬ Yields (factor (.pattern source :: ts)) e rest := by
  rw [factor.eq_def]
  simp [rejectExpected, reject]

theorem not_yields_factor_block {json : String} :
    ¬ Yields (factor (.block json :: ts)) e rest := by
  rw [factor.eq_def]
  simp [rejectExpected, reject]

theorem yields_arguments {args : List Expr} :
    Yields (arguments ts) args rest ↔
      ∃ first more, Yields (sum ts) first more ∧
        ((∃ others after, more = .symbol .comma :: after ∧ Yields (arguments after) others rest ∧
            args = first :: others) ∨
          (more = .symbol .closeParen :: rest ∧ args = [first])) := by
  rw [arguments.eq_def]
  cases sum ts with
  | error fault => simp
  | ok first =>
    simp only [yields_ok]
    split
    -- A comma: more arguments follow.
    · rename_i after hrest
      constructor
      · intro h
        cases ha : arguments after with
        | error fault => simp [ha] at h
        | ok r =>
          simp only [ha, yields_ok] at h
          exact ⟨first.value, first.rest, ⟨rfl, rfl⟩,
            .inl ⟨r.value, after, hrest, by simpa [ha] using h.2, h.1.symm⟩⟩
      · rintro ⟨_, _, ⟨rfl, rfl⟩, ⟨others, after', hmore, ha, rfl⟩ | ⟨hmore, -⟩⟩
        · rw [hrest] at hmore
          obtain rfl := (List.cons.inj hmore).2
          cases hr : arguments after with
          | error fault => simp [hr] at ha
          | ok r =>
            simp only [hr, yields_ok] at ha
            simp [ha]
        · rw [hrest] at hmore
          cases hmore
    · rename_i after hrest
      simp only [yields_ok]
      constructor
      · rintro ⟨rfl, rfl⟩
        exact ⟨first.value, first.rest, ⟨rfl, rfl⟩, .inr ⟨hrest, rfl⟩⟩
      · rintro ⟨_, _, ⟨rfl, rfl⟩, ⟨_, _, hmore, -⟩ | ⟨hmore, rfl⟩⟩
        · rw [hrest] at hmore
          cases hmore
        · rw [hrest] at hmore
          exact ⟨rfl, (List.cons.inj hmore).2⟩
    -- Neither a comma nor the closing parenthesis: both sides fail.
    · rename_i hcomma hclose
      simp only [rejectExpected, reject, yields_error, false_iff]
      rintro ⟨_, _, ⟨rfl, rfl⟩, ⟨_, after, hmore, -⟩ | ⟨hmore, -⟩⟩
      · exact hcomma after hmore
      · exact hclose rest hmore

/-- Whether tokens do not begin with a sign and a number, which after today's date are an offset. -/
def NoOffset (ts : List Token) : Prop :=
  ∀ s n more, ts = .symbol s :: .number n :: more → s ≠ .plus ∧ s ≠ .minus

theorem trails_todayOffset_of_noOffset (h : NoOffset ts) : Trails (todayOffset ts) 0 ts := by
  unfold todayOffset
  split
  · rename_i n more
    exact absurd rfl (h .minus n more rfl).2
  · rename_i n more
    exact absurd rfl (h .plus n more rfl).1
  · exact ⟨Nat.le_refl _, rfl⟩

theorem trails_todayOffset_sign {s : Symbol} {n : Number} {days : Int} (ts : List Token)
    (hs : s = .plus ∨ s = .minus) (hn : n.int64? = some days) :
    Trails (todayOffset (.symbol s :: .number n :: ts)) (if s = .minus then -days else days)
      ts := by
  rcases hs with rfl | rfl
  · simp [todayOffset, hn]
  · simp [todayOffset, hn]

end Bylaw.Rule
