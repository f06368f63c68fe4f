import Bylaw.Proofs.Condition.Absence
import Bylaw.Proofs.Json.Order

/-! Comparisons as an order. Main statements: a comparison can be read from either side, two values
that can be compared are in one order, and what is at most a value is at most all that this value is
at most; and "at least" is "above or equal" exactly if the values are not different texts that begin
with the same date. -/

namespace Bylaw

namespace Comparator

/-- The comparison that says the same from right to left. -/
def mirrored : Comparator → Comparator
  | .eq => .eq
  | .ne => .ne
  | .gt => .lt
  | .ge => .le
  | .lt => .gt
  | .le => .ge

/-- Whether a comparison asks for an order, and not for equality. -/
def asksOrder : Comparator → Bool
  | .eq => false
  | .ne => false
  | _ => true

@[simp] theorem mirrored_mirrored (op : Comparator) : op.mirrored.mirrored = op := by
  cases op <;> rfl

theorem accepts_mirrored (op : Comparator) (o : Ordering) :
    op.mirrored.accepts o.swap = op.accepts o := by
  cases op <;> cases o <;> rfl

theorem accepts_le (o : Ordering) : Comparator.le.accepts o = o.isLE := by
  cases o <;> rfl

end Comparator

namespace Clause

open Json (Ordered DifferWithinDay)

variable {scope : Scope} {l r : Operand} {op : Comparator} {v w : Json}

/-- A comparison other than equality is decided by the order of the values. -/
theorem compareValues_eq_ok_iff (hop : op.asksOrder = true) {b : Bool} :
    compareValues op v w = .ok b ↔ ∃ o, Ordered v w o ∧ op.accepts o = b := by
  simp only [← Json.order?_eq_some_iff]
  cases op with
  | eq => cases hop
  | ne => cases hop
  | _ => cases horder : v.order? w <;> simp [compareValues, horder]

theorem compareValues_mirrored (h : compareValues op v w = .ok true) :
    compareValues op.mirrored w v = .ok true := by
  cases hop : op.asksOrder with
  | true =>
    obtain ⟨o, ho, haccepts⟩ := (compareValues_eq_ok_iff hop).mp h
    rw [← Comparator.accepts_mirrored] at haccepts
    exact (compareValues_eq_ok_iff (by cases op <;> trivial)).mpr ⟨_, ho.swap, haccepts⟩
  | false =>
    cases op with
    | eq => rwa [Comparator.mirrored, compareValues, Json.looselyEqual_comm]
    | ne => rwa [Comparator.mirrored, compareValues, Json.looselyEqual_comm]
    | _ => cases hop

theorem comparePresence_mirrored (op : Comparator) (other : Option Json) :
    comparePresence op.mirrored other = comparePresence op other := by
  cases op <;> rfl

theorem Compares.mirrored (h : Compares scope l op r) : Compares scope r op.mirrored l := by
  cases h with
  | presenceLeft isNull notNull resolve presence =>
    exact .presenceRight isNull notNull resolve (by rwa [comparePresence_mirrored])
  | presenceRight isNull notNull resolve presence =>
    exact .presenceLeft isNull notNull resolve (by rwa [comparePresence_mirrored])
  | values resolveLeft resolveRight values =>
    exact .values resolveRight resolveLeft (compareValues_mirrored values)

theorem holds_mirrored (l r : Operand) (op : Comparator) :
    (compare l op r).holds scope = (compare r op.mirrored l).holds scope := by
  rw [Bool.eq_iff_iff, holds_compare_iff, holds_compare_iff]
  refine ⟨Compares.mirrored, fun h => ?_⟩
  have hback := h.mirrored
  rwa [Comparator.mirrored_mirrored] at hback

theorem holds_of_ordered (hl : l.resolve scope = .ok (some v)) (hr : r.resolve scope = .ok (some w))
    {o : Ordering} (ho : Ordered v w o) (op : Comparator) (hop : op.asksOrder = true) :
    (compare l op r).holds scope = op.accepts o := by
  rw [holds, evaluate_of_values hl hr, (compareValues_eq_ok_iff hop).mpr ⟨o, ho, rfl⟩]

theorem holds_eq_of_values (hl : l.resolve scope = .ok (some v))
    (hr : r.resolve scope = .ok (some w)) :
    (compare l .eq r).holds scope = v.looselyEqual w := by
  rw [holds, evaluate_of_values hl hr, compareValues]

theorem exists_ordered (hl : l.resolve scope = .ok (some v)) (hr : r.resolve scope = .ok (some w))
    (hop : op.asksOrder = true) {b : Bool} (h : (compare l op r).evaluate scope = .ok b) :
    ∃ o, Ordered v w o := by
  rw [evaluate_of_values hl hr, compareValues_eq_ok_iff hop] at h
  obtain ⟨o, ho, -⟩ := h
  exact ⟨o, ho⟩

theorem exists_ordered_of_le (h : (compare l .le r).holds scope = true) :
    ∃ v w o, l.resolve scope = .ok (some v) ∧ r.resolve scope = .ok (some w) ∧ Ordered v w o ∧
      o.isLE = true := by
  cases holds_compare_iff.mp h with
  | presenceLeft _ _ _ presence => cases presence
  | presenceRight _ _ _ presence => cases presence
  | values resolveLeft resolveRight values =>
    obtain ⟨o, ho, haccepts⟩ := (compareValues_eq_ok_iff rfl).mp values
    rw [Comparator.accepts_le] at haccepts
    exact ⟨_, _, o, resolveLeft, resolveRight, ho, haccepts⟩

theorem holds_le_trans {m : Operand} (hlr : (compare l .le r).holds scope = true)
    (hrm : (compare r .le m).holds scope = true) : (compare l .le m).holds scope = true := by
  obtain ⟨u, v, o, hu, hv, huv, ho⟩ := exists_ordered_of_le hlr
  obtain ⟨v', w, p, hv', hw, hvw, hp⟩ := exists_ordered_of_le hrm
  obtain rfl := Option.some.inj (Except.ok.inj (hv.symm.trans hv'))
  obtain ⟨q, huw, hq⟩ := huv.isLE_trans hvw ho hp
  rw [holds_of_ordered hu hw huw .le rfl, Comparator.accepts_le, hq]

/-- Any three operands. A comparison holds exactly if it holds read from the other side. Of two
values that can be compared one is below the other or it is at least the other, and it is above the
other or at most the other, and never both. And if the first operand is at most the second and
this at most the third, the first is at most the third. -/
theorem compare_isOrder (scope : Scope) (l r m : Operand) :
    (∀ op, (compare l op r).holds scope = (compare r op.mirrored l).holds scope) ∧
      (∀ v w b, l.resolve scope = .ok (some v) → r.resolve scope = .ok (some w) →
        (compare l .lt r).evaluate scope = .ok b →
        (compare l .ge r).holds scope = !(compare l .lt r).holds scope ∧
          (compare l .le r).holds scope = !(compare l .gt r).holds scope) ∧
      ((compare l .le r).holds scope = true → (compare r .le m).holds scope = true →
        (compare l .le m).holds scope = true) := by
  refine ⟨fun op => holds_mirrored l r op, fun v w b hl hr h => ?_, holds_le_trans⟩
  obtain ⟨o, ho⟩ := exists_ordered hl hr rfl h
  have hop := holds_of_ordered hl hr ho
  rw [hop .ge rfl, hop .lt rfl, hop .le rfl, hop .gt rfl]
  cases o <;> decide

/-- The last day of February 2024. -/
def leapDay : Date := ⟨19782, by decide, by decide⟩

/-- What a record that was seen at some time is compared by. -/
def seenAt : Operand := .field ⟨["seen_at"], by decide, by decide⟩

theorem resolve_leapDay (record : Json) (facts : RequestFacts) :
    (Operand.today 0).resolve ⟨record, facts, leapDay⟩ = .ok (some (.str "2024-02-29")) := by
  have hshift : shiftDate leapDay 0 = .ok leapDay := by decide +kernel
  have htext : leapDay.text = "2024-02-29".toList := by decide +kernel
  simp only [Operand.resolve, hshift, Json.ofDate, htext, String.ofList_toList]

/-- A moment of the day before, today, and tomorrow. -/
theorem compare_isOrder_days :
    let scope : Scope := ⟨.obj [("seen_at", .str "2024-02-28T23:59:00Z")], {}, leapDay⟩
    let tomorrow : Operand := .literal (.str "2024-03-01")
    (compare seenAt .lt (.today 0)).evaluate scope = .ok true ∧
      (compare seenAt .ge (.today 0)).holds scope = false ∧
      (compare (.today 0) .gt seenAt).holds scope = true ∧
      (compare seenAt .le tomorrow).holds scope = true := by
  intro scope tomorrow
  obtain ⟨hmirrored, hopposed, htrans⟩ := compare_isOrder scope seenAt (.today 0) tomorrow
  have hlt : (compare seenAt .lt (.today 0)).evaluate scope = .ok true := by decide +kernel
  have hholds : (compare seenAt .lt (.today 0)).holds scope = true := holds_iff.mpr hlt
  have hle : (compare seenAt .le (.today 0)).holds scope = true := by decide +kernel
  have hleft : seenAt.resolve scope = .ok (some (.str "2024-02-28T23:59:00Z")) := rfl
  have hright := resolve_leapDay scope.record {}
  refine ⟨hlt, ?_, (hmirrored .lt).symm.trans hholds, htrans hle (by decide +kernel)⟩
  rw [(hopposed _ _ true hleft hright hlt).1, hholds]
  rfl

/-- Two values that can be compared. "At least" is "above or equal", and "at most" is "below or
equal", exactly if the values are not different texts that begin with the same date: these are in
the order of their dates, but equal only as texts. -/
theorem orEqual_iff {b : Bool} (hl : l.resolve scope = .ok (some v))
    (hr : r.resolve scope = .ok (some w)) (h : (compare l .ge r).evaluate scope = .ok b) :
    (((compare l .ge r).holds scope = true ↔
        (compare l .gt r).holds scope = true ∨ (compare l .eq r).holds scope = true) ↔
      ¬DifferWithinDay v w) ∧
    (((compare l .le r).holds scope = true ↔
        (compare l .lt r).holds scope = true ∨ (compare l .eq r).holds scope = true) ↔
      ¬DifferWithinDay v w) := by
  obtain ⟨o, ho⟩ := exists_ordered hl hr rfl h
  have hop := holds_of_ordered hl hr ho
  rw [hop .ge rfl, hop .gt rfl, hop .le rfl, hop .lt rfl, holds_eq_of_values hl hr,
    ho.looselyEqual_iff]
  by_cases hd : DifferWithinDay v w
  · obtain rfl := ho.unique hd.ordered
    simp [Comparator.accepts, hd]
  · cases o <;> simp [Comparator.accepts, hd]

/-- A numeral and a number. -/
theorem orEqual_iff_numeral :
    let scope : Scope := ⟨.obj [("seen_at", .str " 80 ")], {}, leapDay⟩
    let eighty : Operand := .literal (.ofNat 80)
    seenAt.resolve scope = .ok (some (.str " 80 ")) ∧
      eighty.resolve scope = .ok (some (.ofNat 80)) ∧
      (compare seenAt .ge eighty).evaluate scope = .ok true ∧
      (compare seenAt .gt eighty).holds scope = false ∧
      (compare seenAt .eq eighty).holds scope = true := by
  intro scope eighty
  have hleft : seenAt.resolve scope = .ok (some (.str " 80 ")) := rfl
  have hright : eighty.resolve scope = .ok (some (.ofNat 80)) := rfl
  have hge : (compare seenAt .ge eighty).evaluate scope = .ok true := by decide +kernel
  have hgt : (compare seenAt .gt eighty).holds scope = false := by decide +kernel
  have hiff := (orEqual_iff hleft hright hge).1.mpr nofun
  exact ⟨hleft, hright, hge, hgt, (hiff.mp (holds_iff.mpr hge)).resolve_left (by simp [hgt])⟩

/-- A moment of today is at least today, and neither above it nor equal to it. -/
theorem moment_not_orEqual :
    let scope : Scope := ⟨.obj [("seen_at", .str "2024-02-29T10:00:00Z")], {}, leapDay⟩
    seenAt.resolve scope = .ok (some (.str "2024-02-29T10:00:00Z")) ∧
      (Operand.today 0).resolve scope = .ok (some (.str "2024-02-29")) ∧
      (compare seenAt .ge (.today 0)).evaluate scope = .ok true ∧
      ¬((compare seenAt .ge (.today 0)).holds scope = true ↔
        (compare seenAt .gt (.today 0)).holds scope = true ∨
          (compare seenAt .eq (.today 0)).holds scope = true) := by
  intro scope
  have hgt : (compare seenAt .gt (.today 0)).holds scope = false := by decide +kernel
  have heq : (compare seenAt .eq (.today 0)).holds scope = false := by decide +kernel
  have hge : (compare seenAt .ge (.today 0)).evaluate scope = .ok true := by decide +kernel
  refine ⟨rfl, resolve_leapDay _ _, hge, ?_⟩
  rw [hgt, heq, holds_iff.mpr hge]
  decide

end Clause

end Bylaw
