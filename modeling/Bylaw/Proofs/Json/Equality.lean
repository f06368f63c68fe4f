import Bylaw.Json.Basic

/-! Equality of values. Main statement: it is reflexive, symmetric and transitive. -/

namespace Bylaw.Json

theorem equal_refl (v : Json) : v.equal v = true := by
  induction v using nesting with
  | null => rfl
  | bool b => exact BEq.rfl
  | num n => exact n.equal_refl
  | str s => exact BEq.rfl
  | arr items ih =>
    rw [equal]
    induction items with
    | nil => rfl
    | cons v vs ihs =>
      obtain ⟨hv, hvs⟩ := List.forall_mem_cons.mp ih
      rw [equalItems, hv, ihs hvs, Bool.and_self]
  | obj fields ih =>
    rw [equal]
    induction fields with
    | nil => rfl
    | cons field fields ihs =>
      obtain ⟨hv, hvs⟩ := List.forall_mem_cons.mp ih
      rw [equalFields, hv, ihs hvs, BEq.rfl, Bool.and_self, Bool.and_self]

theorem equal_symm (v w : Json) : v.equal w = w.equal v := by
  induction v using nesting generalizing w with
  | null => cases w <;> rfl
  | bool b => cases w <;> first | rfl | exact BEq.comm
  | num n => cases w <;> first | rfl | exact Number.equal_symm n _
  | str s => cases w <;> first | rfl | exact BEq.comm
  | arr items ih =>
    cases w with
    | arr others =>
      simp only [equal]
      -- A second induction, along the items, inside the one on the nesting.
      induction items generalizing others with
      | nil => cases others <;> rfl
      | cons v vs ihs =>
        obtain ⟨hv, hvs⟩ := List.forall_mem_cons.mp ih
        cases others with
        | nil => rfl
        | cons w ws => rw [equalItems, equalItems, hv w, ihs hvs ws]
    | _ => rfl
  | obj fields ih =>
    cases w with
    | obj others =>
      simp only [equal]
      induction fields generalizing others with
      | nil => cases others <;> rfl
      | cons field fields ihs =>
        obtain ⟨hv, hvs⟩ := List.forall_mem_cons.mp ih
        cases others with
        | nil => rfl
        | cons other others =>
          rw [equalFields, equalFields, hv other.2, ihs hvs others, BEq.comm (a := field.1)]
    | _ => rfl

theorem equal_trans {u v w : Json} (huv : u.equal v) (hvw : v.equal w) : u.equal w := by
  induction u using nesting generalizing v w with
  | null => cases v <;> cases w <;> simp_all [equal]
  | bool b => cases v <;> cases w <;> simp_all [equal]
  | num n =>
    cases v <;> cases w <;> simp_all only [equal, Bool.false_eq_true]
    exact Number.equal_trans huv hvw
  | str s => cases v <;> cases w <;> simp_all [equal]
  | arr items ih =>
    cases v <;> cases w <;> simp only [equal, Bool.false_eq_true] at huv hvw ⊢
    rename_i mid others
    -- A second induction, along the items, inside the one on the nesting.
    induction items generalizing mid others with
    | nil => cases mid <;> cases others <;> simp_all [equalItems]
    | cons u us ihs =>
      obtain ⟨hu, hus⟩ := List.forall_mem_cons.mp ih
      cases mid <;> cases others <;>
        simp only [equalItems, Bool.and_eq_true, Bool.false_eq_true] at huv hvw ⊢
      exact ⟨hu huv.1 hvw.1, ihs hus _ huv.2 _ hvw.2⟩
  | obj fields ih =>
    cases v <;> cases w <;> simp only [equal, Bool.false_eq_true] at huv hvw ⊢
    rename_i mid others
    induction fields generalizing mid others with
    | nil => cases mid <;> cases others <;> simp_all [equalFields]
    | cons field fields ihs =>
      obtain ⟨hu, hus⟩ := List.forall_mem_cons.mp ih
      cases mid <;> cases others <;>
        simp only [equalFields, Bool.and_eq_true, beq_iff_eq, Bool.false_eq_true] at huv hvw ⊢
      exact ⟨⟨huv.1.1.trans hvw.1.1, hu huv.1.2 hvw.1.2⟩, ihs hus _ huv.2 _ hvw.2⟩

instance : EquivBEq Json where
  rfl := equal_refl _
  symm h := (equal_symm _ _).symm.trans h
  trans := equal_trans

end Bylaw.Json
