import Bylaw.Number
import Bylaw.Proofs.Number.Rounding

/-! Decimal text of doubles. Main statements: the double nearest to a decimal depends on its value
only, the decimal that a double is written with reads back as that double, and so does its
positional layout. -/

namespace Bylaw

namespace Decimal

theorem ofDigitChars_eq (cs : List Char) : ofDigitChars cs = Nat.ofDigitChars 10 cs 0 := rfl

theorem ofDigitChars_digitChars (n : ℕ) : ofDigitChars (digitChars n) = n :=
  Nat.ofDigitChars_ten_toDigits

theorem ofDigitChars_append_zeros (cs : List Char) (k : ℕ) :
    ofDigitChars (cs ++ List.replicate k '0') = ofDigitChars cs * 10 ^ k := by
  rw [ofDigitChars_eq, Nat.ofDigitChars_append, Nat.ofDigitChars_replicate_zero, Nat.mul_comm]
  rfl

theorem ofDigitChars_zeros_append (cs : List Char) (k : ℕ) :
    ofDigitChars (List.replicate k '0' ++ cs) = ofDigitChars cs := by
  rw [ofDigitChars_eq, Nat.ofDigitChars_append, Nat.ofDigitChars_replicate_zero, Nat.mul_zero]
  rfl

theorem isDigit_of_mem_digitChars {n : ℕ} {c : Char} (h : c ∈ digitChars n) : c.isDigit :=
  Nat.isDigit_of_mem_toDigits (by decide) (by decide) h

theorem digitChars_ne_nil (n : ℕ) : digitChars n ≠ [] := Nat.toDigits_ne_nil

theorem digitChars_mul_ten {n : ℕ} (hn : 0 < n) : digitChars (n * 10) = digitChars n ++ ['0'] := by
  rw [digitChars, digitChars, Nat.toDigits_of_base_le (by decide) (by omega),
    Nat.mul_div_cancel _ (by decide), Nat.mul_mod_left]
  rfl

theorem length_digitChars_mul_pow {n : ℕ} (hn : 0 < n) (k : ℕ) :
    (digitChars (n * 10 ^ k)).length = (digitChars n).length + k := by
  induction k with
  | zero => rw [Nat.pow_zero, Nat.mul_one, Nat.add_zero]
  | succ k ih =>
    rw [Nat.pow_succ, ← Nat.mul_assoc,
      digitChars_mul_ten (Nat.mul_pos hn (Nat.pow_pos (by decide))), List.length_append, ih]
    rfl

end Decimal

namespace Binary64

/-- A decimal as a ratio. -/
def decimalRatio (digits : ℕ) (exponent : ℤ) : ℕ × ℕ :=
  if 0 ≤ exponent then (digits * Nat.pow 10 exponent.toNat, 1)
  else (digits, Nat.pow 10 (-exponent).toNat)

theorem decimalRatio_snd_pos (digits : ℕ) (exponent : ℤ) :
    0 < (decimalRatio digits exponent).2 := by
  unfold decimalRatio
  split
  · exact Nat.one_pos
  · exact Nat.pow_pos (by decide)

theorem decimalRatio_value (digits : ℕ) (exponent : ℤ) :
    ((decimalRatio digits exponent).1 : ℚ) / (decimalRatio digits exponent).2 =
      digits * 10 ^ exponent := by
  unfold decimalRatio
  split
  · rename_i h
    obtain ⟨k, rfl⟩ := Int.eq_ofNat_of_zero_le h
    simp
  · rename_i h
    obtain ⟨k, hk⟩ := Int.eq_ofNat_of_zero_le (show 0 ≤ -exponent by omega)
    obtain rfl : exponent = -(k : ℤ) := by omega
    simp [div_eq_mul_inv]

theorem ofDecimal_eq (negative : Bool) (digits : ℕ) (exponent : ℤ) :
    ofDecimal negative digits exponent =
      if digits = 0 then some (zero negative)
      else if 400 < ((Decimal.digitChars digits).length : ℤ) + exponent then none
      else if ((Decimal.digitChars digits).length : ℤ) + exponent < -400 then some (zero negative)
      else ofRatio negative (decimalRatio digits exponent).1 (decimalRatio digits exponent).2 := by
  unfold ofDecimal decimalRatio Decimal.digitChars
  split
  · rfl
  · simp only
    split
    · rfl
    · split
      · rfl
      · split <;> rfl

/-- Zeros at the end of the digits can be moved into the exponent. -/
theorem ofDecimal_shift (negative : Bool) (m k : ℕ) (e : ℤ) :
    ofDecimal negative (m * 10 ^ k) e = ofDecimal negative m (e + k) := by
  rcases Nat.eq_zero_or_pos m with rfl | hm
  · rw [Nat.zero_mul, ofDecimal, ofDecimal, if_pos rfl, if_pos rfl]
  have hpos : m * 10 ^ k ≠ 0 := (Nat.mul_pos hm (Nat.pow_pos (by decide))).ne'
  have hplaces : ((Decimal.digitChars (m * 10 ^ k)).length : ℤ) + e =
      (Decimal.digitChars m).length + (e + k) := by
    rw [Decimal.length_digitChars_mul_pow hm]
    push_cast
    omega
  have hvalue : ((decimalRatio (m * 10 ^ k) e).1 : ℚ) / (decimalRatio (m * 10 ^ k) e).2 =
      ((decimalRatio m (e + k)).1 : ℚ) / (decimalRatio m (e + k)).2 := by
    rw [decimalRatio_value, decimalRatio_value, zpow_add₀ (by norm_num), zpow_natCast]
    push_cast
    ring
  rw [ofDecimal_eq, ofDecimal_eq, if_neg hpos, if_neg hm.ne', hplaces,
    ofRatio_congr (decimalRatio_snd_pos _ _) (decimalRatio_snd_pos _ _) hvalue]

theorem ofDecimal_sign (negative other : Bool) (digits : ℕ) (e : ℤ) :
    ofDecimal other digits e =
      (ofDecimal negative digits e).map fun x => { x with negative := other } := by
  rw [ofDecimal_eq, ofDecimal_eq]
  split
  · rfl
  split
  · rfl
  split
  · rfl
  unfold ofRatio
  simp only
  split <;> rfl

theorem exponent_bounds (x : Binary64) : -1074 ≤ x.exponent ∧ x.exponent ≤ 971 := by
  have := x.finite
  unfold exponent
  split
  · omega
  · omega

theorem value_lt (x : Binary64) : x.value < 10 ^ (309 : ℤ) := by
  have hs : (x.significand : ℚ) < 2 ^ (53 : ℤ) := by exact_mod_cast x.significand_lt
  calc x.value < 2 ^ (53 : ℤ) * 2 ^ x.exponent := mul_lt_mul_of_pos_right hs (by positivity)
    _ ≤ 2 ^ (53 : ℤ) * 2 ^ (971 : ℤ) := by
      gcongr
      · norm_num
      · exact x.exponent_bounds.2
    _ ≤ 10 ^ (309 : ℤ) := by
      have h : 2 ^ 53 * 2 ^ 971 ≤ 10 ^ 309 := by decide +kernel
      exact_mod_cast h

theorem le_value {x : Binary64} (h : 0 < x.significand) : (10 : ℚ) ^ (-324 : ℤ) ≤ x.value := by
  have hs : (1 : ℚ) ≤ x.significand := by exact_mod_cast h
  calc (10 : ℚ) ^ (-324 : ℤ) ≤ 1 * 2 ^ (-1074 : ℤ) := by
        have h : 2 ^ 1074 ≤ 10 ^ 324 := by decide +kernel
        have hq : (2 : ℚ) ^ (1074 : ℤ) ≤ 10 ^ (324 : ℤ) := by exact_mod_cast h
        rw [one_mul, zpow_neg, zpow_neg]
        exact inv_anti₀ (by positivity) hq
    _ ≤ x.significand * 2 ^ x.exponent := by
      gcongr
      · norm_num
      · exact x.exponent_bounds.1

theorem eq_zero_of_significand {x : Binary64} (h : x.significand = 0) :
    x = zero x.negative := by
  have hr := x.rank_eq
  have hn := x.normal_or_exponent_eq
  obtain ⟨negative, rank, finite⟩ := x
  obtain rfl : rank = 0 := by
    rcases hn with ⟨hle, -⟩ | he
    · omega
    · rw [h, he] at hr
      exact hr.symm
  rfl

theorem places_of_value {digits : ℕ} {e : ℤ} {x : Binary64} (hd : 0 < digits)
    (h : (digits : ℚ) * 10 ^ e = x.value) :
    ((Decimal.digitChars digits).length : ℤ) + e ≤ 309 ∧
      -324 < ((Decimal.digitChars digits).length : ℤ) + e := by
  have hlen : 0 < (Decimal.digitChars digits).length :=
    List.length_pos_iff.mpr (Decimal.digitChars_ne_nil digits)
  have hsig : 0 < x.significand := by
    by_contra hz
    have hz : x.significand = 0 := by omega
    have hq : (0 : ℚ) < digits * 10 ^ e := by positivity
    rw [h, value, hz, Nat.cast_zero, zero_mul] at hq
    exact lt_irrefl _ hq
  have h10 : (1 : ℚ) < 10 := by norm_num
  constructor
  · -- the digits are at least the power of ten of their first place
    by_contra hlt
    have hge : (10 : ℚ) ^ (((Decimal.digitChars digits).length : ℤ) - 1) ≤ digits := by
      obtain ⟨k, hk⟩ := Nat.exists_eq_add_of_lt hlen
      rw [hk]
      push_cast
      rw [show (0 + (k : ℤ) + 1 - 1) = (k : ℤ) by ring, zpow_natCast]
      rcases Nat.eq_zero_or_pos k with rfl | hk0
      · rw [pow_zero]
        exact_mod_cast hd
      · have := mt (Nat.length_toDigits_le_iff (by decide : 1 < 10) hk0).mpr
          (by rw [← Decimal.digitChars, hk]; omega)
        exact_mod_cast not_lt.mp this
    have hle : (10 : ℚ) ^ (309 : ℤ) ≤ x.value := by
      rw [← h]
      calc (10 : ℚ) ^ (309 : ℤ)
          ≤ 10 ^ (((Decimal.digitChars digits).length : ℤ) - 1 + e) :=
            zpow_le_zpow_right₀ h10.le (by omega)
        _ = 10 ^ (((Decimal.digitChars digits).length : ℤ) - 1) * 10 ^ e :=
            zpow_add₀ (by norm_num) _ _
        _ ≤ digits * 10 ^ e := by gcongr
    exact absurd x.value_lt (not_lt.mpr hle)
  -- the digits are below the power of ten of the place before their first
  · have hlt : (digits : ℚ) < 10 ^ ((Decimal.digitChars digits).length : ℤ) := by
      rw [zpow_natCast]
      exact_mod_cast (Nat.length_toDigits_le_iff (by decide : 1 < 10) hlen).mp le_rfl
    have hx : x.value < 10 ^ (((Decimal.digitChars digits).length : ℤ) + e) := by
      rw [← h, zpow_add₀ (by norm_num)]
      gcongr
    have := (le_value hsig).trans_lt hx
    exact (zpow_lt_zpow_iff_right₀ h10).mp this

/-- A decimal whose value is the magnitude of a double reads as that double. -/
theorem ofDecimal_value {digits : ℕ} {e : ℤ} (x : Binary64)
    (h : (digits : ℚ) * 10 ^ e = x.value) : ofDecimal x.negative digits e = some x := by
  rcases Nat.eq_zero_or_pos digits with rfl | hd
  · have hz : x.significand = 0 := by
      have h2 : (2 : ℚ) ^ x.exponent ≠ 0 := by positivity
      rw [Nat.cast_zero, zero_mul, value, eq_comm, mul_eq_zero] at h
      exact_mod_cast h.resolve_right h2
    rw [ofDecimal, if_pos rfl, ← eq_zero_of_significand hz]
  · obtain ⟨hhigh, hlow⟩ := places_of_value hd h
    rw [ofDecimal_eq, if_neg hd.ne', if_neg (by omega), if_neg (by omega)]
    exact ofRatio_value (decimalRatio_snd_pos _ _) x ((decimalRatio_value _ _).trans h)

end Binary64

namespace Decimal

theorem exact_readsBack (x : Binary64) :
    Binary64.ofDecimal x.negative (exact x).digits (exact x).exponent = some x := by
  apply Binary64.ofDecimal_value
  unfold exact Binary64.value
  split
  · rename_i h
    obtain ⟨k, hk⟩ := Int.eq_ofNat_of_zero_le h
    simp [hk]
  · rename_i h
    obtain ⟨k, hk⟩ := Int.eq_ofNat_of_zero_le (show 0 ≤ -x.exponent by omega)
    have he : x.exponent = -(k : ℤ) := by omega
    have h10 : (10 : ℚ) ^ k = 5 ^ k * 2 ^ k := by rw [← mul_pow]; norm_num
    simp only [he, neg_neg, Int.toNat_natCast, Nat.pow_eq, Nat.cast_mul, Nat.cast_pow,
      Nat.cast_ofNat, zpow_neg, zpow_natCast, h10]
    field_simp

theorem readsBackAs_iff {t : Decimal} {x : Binary64} :
    t.readsBackAs x = true ↔ Binary64.ofDecimal x.negative t.digits t.exponent = some x := by
  unfold readsBackAs
  cases Binary64.ofDecimal x.negative t.digits t.exponent with
  | none => simp
  | some y => simp

theorem readsBackAs_of_nearestAt {x : Binary64} {e : ℤ} {t : Decimal}
    (h : nearestAt x e = some t) : t.readsBackAs x = true := by
  unfold nearestAt at h
  simp only at h
  split at h
  · rename_i hlow hhigh
    obtain rfl := Option.some.inj h
    split
    · exact hlow
    · exact hhigh
  · rename_i hlow _
    obtain rfl := Option.some.inj h
    exact hlow
  · rename_i _ hhigh
    obtain rfl := Option.some.inj h
    exact hhigh
  · cases h

theorem shortest_readsBack (x : Binary64) :
    Binary64.ofDecimal x.negative (shortest x).digits (shortest x).exponent = some x := by
  have hsearch : ∀ (place : ℤ) (fuel count : ℕ), Binary64.ofDecimal x.negative
      (searchFrom x place fuel count).digits (searchFrom x place fuel count).exponent = some x := by
    intro place fuel
    induction fuel with
    | zero => intro count; exact exact_readsBack x
    | succ fuel ih =>
      intro count
      rw [searchFrom]
      cases hn : nearestAt x (place + 1 - count) with
      | some t => exact readsBackAs_iff.mp (readsBackAs_of_nearestAt hn)
      | none => exact ih (count + 1)
  unfold shortest
  split
  · rename_i hz
    rw [Binary64.ofDecimal, if_pos rfl]
    obtain ⟨negative, rank, finite⟩ := x
    obtain rfl : rank = 0 := by simpa [Binary64.isZero] using hz
    rfl
  · exact hsearch _ _ _

theorem trimZeros_append (cs : List Char) :
    (trimZeros cs).1 ++ List.replicate (trimZeros cs).2 '0' = cs := by
  have hsplit : cs = (cs.reverse.dropWhile (· == '0')).reverse ++
      (cs.reverse.takeWhile (· == '0')).reverse := by
    rw [← List.reverse_append, List.takeWhile_append_dropWhile, List.reverse_reverse]
  have hlen : (trimZeros cs).2 = (cs.reverse.takeWhile (· == '0')).length := by
    have := congrArg List.length hsplit
    simp only [List.length_append, List.length_reverse] at this
    simp only [trimZeros, List.length_reverse]
    omega
  have hzeros : (cs.reverse.takeWhile (· == '0')).reverse =
      List.replicate (cs.reverse.takeWhile (· == '0')).length '0' := by
    rw [List.eq_replicate_iff]
    refine ⟨List.length_reverse, fun c hc => ?_⟩
    have hall : (cs.reverse.takeWhile (· == '0')).all (· == '0') = true := List.all_takeWhile
    exact beq_iff_eq.mp (List.all_eq_true.mp hall c (List.mem_reverse.mp hc))
  rw [hlen, ← hzeros]
  exact hsplit.symm

/-- A numeral with a point: digits on both sides of it, which read as a decimal does. -/
structure IsNumeral (cs : List Char) (t : Decimal) (whole fraction : List Char) : Prop where
  text : cs = whole ++ '.' :: fraction
  whole_ne : whole ≠ []
  fraction_ne : fraction ≠ []
  digits : ∀ c ∈ whole ++ fraction, c.isDigit
  reads : ∀ negative, Binary64.ofDecimal negative (ofDigitChars (whole ++ fraction))
    (-fraction.length) = Binary64.ofDecimal negative t.digits t.exponent

theorem isDigit_of_mem_zeros {k : ℕ} {c : Char} (hc : c ∈ List.replicate k '0') : c.isDigit := by
  rw [List.eq_of_mem_replicate hc]
  decide

section Positional

variable {ds : List Char}

/-- The point stands before all digits. -/
theorem IsNumeral.zeros_before (hne : ds ≠ []) (hd : ∀ c ∈ ds, c.isDigit) (k : ℕ) :
    IsNumeral ('0' :: '.' :: (List.replicate k '0' ++ ds)) ⟨ofDigitChars ds, -(k + ds.length)⟩
      ['0'] (List.replicate k '0' ++ ds) where
  text := rfl
  whole_ne := by simp
  fraction_ne := by simp [hne]
  digits := List.forall_mem_append.mpr ⟨fun _ => isDigit_of_mem_zeros (k := 1),
    List.forall_mem_append.mpr ⟨fun _ => isDigit_of_mem_zeros, hd⟩⟩
  reads negative := by
    have hcs : ['0'] ++ (List.replicate k '0' ++ ds) = List.replicate (k + 1) '0' ++ ds := rfl
    rw [hcs, ofDigitChars_zeros_append]
    simp

/-- The point stands behind all digits. -/
theorem IsNumeral.zeros_behind (hne : ds ≠ []) (hd : ∀ c ∈ ds, c.isDigit) (k : ℕ) :
    IsNumeral (ds ++ List.replicate k '0' ++ ['.', '0']) ⟨ofDigitChars ds, k⟩
      (ds ++ List.replicate k '0') ['0'] where
  text := rfl
  whole_ne := by simp [hne]
  fraction_ne := by simp
  digits := List.forall_mem_append.mpr ⟨List.forall_mem_append.mpr
    ⟨hd, fun _ => isDigit_of_mem_zeros⟩, fun _ => isDigit_of_mem_zeros (k := 1)⟩
  reads negative := by
    have hcs : ds ++ List.replicate k '0' ++ ['0'] = ds ++ List.replicate (k + 1) '0' := by
      rw [List.append_assoc, ← List.replicate_succ']
    rw [hcs, ofDigitChars_append_zeros, Binary64.ofDecimal_shift]
    simp

/-- The point stands between two digits. -/
theorem IsNumeral.between (hd : ∀ c ∈ ds, c.isDigit) {n : ℕ} (hn : 0 < n) (hlt : n < ds.length) :
    IsNumeral (ds.take n ++ '.' :: ds.drop n) ⟨ofDigitChars ds, n - ds.length⟩ (ds.take n)
      (ds.drop n) where
  text := rfl
  whole_ne := List.ne_nil_of_length_pos (by rw [List.length_take]; omega)
  fraction_ne := List.ne_nil_of_length_pos (by rw [List.length_drop]; omega)
  digits := by rwa [List.take_append_drop]
  reads negative := by
    rw [List.take_append_drop, List.length_drop, Nat.cast_sub hlt.le, neg_sub]

theorem positional_isNumeral (hne : ds ≠ []) (hd : ∀ c ∈ ds, c.isDigit) (place : ℤ) :
    ∃ whole fraction, IsNumeral (positional ds place)
      ⟨ofDigitChars ds, place + 1 - ds.length⟩ whole fraction := by
  unfold positional
  split
  · have hexponent : place + 1 - ds.length = -((-place - 1).toNat + ds.length) := by omega
    rw [hexponent]
    exact ⟨_, _, .zeros_before hne hd _⟩
  simp only
  split
  · have hexponent : place + 1 - ds.length = (place.toNat + 1 - ds.length : ℕ) := by omega
    rw [hexponent]
    exact ⟨_, _, .zeros_behind hne hd _⟩
  · have hexponent : place + 1 - ds.length = (place.toNat + 1 : ℕ) - ds.length := by omega
    rw [hexponent]
    exact ⟨_, _, .between hd (Nat.succ_pos _) (by omega)⟩

end Positional

theorem trimZeros_ne_nil {n : ℕ} (h : n ≠ 0) : (trimZeros (digitChars n)).1 ≠ [] := by
  intro hnil
  have hvalue := ofDigitChars_digitChars n
  rw [← trimZeros_append (digitChars n), ofDigitChars_append_zeros, hnil] at hvalue
  exact h (by rw [← hvalue]; exact Nat.zero_mul _)

theorem isDigit_of_mem_trimZeros {n : ℕ} {c : Char} (h : c ∈ (trimZeros (digitChars n)).1) :
    c.isDigit := by
  have hall := List.mem_append_left (List.replicate (trimZeros (digitChars n)).2 '0') h
  rw [trimZeros_append] at hall
  exact isDigit_of_mem_digitChars hall

/-- The zeros at the end of the digits are made up for by the place of the first digit. -/
theorem ofDecimal_trimZeros (negative : Bool) (t : Decimal) :
    Binary64.ofDecimal negative (ofDigitChars (trimZeros (digitChars t.digits)).1)
      (t.exponent + (digitChars t.digits).length - 1 + 1 -
        (trimZeros (digitChars t.digits)).1.length) =
      Binary64.ofDecimal negative t.digits t.exponent := by
  have hall := trimZeros_append (digitChars t.digits)
  generalize (trimZeros (digitChars t.digits)).1 = ds at hall ⊢
  generalize (trimZeros (digitChars t.digits)).2 = k at hall
  have hvalue : ofDigitChars ds * 10 ^ k = t.digits := by
    rw [← ofDigitChars_append_zeros, hall, ofDigitChars_digitChars]
  have hplace : t.exponent + (digitChars t.digits).length - 1 + 1 - ds.length = t.exponent + k := by
    rw [← hall, List.length_append, List.length_replicate, Nat.cast_add]
    ring
  rw [hplace, ← hvalue, Binary64.ofDecimal_shift]

theorem text_isNumeral (layout : Layout) (t : Decimal) (he : 'e' ∉ t.text layout) :
    ∃ whole fraction, IsNumeral (t.text layout) t whole fraction := by
  unfold text at he ⊢
  split
  · rename_i hz
    refine ⟨['0'], ['0'], rfl, by simp, by simp, ?_, ?_⟩
    · intro c hc
      obtain rfl : c = '0' := by simpa using hc
      decide
    · intro negative
      rw [hz]
      rfl
  · rename_i hz
    rw [if_neg hz] at he
    simp only at he ⊢
    split
    · obtain ⟨whole, fraction, h⟩ := positional_isNumeral (trimZeros_ne_nil hz)
        (fun _ => isDigit_of_mem_trimZeros) (t.exponent + (digitChars t.digits).length - 1)
      refine ⟨whole, fraction, h.text, h.whole_ne, h.fraction_ne, h.digits, fun negative => ?_⟩
      rw [h.reads, ofDecimal_trimZeros]
    · rename_i hout
      rw [if_neg hout] at he
      exact absurd (by simp [scientific]) he

/-- The characters that numbers are written with. -/
def isNumberPart (c : Char) : Bool := c.isDigit || c == '-' || c == '+' || c == '.' || c == 'e'

theorem isNumberPart_of_isDigit {c : Char} (h : c.isDigit) : isNumberPart c := by
  simp [isNumberPart, h]

theorem isNumberPart_scientific {ds : List Char} (hd : ∀ c ∈ ds, c.isDigit) (place : ℤ) :
    ∀ c ∈ scientific ds place, isNumberPart c := by
  intro c hc
  unfold scientific at hc
  rcases List.mem_append.mp hc with hc | hc
  · split at hc
    · obtain rfl := List.mem_singleton.mp hc
      rfl
    · exact isNumberPart_of_isDigit (hd c hc)
    · rcases List.mem_cons.mp hc with rfl | hc
      · exact isNumberPart_of_isDigit (hd c List.mem_cons_self)
      · rcases List.mem_cons.mp hc with rfl | hc
        · rfl
        · exact isNumberPart_of_isDigit (hd c (List.mem_cons_of_mem _ hc))
  · rcases List.mem_cons.mp hc with rfl | hc
    · rfl
    · rcases List.mem_cons.mp hc with rfl | hc
      · split <;> rfl
      · exact isNumberPart_of_isDigit (isDigit_of_mem_digitChars hc)

theorem isNumberPart_text (layout : Layout) (t : Decimal) :
    ∀ c ∈ t.text layout, isNumberPart c := by
  intro c hc
  unfold text at hc
  split at hc
  · rcases List.mem_cons.mp hc with rfl | hc
    · rfl
    · rcases List.mem_cons.mp hc with rfl | hc
      · rfl
      · obtain rfl := List.mem_singleton.mp hc
        rfl
  · rename_i hz
    simp only at hc
    split at hc
    · obtain ⟨whole, fraction, h⟩ := positional_isNumeral (trimZeros_ne_nil hz)
        (fun _ => isDigit_of_mem_trimZeros) (t.exponent + (digitChars t.digits).length - 1)
      rw [h.text] at hc
      rcases List.mem_append.mp hc with hc | hc
      · exact isNumberPart_of_isDigit (h.digits c (List.mem_append_left _ hc))
      · rcases List.mem_cons.mp hc with rfl | hc
        · rfl
        · exact isNumberPart_of_isDigit (h.digits c (List.mem_append_right _ hc))
    · exact isNumberPart_scientific (fun _ => isDigit_of_mem_trimZeros) _ c hc

end Decimal

theorem Number.isNumberPart_text (n : Number) : ∀ c ∈ n.text, Decimal.isNumberPart c := by
  have hsign (negative : Bool) :
      ∀ c ∈ (if negative then ['-'] else []), Decimal.isNumberPart c := by
    intro c hc
    split at hc
    · obtain rfl := List.mem_singleton.mp hc
      rfl
    · cases hc
  intro c hc
  cases n with
  | int i =>
    rcases List.mem_append.mp hc with hc | hc
    · exact hsign (decide (i.val < 0)) c (by simpa using hc)
    · exact Decimal.isNumberPart_of_isDigit (Decimal.isDigit_of_mem_digitChars hc)
  | real x =>
    rcases List.mem_append.mp hc with hc | hc
    · exact hsign x.negative c hc
    · exact Decimal.isNumberPart_text _ _ c hc

/-- A double that is written without a power of ten is written with a numeral that reads back. -/
theorem Binary64.text_isNumeral (x : Binary64) (he : 'e' ∉ x.text) :
    ∃ whole fraction, x.text = (if x.negative then ['-'] else []) ++ whole ++ '.' :: fraction ∧
      whole ≠ [] ∧ fraction ≠ [] ∧ (∀ c ∈ whole ++ fraction, c.isDigit) ∧
      ∀ negative, ofDecimal negative (Decimal.ofDigitChars (whole ++ fraction)) (-fraction.length) =
        some { x with negative } := by
  have he' : 'e' ∉ (Decimal.shortest x).text .plain := fun h =>
    he (List.mem_append_right _ h)
  obtain ⟨whole, fraction, h⟩ := Decimal.text_isNumeral .plain (Decimal.shortest x) he'
  refine ⟨whole, fraction, ?_, h.whole_ne, h.fraction_ne, h.digits, fun negative => ?_⟩
  · rw [text, h.text, List.append_assoc]
  · rw [h.reads, ofDecimal_sign x.negative, Decimal.shortest_readsBack]
    rfl

end Bylaw
