import Bylaw.Proofs.Number.Monotone

/-! The range of doubles. Main statements: values are in the order of ranks, and sums, products and
quotients of doubles far from the ends of the range are finite. -/

namespace Bylaw.Binary64

theorem value_mono {x y : Binary64} (h : x.rank ≤ y.rank) : x.value ≤ y.value := by
  have hx := x.rank_eq
  have hy := y.rank_eq
  have hlt := x.significand_lt
  have hlt' := y.significand_lt
  have hxe := x.normal_or_exponent_eq
  have hye := y.normal_or_exponent_eq
  have hexp : x.exponent ≤ y.exponent := by omega
  unfold value
  -- Below another exponent even the largest significand is too small.
  rcases hexp.lt_or_eq with hlow | heq
  · have hnormal : (2 : ℚ) ^ 52 ≤ y.significand := by
      have : 2 ^ 52 ≤ y.significand := by omega
      exact_mod_cast this
    calc (x.significand : ℚ) * 2 ^ x.exponent
        ≤ 2 ^ 53 * 2 ^ x.exponent := by
          gcongr
          exact_mod_cast hlt.le
      _ = 2 ^ 52 * 2 ^ (x.exponent + 1) := by
          rw [zpow_add_one₀ (by norm_num)]
          ring
      _ ≤ y.significand * 2 ^ y.exponent := by
          gcongr
          · norm_num
          · omega
  · rw [heq] at hx ⊢
    have hsig : x.significand ≤ y.significand := by omega
    gcongr

theorem value_ofInt_le {i : ℤ} (h : i.natAbs ≤ 2 ^ 63) : (ofInt i).value ≤ 2 ^ 63 := by
  have hsig : (ofInt (2 ^ 63)).significand = 2 ^ 52 := by decide +kernel
  have hexp : (ofInt (2 ^ 63)).exponent = 11 := by decide +kernel
  calc (ofInt i).value ≤ (ofInt (2 ^ 63)).value := value_mono (rank_ofInt_mono (by simpa using h))
    _ = 2 ^ 63 := by
      rw [value, hsig, hexp]
      norm_num

theorem one_le_value_ofInt {i : ℤ} (h : i ≠ 0) : 1 ≤ (ofInt i).value := by
  have hsig : (ofInt 1).significand = 2 ^ 52 := by decide +kernel
  have hexp : (ofInt 1).exponent = -52 := by decide +kernel
  calc 1 = (ofInt 1).value := by
        rw [value, hsig, hexp]
        norm_num
    _ ≤ (ofInt i).value := value_mono (rank_ofInt_mono (Int.natAbs_pos.mpr h))

theorem exists_ofRatio {n d : ℕ} (hd : 0 < d) (h : (n : ℚ) / d ≤ 2 ^ 200) (negative : Bool) :
    ∃ z, ofRatio negative n d = some z := by
  have hrank : roundRank n d < 0x7FF0000000000000 :=
    calc roundRank n d ≤ roundRank (2 ^ 200) 1 :=
          roundRank_mono hd Nat.one_pos (by rw [Nat.cast_one, div_one]; exact_mod_cast h)
      _ < 0x7FF0000000000000 := by decide +kernel
  exact ⟨⟨negative, roundRank n d, hrank⟩, by simp only [ofRatio, hrank, dif_pos]⟩

theorem exists_ofScaled {m : ℕ} {e : ℤ} (h : (m : ℚ) * 2 ^ e ≤ 2 ^ 200) (negative : Bool) :
    ∃ z, ofScaled negative m e = some z := by
  unfold ofScaled
  split
  · rename_i he
    obtain ⟨k, rfl⟩ := Int.eq_ofNat_of_zero_le he
    exact exists_ofRatio Nat.one_pos (by simpa using h) negative
  · rename_i he
    obtain ⟨k, hk⟩ := Int.eq_ofNat_of_zero_le (show 0 ≤ -e by omega)
    obtain rfl : e = -(k : ℤ) := by omega
    exact exists_ofRatio (Nat.pow_pos (by decide)) (by simpa [div_eq_mul_inv] using h) negative

theorem natAbs_numeratorAt {x : Binary64} {e : ℤ} (h : e ≤ x.exponent) :
    ((x.numeratorAt e).natAbs : ℚ) * 2 ^ e = x.value := by
  have habs : (x.numeratorAt e).natAbs = x.significand * 2 ^ (x.exponent - e).toNat := by
    unfold numeratorAt
    simp only
    split <;> simp [Int.natAbs_mul, Int.natAbs_pow]
  obtain ⟨k, hk⟩ := Int.eq_ofNat_of_zero_le (show 0 ≤ x.exponent - e by omega)
  have he : x.exponent = k + e := by omega
  rw [habs, hk, value, he, zpow_add₀ (by norm_num)]
  push_cast
  simp [mul_assoc]

/-- A scale goes to the side of a quotient where it is a whole number. -/
theorem two_pow_toNat_div (e : ℤ) : (2 : ℚ) ^ e.toNat / 2 ^ (-e).toNat = 2 ^ e := by
  rw [← zpow_natCast, ← zpow_natCast, ← zpow_sub₀ (by norm_num), Int.toNat_sub_toNat_neg]

section

variable {x y : Binary64}

theorem exists_add (h : x.value + y.value ≤ 2 ^ 200) : ∃ z, x.add y = some z := by
  unfold add
  simp only
  split
  · exact ⟨_, rfl⟩
  · refine exists_ofScaled (le_trans ?_ h) _
    have habs := Int.natAbs_add_le (x.numeratorAt (min x.exponent y.exponent))
      (y.numeratorAt (min x.exponent y.exponent))
    rw [← natAbs_numeratorAt (min_le_left x.exponent y.exponent),
      ← natAbs_numeratorAt (min_le_right x.exponent y.exponent), ← add_mul]
    gcongr
    exact_mod_cast habs

theorem exists_mul (h : x.value * y.value ≤ 2 ^ 200) : ∃ z, x.mul y = some z := by
  refine exists_ofScaled ?_ _
  calc ((x.significand * y.significand : ℕ) : ℚ) * 2 ^ (x.exponent + y.exponent)
      = x.value * y.value := by
        rw [value, value, zpow_add₀ (by norm_num)]
        push_cast
        ring
    _ ≤ 2 ^ 200 := h

theorem exists_div (hy : 0 < y.value) (h : x.value / y.value ≤ 2 ^ 200) :
    ∃ z, x.div y = some z := by
  have hsig : 0 < y.significand := by
    by_contra hz
    have hz : y.significand = 0 := by omega
    rw [value, hz, Nat.cast_zero, zero_mul] at hy
    exact lt_irrefl _ hy
  refine exists_ofRatio (Nat.mul_pos hsig (Nat.pow_pos (by decide))) (le_of_eq_of_le ?_ h) _
  simp only [Nat.pow_eq]
  push_cast
  rw [mul_div_mul_comm, two_pow_toNat_div, zpow_sub₀ (by norm_num), ← mul_div_mul_comm]
  rfl

end

end Bylaw.Binary64
