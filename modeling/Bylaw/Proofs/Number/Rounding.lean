import Bylaw.Number.Binary64
import Mathlib.Algebra.Order.Field.Power
import Mathlib.Data.Int.Log
import Mathlib.Data.Rat.Floor
import Mathlib.Tactic.FieldSimp
import Mathlib.Tactic.Linarith
import Mathlib.Tactic.Ring

/-! Rounding of ratios. Main statements: the rank that a ratio is rounded to depends on its value
only, and the value of a double is rounded to that double. -/

namespace Bylaw.Binary64

/-- The magnitude of a double. -/
def value (x : Binary64) : ℚ := x.significand * (2 : ℚ) ^ x.exponent

theorem scaleDown_snd_pos {n d : ℕ} (hd : 0 < d) (e : ℤ) : 0 < (scaleDown n d e).2 := by
  unfold scaleDown
  split
  · exact Nat.mul_pos hd (Nat.pow_pos (by decide))
  · exact hd

theorem scaleDown_mul (n d c : ℕ) (e : ℤ) :
    scaleDown (n * c) (d * c) e = ((scaleDown n d e).1 * c, (scaleDown n d e).2 * c) := by
  unfold scaleDown
  split
  · rw [Nat.mul_right_comm]
  · rw [Nat.mul_right_comm]

theorem scaleDown_value (n d : ℕ) (e : ℤ) :
    ((scaleDown n d e).1 : ℚ) / (scaleDown n d e).2 = (n : ℚ) / d / 2 ^ e := by
  unfold scaleDown
  split
  · rename_i h
    obtain ⟨k, rfl⟩ := Int.eq_ofNat_of_zero_le h
    simp only [Int.toNat_natCast, Nat.pow_eq, Nat.cast_mul, Nat.cast_pow, Nat.cast_ofNat,
      zpow_natCast, div_div]
  · rename_i h
    obtain ⟨k, hk⟩ := Int.eq_ofNat_of_zero_le (show 0 ≤ -e by omega)
    obtain rfl : e = -(k : ℤ) := by omega
    simp only [neg_neg, Int.toNat_natCast, Nat.pow_eq, Nat.cast_mul, Nat.cast_pow, Nat.cast_ofNat,
      zpow_neg, zpow_natCast, div_inv_eq_mul]
    ring

theorem zpow_log2_le {n : ℕ} (hn : 0 < n) : (2 : ℚ) ^ (Nat.log2 n : ℤ) ≤ n := by
  rw [zpow_natCast]
  exact_mod_cast Nat.log2_self_le hn.ne'

theorem lt_zpow_log2 (n : ℕ) : (n : ℚ) < 2 ^ ((Nat.log2 n : ℤ) + 1) := by
  have h : (n : ℚ) < ((2 ^ (Nat.log2 n + 1) : ℕ) : ℚ) := by exact_mod_cast Nat.lt_log2_self
  calc (n : ℚ) < ((2 ^ (Nat.log2 n + 1) : ℕ) : ℚ) := h
    _ = 2 ^ ((Nat.log2 n : ℤ) + 1) := by
      rw [Nat.cast_pow, Nat.cast_ofNat, ← zpow_natCast, Nat.cast_add, Nat.cast_one]

/-- The value of a ratio lies between two powers of two that the bits of its parts tell. -/
theorem log_ratio_bounds {n d : ℕ} (hn : 0 < n) (hd : 0 < d) :
    (Nat.log2 n : ℤ) - Nat.log2 d - 1 ≤ Int.log 2 ((n : ℚ) / d) ∧
      Int.log 2 ((n : ℚ) / d) ≤ (Nat.log2 n : ℤ) - Nat.log2 d := by
  have hq : (0 : ℚ) < n / d := by positivity
  have hd' : (0 : ℚ) < d := by exact_mod_cast hd
  have h2 : (2 : ℚ) ≠ 0 := by norm_num
  constructor
  -- The power of two below the numerator, over the one above the denominator.
  · rw [← Int.zpow_le_iff_le_log (by decide) hq, Nat.cast_ofNat, le_div_iff₀ hd']
    calc (2 : ℚ) ^ ((Nat.log2 n : ℤ) - Nat.log2 d - 1) * d
        ≤ 2 ^ ((Nat.log2 n : ℤ) - Nat.log2 d - 1) * 2 ^ ((Nat.log2 d : ℤ) + 1) := by
          gcongr
          exact (lt_zpow_log2 d).le
      _ = 2 ^ (Nat.log2 n : ℤ) := by
          rw [← zpow_add₀ h2]
          congr 1
          omega
      _ ≤ n := zpow_log2_le hn
  · rw [← Int.lt_add_one_iff, ← Int.lt_zpow_iff_log_lt (by decide) hq, Nat.cast_ofNat,
      div_lt_iff₀ hd']
    calc (n : ℚ) < 2 ^ ((Nat.log2 n : ℤ) + 1) := lt_zpow_log2 n
      _ = 2 ^ ((Nat.log2 n : ℤ) - Nat.log2 d + 1) * 2 ^ (Nat.log2 d : ℤ) := by
          rw [← zpow_add₀ h2]
          congr 1
          omega
      _ ≤ 2 ^ ((Nat.log2 n : ℤ) - Nat.log2 d + 1) * d := by
          gcongr
          exact zpow_log2_le hd

/-- Whether the quotient of a ratio that is scaled down fits some bits is told by its value. -/
theorem scaleDown_div_lt_iff {n d : ℕ} (hn : 0 < n) (hd : 0 < d) (e : ℤ) (k : ℕ) :
    (scaleDown n d e).1 / (scaleDown n d e).2 < 2 ^ k ↔ Int.log 2 ((n : ℚ) / d) < k + e := by
  have hq : (0 : ℚ) < n / d := by positivity
  have hp : (0 : ℚ) < (scaleDown n d e).2 := by exact_mod_cast scaleDown_snd_pos hd e
  have h2 : (0 : ℚ) < 2 ^ e := by positivity
  rw [Nat.div_lt_iff_lt_mul (scaleDown_snd_pos hd e), ← Int.lt_zpow_iff_log_lt (by decide) hq,
    Nat.cast_ofNat, zpow_add₀ (by norm_num), zpow_natCast, ← div_lt_iff₀ h2, ← scaleDown_value,
    div_lt_iff₀ hp]
  exact_mod_cast Iff.rfl

/-- The exponent of a ratio is that of the power of two below its value, moved by the bits of a
significand. -/
theorem ratioExponent_eq {n d : ℕ} (hn : 0 < n) (hd : 0 < d) :
    ratioExponent n d = max (-1074) (Int.log 2 ((n : ℚ) / d) - 52) := by
  obtain ⟨hlow, hhigh⟩ := log_ratio_bounds hn hd
  have htest := scaleDown_div_lt_iff hn hd ((Nat.log2 n : ℤ) - Nat.log2 d - 53) 53
  unfold ratioExponent
  simp only
  congr 1
  split
  · rename_i h
    have := htest.mp h
    omega
  · rename_i h
    have := mt htest.mpr h
    omega

theorem roundHalfEven_mul {c : ℕ} (hc : 0 < c) (n d : ℕ) :
    roundHalfEven (n * c) (d * c) = roundHalfEven n d := by
  have hlt : 2 * (n % d * c) < d * c ↔ 2 * (n % d) < d := by
    rw [← Nat.mul_assoc, Nat.mul_lt_mul_right hc]
  have hgt : d * c < 2 * (n % d * c) ↔ d < 2 * (n % d) := by
    rw [← Nat.mul_assoc, Nat.mul_lt_mul_right hc]
  simp only [roundHalfEven, Nat.mul_div_mul_right _ _ hc, Nat.mul_mod_mul_right, hlt, hgt]

theorem roundHalfEven_of_exact {d : ℕ} (hd : 0 < d) (m : ℕ) : roundHalfEven (m * d) d = m := by
  simp [roundHalfEven, hd]

theorem roundRank_mul {n d c : ℕ} (hd : 0 < d) (hc : 0 < c) :
    roundRank (n * c) (d * c) = roundRank n d := by
  rcases Nat.eq_zero_or_pos n with rfl | hn
  · rw [Nat.zero_mul, roundRank, roundRank, if_pos rfl, if_pos rfl]
  · have he : ratioExponent (n * c) (d * c) = ratioExponent n d := by
      rw [ratioExponent_eq (Nat.mul_pos hn hc) (Nat.mul_pos hd hc), ratioExponent_eq hn hd]
      push_cast
      rw [mul_div_mul_right _ _ (by exact_mod_cast hc.ne')]
    rw [roundRank, roundRank, if_neg (Nat.mul_pos hn hc).ne', if_neg hn.ne', he]
    simp only [scaleDown_mul, roundHalfEven_mul hc]

theorem roundRank_congr {n d n' d' : ℕ} (hd : 0 < d) (hd' : 0 < d')
    (h : (n : ℚ) / d = n' / d') : roundRank n d = roundRank n' d' := by
  have hcross : n * d' = n' * d := by
    have hq : (0 : ℚ) < d := by exact_mod_cast hd
    have hq' : (0 : ℚ) < d' := by exact_mod_cast hd'
    rw [div_eq_div_iff hq.ne' hq'.ne'] at h
    exact_mod_cast h
  rw [← roundRank_mul hd hd', hcross, Nat.mul_comm d d', roundRank_mul hd' hd]

theorem ofRatio_congr {n d n' d' : ℕ} (hd : 0 < d) (hd' : 0 < d')
    (h : (n : ℚ) / d = n' / d') (negative : Bool) :
    ofRatio negative n d = ofRatio negative n' d' := by
  simp only [ofRatio, roundRank_congr hd hd' h]

theorem significand_lt (x : Binary64) : x.significand < 2 ^ 53 := by
  unfold significand
  split
  · omega
  · omega

/-- A significand is below 53 bits only at the least exponent. -/
theorem normal_or_exponent_eq (x : Binary64) :
    2 ^ 52 ≤ x.significand ∧ -1074 ≤ x.exponent ∨ x.exponent = -1074 := by
  have := x.finite
  unfold significand exponent
  split
  · exact .inr rfl
  · left
    omega

theorem rank_eq (x : Binary64) :
    (x.exponent + 1074).toNat * 2 ^ 52 + x.significand = x.rank := by
  unfold significand exponent
  split
  · omega
  · omega

theorem value_pos {x : Binary64} (h : 0 < x.significand) : 0 < x.value := by
  have hs : (0 : ℚ) < x.significand := by exact_mod_cast h
  unfold value
  positivity

/-- The exponent of a double is the one that its value is rounded at. -/
theorem exponent_eq (x : Binary64) (h : 0 < x.significand) :
    x.exponent = max (-1074) (Int.log 2 x.value - 52) := by
  have h2 : (0 : ℚ) < 2 ^ x.exponent := by positivity
  have hlt : Int.log 2 x.value < 53 + x.exponent := by
    rw [← Int.lt_zpow_iff_log_lt (by decide) (value_pos h), Nat.cast_ofNat,
      zpow_add₀ (by norm_num), value]
    have hs : (x.significand : ℚ) < 2 ^ 53 := by exact_mod_cast x.significand_lt
    exact mul_lt_mul_of_pos_right (by exact_mod_cast hs) h2
  rcases x.normal_or_exponent_eq with ⟨hs, he⟩ | he
  · have hle : 52 + x.exponent ≤ Int.log 2 x.value := by
      rw [← Int.zpow_le_iff_le_log (by decide) (value_pos h), Nat.cast_ofNat,
        zpow_add₀ (by norm_num), value]
      have hs' : (2 : ℚ) ^ 52 ≤ x.significand := by exact_mod_cast hs
      exact mul_le_mul_of_nonneg_right (by exact_mod_cast hs') h2.le
    omega
  · omega

theorem roundRank_value {n d : ℕ} (hd : 0 < d) (x : Binary64) (h : (n : ℚ) / d = x.value) :
    roundRank n d = x.rank := by
  have h2 : (0 : ℚ) < 2 ^ x.exponent := by positivity
  have hdq : (0 : ℚ) < d := by exact_mod_cast hd
  rw [← x.rank_eq]
  -- Zero is rounded apart from all others.
  rcases Nat.eq_zero_or_pos x.significand with hz | hs
  · have hn : n = 0 := by
      rw [value, hz, Nat.cast_zero, zero_mul, div_eq_zero_iff] at h
      rcases h with h | h
      · exact_mod_cast h
      · exact absurd h hdq.ne'
    rcases x.normal_or_exponent_eq with ⟨hle, -⟩ | he
    · omega
    · rw [roundRank, if_pos hn, hz, he]
      rfl
  · have hn : 0 < n := by
      have := value_pos hs
      rw [← h, div_pos_iff_of_pos_right hdq] at this
      exact_mod_cast this
    have he : ratioExponent n d = x.exponent := by
      rw [ratioExponent_eq hn hd, h, ← x.exponent_eq hs]
    have hv := scaleDown_value n d x.exponent
    have hb := scaleDown_snd_pos (n := n) hd x.exponent
    have hbq : (0 : ℚ) < (scaleDown n d x.exponent).2 := by exact_mod_cast hb
    rw [h, value, mul_div_cancel_right₀ _ h2.ne', div_eq_iff hbq.ne'] at hv
    -- Scaled down by its own exponent, the ratio is the significand, without a rest.
    have ha : (scaleDown n d x.exponent).1 = x.significand * (scaleDown n d x.exponent).2 := by
      exact_mod_cast hv
    rw [roundRank, if_neg hn.ne']
    simp only [he, ha, roundHalfEven_of_exact hb]
    rfl

theorem ofRatio_value {n d : ℕ} (hd : 0 < d) (x : Binary64) (h : (n : ℚ) / d = x.value) :
    ofRatio x.negative n d = some x := by
  simp only [ofRatio, roundRank_value hd x h, x.finite, dif_pos]

end Bylaw.Binary64
