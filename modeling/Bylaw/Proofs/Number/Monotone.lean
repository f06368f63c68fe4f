import Bylaw.Proofs.Number.Rounding

/-! Rounding keeps order. Main statements: a larger ratio has no smaller rank, whole numbers of up
to 53 bits keep apart from all others, and so the doubles nearest to whole numbers are in their
order, where they differ. -/

namespace Bylaw.Binary64

theorem roundHalfEven_mono_left {n n' : ℕ} (h : n ≤ n') (d : ℕ) :
    roundHalfEven n d ≤ roundHalfEven n' d := by
  have hle (k : ℕ) : k / d ≤ roundHalfEven k d ∧ roundHalfEven k d ≤ k / d + 1 := by
    unfold roundHalfEven
    simp only
    split_ifs <;> omega
  have hdiv : n / d ≤ n' / d := Nat.div_le_div_right h
  rcases Nat.lt_or_eq_of_le hdiv with hlt | heq
  · exact (hle n).2.trans (Nat.le_trans hlt (hle n').1)
  · -- The quotients agree, so the remainders are in the order of the numerators.
    have hmod : n % d ≤ n' % d := by
      have := Nat.div_add_mod n d
      have := Nat.div_add_mod n' d
      rw [heq] at *
      omega
    unfold roundHalfEven
    simp only [heq]
    split_ifs <;> omega

theorem roundHalfEven_mono {n d n' d' : ℕ} (hd : 0 < d) (hd' : 0 < d')
    (h : (n : ℚ) / d ≤ n' / d') : roundHalfEven n d ≤ roundHalfEven n' d' := by
  have hcross : n * d' ≤ n' * d := by
    rw [div_le_div_iff₀ (by exact_mod_cast hd) (by exact_mod_cast hd')] at h
    exact_mod_cast h
  calc roundHalfEven n d = roundHalfEven (n * d') (d * d') := (roundHalfEven_mul hd' n d).symm
    _ ≤ roundHalfEven (n' * d) (d * d') := roundHalfEven_mono_left hcross _
    _ = roundHalfEven (n' * d) (d' * d) := by rw [Nat.mul_comm d]
    _ = roundHalfEven n' d' := roundHalfEven_mul hd n' d'

/-- The significand that a ratio is rounded to, before a carry. -/
def roundedSignificand (n d : ℕ) : ℕ :=
  roundHalfEven (scaleDown n d (ratioExponent n d)).1 (scaleDown n d (ratioExponent n d)).2

theorem roundRank_eq {n : ℕ} (hn : 0 < n) (d : ℕ) :
    roundRank n d = (ratioExponent n d + 1074).toNat * 2 ^ 52 + roundedSignificand n d := by
  rw [roundRank, if_neg hn.ne']
  rfl

section

variable {n d : ℕ}

theorem le_ratioExponent (hn : 0 < n) (hd : 0 < d) : -1074 ≤ ratioExponent n d := by
  rw [ratioExponent_eq hn hd]
  exact le_max_left _ _

theorem roundedSignificand_le (hn : 0 < n) (hd : 0 < d) : roundedSignificand n d ≤ 2 ^ 53 := by
  have he := ratioExponent_eq hn hd
  have hlt := (scaleDown_div_lt_iff hn hd (ratioExponent n d) 53).mpr (by omega)
  rw [Nat.div_lt_iff_lt_mul (scaleDown_snd_pos hd _)] at hlt
  calc roundedSignificand n d ≤ _ := roundHalfEven_mono_left hlt.le _
    _ = 2 ^ 53 := roundHalfEven_of_exact (scaleDown_snd_pos hd _) _

/-- A significand of fewer bits is rounded to at the least exponent only. -/
theorem le_roundedSignificand (hn : 0 < n) (hd : 0 < d) (he : -1074 < ratioExponent n d) :
    2 ^ 52 ≤ roundedSignificand n d := by
  have heq := ratioExponent_eq hn hd
  have hge := mt (scaleDown_div_lt_iff hn hd (ratioExponent n d) 52).mp (by omega)
  rw [not_lt, Nat.le_div_iff_mul_le (scaleDown_snd_pos hd _)] at hge
  calc 2 ^ 52 = _ := (roundHalfEven_of_exact (scaleDown_snd_pos hd _) _).symm
    _ ≤ roundedSignificand n d := roundHalfEven_mono_left hge _

variable {n' d' : ℕ}

theorem ratioExponent_mono (hn : 0 < n) (hd : 0 < d) (hn' : 0 < n') (hd' : 0 < d')
    (h : (n : ℚ) / d ≤ n' / d') : ratioExponent n d ≤ ratioExponent n' d' := by
  rw [ratioExponent_eq hn hd, ratioExponent_eq hn' hd']
  have := Int.log_mono_right (b := 2) (show (0 : ℚ) < n / d by positivity) h
  omega

/-- Past a carry the next exponent begins. -/
theorem roundRank_le_of_exponent_lt (hn : 0 < n) (hd : 0 < d) (hn' : 0 < n') (hd' : 0 < d')
    (h : ratioExponent n d < ratioExponent n' d') : roundRank n d ≤ roundRank n' d' := by
  have hle := le_ratioExponent hn hd
  have hhigh := roundedSignificand_le hn hd
  have hlow := le_roundedSignificand hn' hd' (by omega)
  rw [roundRank_eq hn, roundRank_eq hn']
  omega

theorem roundRank_mono (hd : 0 < d) (hd' : 0 < d') (h : (n : ℚ) / d ≤ n' / d') :
    roundRank n d ≤ roundRank n' d' := by
  rcases Nat.eq_zero_or_pos n with rfl | hn
  · rw [roundRank, if_pos rfl]
    exact Nat.zero_le _
  have hn' : 0 < n' := by
    have hq : (0 : ℚ) < n' / d' := lt_of_lt_of_le (by positivity) h
    rw [div_pos_iff_of_pos_right (by exact_mod_cast hd')] at hq
    exact_mod_cast hq
  rcases (ratioExponent_mono hn hd hn' hd' h).lt_or_eq with hlt | heq
  · exact roundRank_le_of_exponent_lt hn hd hn' hd' hlt
  · rw [roundRank_eq hn, roundRank_eq hn', roundedSignificand, roundedSignificand, heq]
    refine Nat.add_le_add_left ?_ _
    refine roundHalfEven_mono (scaleDown_snd_pos hd _) (scaleDown_snd_pos hd' _) ?_
    rw [scaleDown_value, scaleDown_value]
    exact div_le_div_of_nonneg_right h (by positivity)

end

section Whole

variable {n m : ℕ}

theorem roundRank_mono_whole (h : n ≤ m) : roundRank n 1 ≤ roundRank m 1 :=
  roundRank_mono Nat.one_pos Nat.one_pos (by simpa using h)

theorem ratioExponent_whole (hn : 0 < n) :
    ratioExponent n 1 = max (-1074) (Int.log 2 (n : ℚ) - 52) := by
  rw [ratioExponent_eq hn Nat.one_pos, Nat.cast_one, div_one]

theorem scaleDown_whole {e : ℤ} (he : e ≤ 0) : scaleDown n 1 e = (n * 2 ^ (-e).toNat, 1) := by
  unfold scaleDown
  split
  · obtain rfl : e = 0 := by omega
    simp
  · rfl

/-- Scaled up, a whole number needs no rounding. -/
theorem roundedSignificand_whole (he : ratioExponent n 1 ≤ 0) :
    roundedSignificand n 1 = n * 2 ^ (-ratioExponent n 1).toNat := by
  rw [roundedSignificand, scaleDown_whole he]
  simpa using roundHalfEven_of_exact Nat.one_pos (n * 2 ^ (-ratioExponent n 1).toNat)

/-- A whole number of up to 53 bits is scaled up, to a significand that needs no carry. -/
theorem ratioExponent_of_lt (hn : 0 < n) (h : n < 2 ^ 53) :
    ratioExponent n 1 ≤ 0 ∧ roundedSignificand n 1 < 2 ^ 53 := by
  have hlog : Int.log 2 (n : ℚ) < 53 := by
    rw [← Int.lt_zpow_iff_log_lt (by decide) (by exact_mod_cast hn)]
    exact_mod_cast h
  have heq := ratioExponent_whole hn
  have he : ratioExponent n 1 ≤ 0 := by omega
  refine ⟨he, ?_⟩
  have hbits := (scaleDown_div_lt_iff hn Nat.one_pos (ratioExponent n 1) 53).mpr (by
    rw [Nat.cast_one, div_one]
    omega)
  rw [scaleDown_whole he, Nat.div_one] at hbits
  rwa [roundedSignificand_whole he]

/-- A whole number of up to 53 bits has a smaller rank than all that are above it. -/
theorem roundRank_lt (hn : n < 2 ^ 53) (h : n < m) : roundRank n 1 < roundRank m 1 := by
  have hm : 0 < m := by omega
  have hlow : -52 ≤ ratioExponent m 1 := by
    have hlog : (0 : ℤ) ≤ Int.log 2 (m : ℚ) := by
      rw [Int.log_natCast]
      exact Int.natCast_nonneg _
    rw [ratioExponent_whole hm]
    omega
  rcases Nat.eq_zero_or_pos n with rfl | hn0
  · rw [roundRank_eq hm, roundRank, if_pos rfl]
    omega
  obtain ⟨he, hbits⟩ := ratioExponent_of_lt hn0 hn
  have hge := le_ratioExponent hn0 Nat.one_pos
  rw [roundRank_eq hn0, roundRank_eq hm]
  rcases (ratioExponent_mono hn0 Nat.one_pos hm Nat.one_pos (by simpa using h.le)).lt_or_eq with
    hlt | heq
  · have := le_roundedSignificand hm Nat.one_pos (by omega)
    omega
  · -- At one exponent the significands are in the order of the numbers.
    rw [roundedSignificand_whole he, roundedSignificand_whole (heq ▸ he), heq]
    have := Nat.mul_lt_mul_of_pos_right h (Nat.two_pow_pos (-ratioExponent m 1).toNat)
    omega

end Whole

section Integers

variable {i j : ℤ}

theorem rank_ofInt_lt (hi : i.natAbs < 2 ^ 53) (h : i.natAbs < j.natAbs) :
    (ofInt i).rank < (ofInt j).rank := by
  have hlt := roundRank_lt hi h
  have hmax := roundRank_mono_whole hi.le
  have hbound : roundRank (2 ^ 53) 1 = 0x4340000000000000 := by decide +kernel
  simp only [ofInt]
  omega

theorem rank_ofInt_mono (h : i.natAbs ≤ j.natAbs) : (ofInt i).rank ≤ (ofInt j).rank := by
  have hmono := roundRank_mono_whole h
  simp only [ofInt]
  omega

theorem key_ofInt_mono (h : i ≤ j) : (ofInt i).key ≤ (ofInt j).key := by
  have hneg (k : ℤ) : (ofInt k).negative = decide (k < 0) := rfl
  simp only [key, hneg, decide_eq_true_eq]
  split_ifs with hi hj hj
  · have := rank_ofInt_mono (i := j) (j := i) (by omega)
    omega
  · omega
  · omega
  · have := rank_ofInt_mono (i := i) (j := j) (by omega)
    omega

/-- A double other than zero is nearest only to whole numbers of its sign. -/
theorem rank_ofInt_pos (h : i ≠ 0) : 0 < (ofInt i).rank := by
  have := rank_ofInt_lt (i := 0) (j := i) (by decide) (by simpa using Int.natAbs_pos.mpr h)
  omega

theorem eq_of_sign_of_rank {x y : Binary64} (hsign : x.negative = y.negative)
    (hrank : x.rank = y.rank) : x = y := by
  cases x
  cases y
  cases hsign
  cases hrank
  rfl

theorem ofInt_eq_iff : ofInt i = ofInt j ↔ (ofInt i).key = (ofInt j).key := by
  refine ⟨congrArg key, fun h => ?_⟩
  have hneg (k : ℤ) : (ofInt k).negative = decide (k < 0) := rfl
  have hi := @rank_ofInt_pos i
  have hj := @rank_ofInt_pos j
  simp only [key, hneg, decide_eq_true_eq] at h
  have hsign : (i < 0 ↔ j < 0) ∧ (ofInt i).rank = (ofInt j).rank := by
    split_ifs at h with hi hj hj <;> omega
  exact eq_of_sign_of_rank (by rw [hneg, hneg, decide_eq_decide]; exact hsign.1) hsign.2

/-- Whole numbers that are nearest to one double have more than 53 bits. -/
theorem le_natAbs_of_ofInt_eq (h : ofInt i = ofInt j) (hne : i ≠ j) : 2 ^ 53 ≤ i.natAbs := by
  by_contra hi
  have hrank : (ofInt i).rank = (ofInt j).rank := congrArg rank h
  have hsign : decide (i < 0) = decide (j < 0) := congrArg negative h
  rw [decide_eq_decide] at hsign
  rcases Nat.lt_trichotomy i.natAbs j.natAbs with hlt | heq | hgt
  · have := rank_ofInt_lt (not_le.mp hi) hlt
    omega
  · omega
  · have := rank_ofInt_lt (by omega) hgt
    omega

end Integers

end Bylaw.Binary64
