import RSearch.Lib.Float64

/-!
# Rounding keeps powers of two

A power of two in the range of a double is a double, so rounding cannot carry a number across it.  The
bits of `2 ^ j` are `(j + 1023) * 2 ^ 52`, and bits and values are ordered alike.
-/

namespace F64

/-! ### The exponent -/

variable {q : ℚ}

theorem two_zpow_exponent_le (hq : 0 < q) : (2 : ℚ) ^ exponent q ≤ q := by
  have hnum : q.num.toNat ≠ 0 := by
    have := Rat.num_pos.mpr hq
    omega
  have hlow : (2 : ℚ) ^ q.num.toNat.log2 ≤ q.num.toNat := by
    exact_mod_cast Nat.log2_self_le hnum
  have hhigh : (q.den : ℚ) ≤ 2 ^ (q.den.log2 + 1) := by
    exact_mod_cast Nat.lt_log2_self.le
  unfold exponent
  simp only
  split_ifs with h
  · exact h
  · have hnumq : (q.num.toNat : ℚ) = q.num := by
      exact_mod_cast Int.toNat_of_nonneg (Rat.num_nonneg.mpr hq.le)
    calc (2 : ℚ) ^ ((q.num.toNat.log2 : ℤ) - q.den.log2 - 1)
        = 2 ^ q.num.toNat.log2 / 2 ^ (q.den.log2 + 1) := by
          rw [sub_sub, zpow_sub₀ two_ne_zero]
          norm_cast
      _ ≤ q.num.toNat / q.den := by
          gcongr
      _ = q := by rw [hnumq, Rat.num_div_den]

theorem lt_two_zpow_exponent (hq : 0 < q) : q < (2 : ℚ) ^ (exponent q + 1) := by
  have hhigh : (q.num.toNat : ℚ) < 2 ^ (q.num.toNat.log2 + 1) := by
    exact_mod_cast Nat.lt_log2_self
  have hlow : (2 : ℚ) ^ q.den.log2 ≤ q.den := by
    exact_mod_cast Nat.log2_self_le q.den_nz
  unfold exponent
  simp only
  split_ifs with h
  · have hnumq : (q.num.toNat : ℚ) = q.num := by
      exact_mod_cast Int.toNat_of_nonneg (Rat.num_nonneg.mpr hq.le)
    calc q = q.num.toNat / q.den := by rw [hnumq, Rat.num_div_den]
      _ < 2 ^ (q.num.toNat.log2 + 1) / 2 ^ q.den.log2 := by
          gcongr
      _ = (2 : ℚ) ^ ((q.num.toNat.log2 : ℤ) - q.den.log2 + 1) := by
          rw [sub_add_eq_add_sub, zpow_sub₀ two_ne_zero]
          norm_cast
  · rw [sub_add_cancel]
    exact not_le.mp h

/-! ### The magnitude -/

theorem le_roundHalfEven {n : ℕ} (h : (n : ℚ) ≤ q) : n ≤ roundHalfEven q := by
  have hfloor : n ≤ q.floor.toNat := by
    have : (n : ℤ) ≤ q.floor := Rat.le_floor_iff.mpr (by exact_mod_cast h)
    omega
  unfold roundHalfEven
  simp only
  split_ifs <;> omega

theorem roundHalfEven_le {n : ℕ} (h : q ≤ n) : roundHalfEven q ≤ n := by
  have hfloor : q.floor.toNat ≤ n := by
    have : q.floor ≤ n := by exact_mod_cast (Rat.floor_le q).trans h
    omega
  unfold roundHalfEven
  simp only
  rcases hfloor.lt_or_eq with hlt | heq
  · split_ifs <;> omega
  · -- nothing is left to round up
    have hrest : q - (q.floor.toNat : ℚ) < 1 / 2 := by
      rw [heq]
      linarith
    rw [if_pos hrest, heq]

section Magnitude

variable {q : ℚ} {j : ℤ}

theorem le_roundMagnitude (hlo : -1022 ≤ j) (hhi : j ≤ 1024) (h : (2 : ℚ) ^ j ≤ q) :
    (j + 1023).toNat * 2 ^ 52 ≤ roundMagnitude q := by
  have hq : 0 < q := lt_of_lt_of_le (zpow_pos two_pos j) h
  have hexp : j ≤ exponent q := by
    have := (zpow_lt_zpow_iff_right₀ (one_lt_two (α := ℚ))).mp (h.trans_lt (lt_two_zpow_exponent hq))
    omega
  have hk : max (exponent q - 52) (-1074) = exponent q - 52 := max_eq_left (by omega)
  have hquanta : ((2 ^ 52 : ℕ) : ℚ) ≤ q / 2 ^ (exponent q - 52) := by
    rw [le_div_iff₀ (zpow_pos two_pos _), Nat.cast_pow, Nat.cast_ofNat, ← zpow_natCast,
      ← zpow_add₀ two_ne_zero]
    have := two_zpow_exponent_le hq
    rwa [show ((52 : ℕ) : ℤ) + (exponent q - 52) = exponent q by omega]
  have hround := le_roundHalfEven hquanta
  rw [roundMagnitude, if_neg hq.ne']
  simp only [hk]
  have hinf : (j + 1023).toNat * 2 ^ 52 ≤ infBits := by
    exact Nat.mul_le_mul_right _ (by omega)
  omega

theorem roundMagnitude_le (hnormal : (2 : ℚ) ^ (-1022 : ℤ) ≤ q) (h : q ≤ (2 : ℚ) ^ j) :
    roundMagnitude q ≤ (j + 1023).toNat * 2 ^ 52 := by
  have hq : 0 < q := lt_of_lt_of_le (zpow_pos two_pos _) hnormal
  have hexp : exponent q ≤ j := (zpow_le_zpow_iff_right₀ (one_lt_two (α := ℚ))).mp
    ((two_zpow_exponent_le hq).trans h)
  have hlo : -1022 < exponent q + 1 := (zpow_lt_zpow_iff_right₀ (one_lt_two (α := ℚ))).mp
    (hnormal.trans_lt (lt_two_zpow_exponent hq))
  have hk : max (exponent q - 52) (-1074) = exponent q - 52 := max_eq_left (by omega)
  rw [roundMagnitude, if_neg hq.ne']
  simp only [hk]
  -- at the power itself there are 2 ^ 52 quanta, below it at most 2 ^ 53 of half the size
  rcases hexp.eq_or_lt with rfl | hlt
  · have hquanta : q / 2 ^ (exponent q - 52) ≤ ((2 ^ 52 : ℕ) : ℚ) := by
      rw [div_le_iff₀ (zpow_pos two_pos _), Nat.cast_pow, Nat.cast_ofNat, ← zpow_natCast,
        ← zpow_add₀ two_ne_zero]
      rwa [show ((52 : ℕ) : ℤ) + (exponent q - 52) = exponent q by omega]
    have := roundHalfEven_le hquanta
    omega
  · have hquanta : q / 2 ^ (exponent q - 52) ≤ ((2 ^ 53 : ℕ) : ℚ) := by
      rw [div_le_iff₀ (zpow_pos two_pos _), Nat.cast_pow, Nat.cast_ofNat, ← zpow_natCast,
        ← zpow_add₀ two_ne_zero]
      rw [show ((53 : ℕ) : ℤ) + (exponent q - 52) = exponent q + 1 by omega]
      exact (lt_two_zpow_exponent hq).le
    have := roundHalfEven_le hquanta
    omega

theorem roundMagnitude_le_infBits (q : ℚ) : roundMagnitude q ≤ infBits := by
  unfold roundMagnitude
  split_ifs
  · exact Nat.zero_le _
  · exact min_le_right _ _

theorem two_zpow_le_magnitudeValue {m : ℕ} (hlo : -1022 ≤ j) (h : (j + 1023).toNat * 2 ^ 52 ≤ m) :
    (2 : ℚ) ^ j ≤ magnitudeValue m := by
  rw [magnitudeValue, if_neg (by omega)]
  calc (2 : ℚ) ^ j ≤ 2 ^ (52 + ((m / 2 ^ 52 : ℕ) - 1075 : ℤ)) :=
        zpow_le_zpow_right₀ one_le_two (by omega)
    _ = ((2 ^ 52 : ℕ) : ℚ) * 2 ^ ((m / 2 ^ 52 : ℕ) - 1075 : ℤ) := by
        rw [zpow_add₀ two_ne_zero]
        norm_num
    _ ≤ ((2 ^ 52 + m % 2 ^ 52 : ℕ) : ℚ) * 2 ^ ((m / 2 ^ 52 : ℕ) - 1075 : ℤ) := by
        gcongr
        exact Nat.le_add_right _ _

end Magnitude

/-! ### The float -/

section Round

variable {negative : Bool} {q : ℚ} {j : ℤ}

theorem toNat_bits_round : (round negative q).bits.toNat =
    roundMagnitude |q| + if negative then 2 ^ 63 else 0 := by
  rw [round, UInt64.toNat_ofNat']
  have := roundMagnitude_le_infBits |q|
  unfold infBits at this
  split_ifs <;> omega

theorem magnitude_round : (round negative q).magnitude = roundMagnitude |q| := by
  have := roundMagnitude_le_infBits |q|
  unfold infBits at this
  rw [magnitude, toNat_bits_round]
  split_ifs <;> omega

theorem isNegative_round : (round negative q).isNegative = negative := by
  have := roundMagnitude_le_infBits |q|
  unfold infBits at this
  rw [isNegative, toNat_bits_round]
  cases negative with
  | false =>
    simp only [Bool.false_eq_true, if_false, decide_eq_false_iff_not]
    omega
  | true => simp

theorem value_round : (round negative q).value =
    if negative then -magnitudeValue (roundMagnitude |q|) else magnitudeValue (roundMagnitude |q|) := by
  rw [value, isNegative_round, magnitude_round]

theorem two_zpow_le_value_round (hlo : -1022 ≤ j) (hhi : j ≤ 1024) (h : (2 : ℚ) ^ j ≤ |q|) :
    (2 : ℚ) ^ j ≤ (round false q).value := by
  rw [value_round, if_neg Bool.false_ne_true]
  exact two_zpow_le_magnitudeValue hlo (le_roundMagnitude hlo hhi h)

theorem value_round_le_neg (hlo : -1022 ≤ j) (hhi : j ≤ 1024) (h : (2 : ℚ) ^ j ≤ |q|) :
    (round true q).value ≤ -2 ^ j := by
  rw [value_round, if_pos rfl]
  exact neg_le_neg (two_zpow_le_magnitudeValue hlo (le_roundMagnitude hlo hhi h))

theorem isFinite_round (hnormal : (2 : ℚ) ^ (-1022 : ℤ) ≤ |q|) (h : |q| ≤ (2 : ℚ) ^ (1023 : ℤ)) :
    (round negative q).isFinite := by
  have := roundMagnitude_le hnormal h
  rw [isFinite, magnitude_round, decide_eq_true_eq, infBits]
  omega

end Round

/-! ### Signs and casts -/

section Cast

variable {f : F64}

theorem magnitudeValue_nonneg (m : ℕ) : 0 ≤ magnitudeValue m := by
  unfold magnitudeValue
  split_ifs <;> positivity

theorem isNegative_of_pos (h : 0 < f.value) : f.isNegative = false := by
  by_contra hneg
  rw [value, if_pos (by simpa using hneg)] at h
  have := magnitudeValue_nonneg f.magnitude
  linarith

theorem isNegative_of_neg (h : f.value < 0) : f.isNegative = true := by
  by_contra hpos
  rw [value, if_neg hpos] at h
  have := magnitudeValue_nonneg f.magnitude
  linarith

theorem toInt64_of_two_pow_le (h : (2 : ℚ) ^ (63 : ℤ) ≤ f.value) : f.toInt64 = 2 ^ 63 - 1 := by
  have hfloor : (2 ^ 63 : ℤ) ≤ f.value.floor := Rat.le_floor_iff.mpr (by exact_mod_cast h)
  have hpos : ¬f.value < 0 := not_lt.mpr ((zpow_nonneg two_pos.le _).trans h)
  rw [toInt64, trunc, if_neg hpos]
  omega

theorem toInt64_of_le_neg (h : f.value ≤ -(2 : ℚ) ^ (63 : ℤ)) : f.toInt64 = -2 ^ 63 := by
  have hfloor : (2 ^ 63 : ℤ) ≤ (-f.value).floor :=
    Rat.le_floor_iff.mpr (by exact_mod_cast le_neg.mpr h)
  have hneg : f.value < 0 := lt_of_le_of_lt h (neg_neg_of_pos (zpow_pos two_pos _))
  rw [toInt64, trunc, if_pos hneg]
  omega

theorem two_zpow_le_value_mul {g : F64} {j : ℤ} (hlo : -1022 ≤ j) (hhi : j ≤ 1024)
    (hf : (2 : ℚ) ^ j ≤ f.value) (hg : 1 ≤ g.value) : (2 : ℚ) ^ j ≤ (f.mul g).value := by
  have hpos : 0 < f.value := (zpow_pos two_pos j).trans_le hf
  rw [mul, isNegative_of_pos hpos, isNegative_of_pos (one_pos.trans_le hg)]
  refine two_zpow_le_value_round hlo hhi ?_
  rw [abs_of_pos (mul_pos hpos (one_pos.trans_le hg))]
  exact hf.trans (le_mul_of_one_le_right hpos.le hg)

theorem value_mul_le_neg {g : F64} {j : ℤ} (hlo : -1022 ≤ j) (hhi : j ≤ 1024)
    (hf : f.value ≤ -(2 : ℚ) ^ j) (hg : 1 ≤ g.value) : (f.mul g).value ≤ -2 ^ j := by
  have hneg : f.value < 0 := hf.trans_lt (neg_neg_of_pos (zpow_pos two_pos j))
  rw [mul, isNegative_of_neg hneg, isNegative_of_pos (one_pos.trans_le hg)]
  refine value_round_le_neg hlo hhi ?_
  rw [abs_mul, abs_of_neg hneg, abs_of_pos (one_pos.trans_le hg)]
  exact (le_neg.mpr hf).trans (le_mul_of_one_le_right (neg_nonneg.mpr hneg.le) hg)

end Cast

end F64
