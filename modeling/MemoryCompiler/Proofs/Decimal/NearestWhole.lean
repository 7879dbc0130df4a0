import MemoryCompiler.Proofs.Decimal.ReadBack
import MemoryCompiler.Proofs.Decimal.RoundedOperations

/-!
# Whole numbers and whole multiples

The nearest whole number of a double is the whole number below its value plus one half
(`toReal_nearestWhole`). A finite double keeps its value when it is rounded (`rounded_toReal`), and so does the
quotient of two finite doubles when it is whole (`rounded_of_multiple`).
-/

namespace MemoryCompiler.Decimal

open Float.Model (UnpackedFloat Format)

/-! ### Values that rounding keeps -/

section rounded

variable {x y : Float}

theorem rounded_toReal (hx : x.isFinite = true) : rounded (toReal x) = toReal x := by
  obtain ⟨s, -, hxv⟩ | ⟨s, m, e, hm, -, hxv, hxc⟩ := unpack_cases hx
  · rw [hxv, rounded_zero, EReal.coe_zero]
  · have hlt := mantissa_mul_zpow_lt hxc.mantissa_lt hxc.exponent_le
    rw [hxv, rounded_withSign, rounded_of_mantissa hxc.mantissa_lt hxc.exponent_ge hlt, coe_withSign]

theorem abs_toReal_lt (hx : x.isFinite = true) : |toReal x| < 2 ^ (1024 : ℤ) := by
  obtain ⟨s, -, hxv⟩ | ⟨s, m, e, hm, -, hxv, hxc⟩ := unpack_cases hx
  · rw [hxv, abs_zero]
    positivity
  · have habs : |toReal x| = m * 2 ^ e := by
      have hnonneg : (0 : ℝ) ≤ m * 2 ^ e := by positivity
      rw [hxv]
      cases s with
      | negative => exact (abs_neg _).trans (abs_of_nonneg hnonneg)
      | positive => exact abs_of_nonneg hnonneg
    rw [habs]
    exact mantissa_mul_zpow_lt hxc.mantissa_lt hxc.exponent_le

theorem exists_rounded_eq {v : ℝ} (hx : x.isFinite = true) (hy : y.isFinite = true) (hlow : toReal x ≤ v)
    (hhigh : v ≤ toReal y) : ∃ r : ℝ, rounded v = r ∧ toReal x ≤ r ∧ r ≤ toReal y := by
  have hge : (toReal x : EReal) ≤ rounded v := (rounded_toReal hx).symm.le.trans (rounded_mono hlow)
  have hle : rounded v ≤ (toReal y : EReal) := (rounded_mono hhigh).trans (rounded_toReal hy).le
  have hreal : ((rounded v).toReal : EReal) = rounded v :=
    EReal.coe_toReal (ne_top_of_le_ne_top (EReal.coe_ne_top _) hle) (ne_bot_of_le_ne_bot (EReal.coe_ne_bot _) hge)
  rw [← hreal] at hge hle
  exact ⟨_, hreal.symm, EReal.coe_le_coe_iff.1 hge, EReal.coe_le_coe_iff.1 hle⟩

theorem natAbs_units (d : Dyadic) : d.units.natAbs = d.mantissa * 2 ^ (d.exponent + 1074).toNat := by
  rw [Dyadic.units, Int.natAbs_mul, Int.natAbs_natCast]
  split_ifs
  · exact Nat.one_mul _
  · exact Nat.one_mul _

theorem exists_bits_of_multiple {k : ℤ} (hx : x.isFinite = true) (hy : y.isFinite = true) (hne : toReal x ≠ 0)
    (hk : toReal x = k * toReal y) : ∃ q j : ℕ, q < 2 ^ 53 ∧ |(k : ℝ)| = q * 2 ^ (j : ℤ) := by
  obtain ⟨a, ha⟩ := isFinite_iff.1 hx
  obtain ⟨b, hb⟩ := isFinite_iff.1 hy
  have hunits : a.units = k * b.units := by
    have hunit : (2 : ℝ) ^ (-1074 : ℤ) ≠ 0 := by positivity
    rw [toReal_of_decode ha, toReal_of_decode hb, ← mul_assoc] at hk
    exact_mod_cast mul_right_cancel₀ hunit hk
  have hquotient : k ≠ 0 := by
    rintro rfl
    exact hne (by rw [hk, Int.cast_zero, zero_mul])
  have hmantissa : 0 < a.mantissa := by
    rw [Nat.pos_iff_ne_zero]
    intro hzero
    exact hne (by rw [toReal_of_decode ha, units_of_mantissa_eq_zero hzero, Int.cast_zero, zero_mul])
  -- The odd part of the quotient divides the mantissa of the dividend.
  obtain ⟨j, q, hodd, hnat⟩ := Nat.exists_eq_two_pow_mul_odd (Int.natAbs_ne_zero.2 hquotient)
  have hproduct : q ∣ a.mantissa * 2 ^ (a.exponent + 1074).toNat := by
    rw [← natAbs_units, hunits, Int.natAbs_mul, hnat]
    exact (Dvd.intro_left _ rfl).mul_right _
  have hdvd : q ∣ a.mantissa := ((Nat.coprime_two_right.2 hodd).pow_right _).dvd_of_dvd_mul_right hproduct
  refine ⟨q, j, (Nat.le_of_dvd hmantissa hdvd).trans_lt (canonical_of_decode ha).mantissa_lt, ?_⟩
  rw [← Int.cast_abs, ← Nat.cast_natAbs, hnat, Nat.cast_mul, Nat.cast_pow, Nat.cast_ofNat, mul_comm, zpow_natCast]

theorem rounded_of_multiple {k : ℤ} (hx : x.isFinite = true) (hy : y.isFinite = true) (hone : 1 ≤ toReal y)
    (hk : toReal x = k * toReal y) : rounded (k : ℝ) = (k : ℝ) := by
  rcases eq_or_ne k 0 with rfl | hne
  · rw [Int.cast_zero, rounded_zero, EReal.coe_zero]
  have hdividend : toReal x ≠ 0 := by
    rw [hk]
    exact mul_ne_zero (by exact_mod_cast hne) (by linarith)
  obtain ⟨q, j, hbits, hvalue⟩ := exists_bits_of_multiple hx hy hdividend hk
  have hlt : (q : ℝ) * 2 ^ (j : ℤ) < 2 ^ (1024 : ℤ) := by
    rw [← hvalue]
    calc |(k : ℝ)| ≤ |(k : ℝ)| * |toReal y| :=
          le_mul_of_one_le_right (abs_nonneg _) (hone.trans (le_abs_self _))
      _ = |toReal x| := by rw [hk, abs_mul]
      _ < 2 ^ (1024 : ℤ) := abs_toReal_lt hx
  have hmagnitude : rounded |(k : ℝ)| = |(k : ℝ)| := by
    rw [hvalue]
    exact rounded_of_mantissa hbits (by omega) hlt
  rcases abs_choice (k : ℝ) with h | h
  · rwa [h] at hmagnitude
  · rwa [h, rounded_neg, EReal.coe_neg, neg_inj] at hmagnitude

end rounded

/-! ### The nearest whole number -/

section whole

variable {x : Float}

theorem value_whole (negative : Bool) (m : ℕ) :
    Dyadic.value ⟨negative, m * 2 ^ (52 - m.log2), -((52 - m.log2 : ℕ) : ℤ)⟩ = (if negative then -1 else 1) * m := by
  rw [Dyadic.value, Nat.cast_mul, Nat.cast_pow, Nat.cast_ofNat, zpow_neg, zpow_natCast, mul_assoc (m : ℝ),
    mul_inv_cancel₀ (by positivity), mul_one]

theorem toReal_ofInt {n : ℤ} (hn : n.natAbs < 2 ^ 53) :
    (Float.ofInt n).isFinite = true ∧ toReal (Float.ofInt n) = n := by
  obtain ⟨m, rfl | rfl⟩ := n.eq_nat_or_neg
  · rcases Nat.eq_zero_or_pos m with rfl | hpos
    · exact ⟨isFinite_zero, toReal_zero.trans Int.cast_zero.symm⟩
    · have hdecode := decode_ofNat hpos (by simpa using hn)
      refine ⟨isFinite_iff.2 ⟨_, hdecode⟩, ?_⟩
      show toReal (Float.ofNat m) = _
      rw [toReal, hdecode]
      dsimp only
      rw [value_whole, if_neg Bool.false_ne_true, one_mul, Int.cast_natCast]
  · rcases Nat.eq_zero_or_pos m with rfl | hpos
    · exact ⟨isFinite_zero, toReal_zero.trans (by simp)⟩
    · obtain ⟨c, rfl⟩ := Nat.exists_eq_succ_of_ne_zero hpos.ne'
      have hlt : c + 1 < 2 ^ 53 := by omega
      have hfull : 0 < (c + 1) * 2 ^ (52 - (c + 1).log2) := Nat.mul_pos hpos (Nat.two_pow_pos _)
      have hdecode : decode (Float.ofInt (-((c + 1 : ℕ) : ℤ))) = _ := decode_neg hfull (decode_ofNat hpos hlt)
      refine ⟨isFinite_iff.2 ⟨_, hdecode⟩, ?_⟩
      rw [toReal, hdecode]
      dsimp only
      rw [value_whole, if_pos rfl, neg_one_mul, Int.cast_neg, Int.cast_natCast]

theorem magnitude_pos (d : Dyadic) : 0 < d.magnitude.2 := by
  unfold Dyadic.magnitude
  split_ifs
  · exact Nat.one_pos
  · exact Nat.two_pow_pos _

theorem value_eq_magnitude (d : Dyadic) :
    d.value = ((if d.negative then -(d.magnitude.1 : ℤ) else d.magnitude.1 : ℤ) : ℝ) / d.magnitude.2 := by
  have hmagnitude : (d.mantissa : ℝ) * 2 ^ d.exponent = (d.magnitude.1 : ℝ) / d.magnitude.2 := by
    unfold Dyadic.magnitude
    split_ifs with he
    · obtain ⟨k, hk⟩ := Int.eq_ofNat_of_zero_le he
      rw [hk, Int.toNat_natCast, zpow_natCast]
      push_cast
      rw [div_one]
    · obtain ⟨k, hk⟩ := Int.eq_ofNat_of_zero_le (show 0 ≤ -d.exponent by omega)
      have hexponent : d.exponent = -(k : ℤ) := by omega
      rw [hk, hexponent, Int.toNat_natCast, zpow_neg, zpow_natCast]
      push_cast
      rw [div_eq_mul_inv]
  rw [Dyadic.value, hmagnitude]
  split_ifs
  · push_cast
    ring
  · push_cast
    ring

theorem roundHalfUp_eq (d : Dyadic) : d.roundHalfUp = ⌊d.value + 1 / 2⌋ := by
  have hden : (0 : ℝ) < d.magnitude.2 := by exact_mod_cast magnitude_pos d
  rw [value_eq_magnitude]
  unfold Dyadic.roundHalfUp
  dsimp only
  generalize (if d.negative then -(d.magnitude.1 : ℤ) else d.magnitude.1 : ℤ) = n
  have hsum : (n : ℝ) / d.magnitude.2 + 1 / 2 =
      ((2 * n + d.magnitude.2 : ℤ) : ℝ) / ((2 * d.magnitude.2 : ℕ) : ℝ) := by
    push_cast
    field_simp
  rw [hsum, Int.floor_div_natCast, Int.floor_intCast]
  push_cast
  rfl

/-- With places after the point a double has at most 52 bits in front of it. -/
theorem abs_value_lt {d : Dyadic} (hd : d.mantissa < 2 ^ 53) (he : d.exponent < 0) : |d.value| < 2 ^ 52 := by
  have hbits : (d.mantissa : ℝ) < 2 ^ 53 := by exact_mod_cast hd
  have hhalf : (2 : ℝ) ^ d.exponent ≤ 2 ^ (-1 : ℤ) := zpow_le_zpow_right₀ (by norm_num) (by omega)
  have hsign : |(if d.negative then -1 else 1 : ℝ)| = 1 := by
    split_ifs
    · rw [abs_neg, abs_one]
    · exact abs_one
  rw [Dyadic.value, abs_mul, hsign, one_mul, abs_of_nonneg (by positivity)]
  calc (d.mantissa : ℝ) * 2 ^ d.exponent ≤ d.mantissa * 2 ^ (-1 : ℤ) :=
        mul_le_mul_of_nonneg_left hhalf (Nat.cast_nonneg _)
    _ < 2 ^ 52 := by
      rw [zpow_neg_one]
      linarith

theorem natAbs_roundHalfUp_lt {d : Dyadic} (hd : d.mantissa < 2 ^ 53) (he : d.exponent < 0) :
    d.roundHalfUp.natAbs < 2 ^ 53 := by
  obtain ⟨hlow, hhigh⟩ := abs_lt.1 (abs_value_lt hd he)
  have hle := Int.floor_le (d.value + 1 / 2)
  have hlt := Int.lt_floor_add_one (d.value + 1 / 2)
  rw [← roundHalfUp_eq] at hle hlt
  generalize d.roundHalfUp = n at *
  have hmost : n < 2 ^ 52 + 1 := by exact_mod_cast (show (n : ℝ) < 2 ^ 52 + 1 by linarith)
  have hleast : -(2 ^ 52 + 1) < n := by exact_mod_cast (show -(2 ^ 52 + 1 : ℝ) < n by linarith)
  omega

/-- **The nearest whole number, a half going up.** -/
theorem toReal_nearestWhole (hx : x.isFinite = true) :
    (nearestWhole x).isFinite = true ∧ toReal (nearestWhole x) = ⌊toReal x + 1 / 2⌋ := by
  obtain ⟨d, hd⟩ := isFinite_iff.1 hx
  have hvalue : toReal x = d.value := by rw [toReal, hd]
  rw [nearestWhole, hd, hvalue]
  dsimp only
  split_ifs with he hzero
  · -- Without places after the point the number is whole already.
    refine ⟨hx, ?_⟩
    obtain ⟨k, hk⟩ := Int.eq_ofNat_of_zero_le he
    have hwhole : d.value = (((if d.negative then -1 else 1) * (d.mantissa * 2 ^ k : ℕ) : ℤ) : ℝ) := by
      rw [Dyadic.value, hk, zpow_natCast]
      push_cast
      rfl
    rw [hvalue, hwhole]
    generalize ((if d.negative then -1 else 1) * (d.mantissa * 2 ^ k : ℕ) : ℤ) = n
    rw [Int.floor_intCast_add]
    norm_num
  · have hdecode : decode (-0.0) = some ⟨true, 0, leastExponent⟩ := by decide +kernel
    refine ⟨isFinite_iff.2 ⟨_, hdecode⟩, ?_⟩
    rw [← roundHalfUp_eq, hzero.1, toReal_of_decode hdecode, units_of_mantissa_eq_zero rfl, Int.cast_zero, zero_mul]
  · rw [← roundHalfUp_eq]
    exact toReal_ofInt (natAbs_roundHalfUp_lt (canonical_of_decode hd).mantissa_lt (not_le.1 he))

end whole

end MemoryCompiler.Decimal
