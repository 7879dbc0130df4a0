import MemoryCompiler.Proofs.Decimal.Reals

/-!
# Rounding real numbers to doubles

A real number is rounded to a whole number of its last place, which is the 53rd bit or the place of the least
double; a tie goes to the even one, and what becomes too large for a double is infinite (`rounded`). Rounding
keeps the order (`rounded_mono`) and leaves doubles as they are (`rounded_of_mantissa`).
-/

namespace MemoryCompiler.Decimal

/-! ### Whole numbers -/

/-- The nearest whole number, a tie going to the even one. -/
noncomputable def roundEven (v : ℝ) : ℤ :=
  if Int.fract v < 1 - Int.fract v ∨ Int.fract v = 1 - Int.fract v ∧ Even ⌊v⌋ then ⌊v⌋ else ⌊v⌋ + 1

theorem floor_le_roundEven (v : ℝ) : ⌊v⌋ ≤ roundEven v := by
  unfold roundEven
  split_ifs
  · exact le_refl _
  · exact (lt_add_one _).le

theorem roundEven_le_floor_add_one (v : ℝ) : roundEven v ≤ ⌊v⌋ + 1 := by
  unfold roundEven
  split_ifs
  · exact (lt_add_one _).le
  · exact le_refl _

@[simp] theorem roundEven_intCast (n : ℤ) : roundEven n = n := by
  simp [roundEven]

theorem le_roundEven_add_half (v : ℝ) : v ≤ roundEven v + 1 / 2 := by
  have hlt := Int.lt_floor_add_one v
  have hfract : Int.fract v = v - ⌊v⌋ := rfl
  unfold roundEven
  split_ifs with h
  · rcases h with h | ⟨h, -⟩ <;> linarith
  · push_cast
    linarith

theorem roundEven_mono : Monotone roundEven := by
  intro v w hvw
  rcases (Int.floor_mono hvw).lt_or_eq with hlt | heq
  · calc roundEven v ≤ ⌊v⌋ + 1 := roundEven_le_floor_add_one v
      _ ≤ ⌊w⌋ := hlt
      _ ≤ roundEven w := floor_le_roundEven w
  · -- Between two whole numbers only the fractions matter.
    have hfract : Int.fract v ≤ Int.fract w := by
      unfold Int.fract
      rw [heq]
      linarith
    unfold roundEven
    rw [heq]
    split_ifs with hv hw
    · exact le_refl _
    · exact (lt_add_one _).le
    · exfalso
      rcases ‹Int.fract w < 1 - Int.fract w ∨ _› with hless | ⟨htie, heven⟩
      · exact hv (.inl (by linarith))
      · rcases hfract.lt_or_eq with hless | hsame
        · exact hv (.inl (by linarith))
        · exact hv (.inr ⟨by linarith, heven⟩)
    · exact le_refl _

/-! ### The last place -/

/-- One unit at a place. -/
noncomputable def unit (e : ℤ) : ℝ := Dyadic.value ⟨false, 1, e⟩

theorem unit_eq (e : ℤ) : unit e = 2 ^ e := by
  rw [unit, Dyadic.value, if_neg Bool.false_ne_true, one_mul, Nat.cast_one, one_mul]

/-- The exponent of the last bit that a double keeps of a number. -/
noncomputable def lastPlace (v : ℝ) : ℤ := max (Int.log 2 v - 52) (-1074)

theorem lastPlace_ge (v : ℝ) : -1074 ≤ lastPlace v := le_max_right _ _

section lastPlace

variable {v w : ℝ}

theorem lastPlace_mono (hv : 0 < v) (hvw : v ≤ w) : lastPlace v ≤ lastPlace w :=
  max_le_max_right _ (sub_le_sub_right (Int.log_mono_right hv hvw) 52)

theorem div_lastPlace_lt (v : ℝ) : v / 2 ^ lastPlace v < 2 ^ 53 := by
  have hlog : v < 2 ^ (Int.log 2 v + 1) := by
    simpa using Int.lt_zpow_succ_log_self (b := 2) (by norm_num) v
  rw [div_lt_iff₀ (by positivity)]
  calc v < 2 ^ (Int.log 2 v + 1) := hlog
    _ ≤ 2 ^ (53 + lastPlace v) := zpow_le_zpow_right₀ (by norm_num) (by unfold lastPlace; omega)
    _ = 2 ^ 53 * 2 ^ lastPlace v := by rw [zpow_add₀ two_ne_zero]; norm_cast

/-- It has all of them, unless its last place is that of the least double. -/
theorem le_div_lastPlace (hv : 0 < v) (hplace : lastPlace v ≠ -1074) : 2 ^ 52 ≤ v / 2 ^ lastPlace v := by
  have hlog : (2 : ℝ) ^ Int.log 2 v ≤ v := by
    simpa using Int.zpow_log_le_self (b := 2) (by norm_num) hv
  have hexponent : lastPlace v + 52 = Int.log 2 v := by
    unfold lastPlace at *
    omega
  rw [le_div_iff₀ (by positivity)]
  calc (2 : ℝ) ^ 52 * 2 ^ lastPlace v = 2 ^ (52 + lastPlace v) := by rw [zpow_add₀ two_ne_zero]; norm_cast
    _ = 2 ^ Int.log 2 v := by rw [add_comm, hexponent]
    _ ≤ v := hlog

theorem lastPlace_le {e : ℤ} (hv : 0 < v) (hlt : v < 2 ^ (e + 53)) (he : -1074 ≤ e) : lastPlace v ≤ e := by
  have hlog : Int.log 2 v < e + 53 := by
    rw [← Int.lt_zpow_iff_log_lt (by norm_num) hv]
    exact_mod_cast hlt
  unfold lastPlace
  omega

end lastPlace

/-! ### Magnitudes -/

/-- A number that is not negative, rounded to its last place. -/
noncomputable def roundMagnitude (v : ℝ) : ℝ := roundEven (v / unit (lastPlace v)) * unit (lastPlace v)

theorem roundMagnitude_eq (v : ℝ) : roundMagnitude v = roundEven (v / 2 ^ lastPlace v) * 2 ^ lastPlace v := by
  rw [roundMagnitude, unit_eq]

section magnitude

variable {v w : ℝ}

@[simp] theorem roundMagnitude_zero : roundMagnitude 0 = 0 := by
  have hzero : roundEven 0 = 0 := by exact_mod_cast roundEven_intCast 0
  simp [roundMagnitude_eq, hzero]

theorem roundEven_lastPlace_nonneg (hv : 0 ≤ v) : 0 ≤ roundEven (v / 2 ^ lastPlace v) := by
  have h : roundEven ((0 : ℤ) : ℝ) ≤ roundEven (v / 2 ^ lastPlace v) :=
    roundEven_mono (by push_cast; positivity)
  rwa [roundEven_intCast] at h

theorem roundEven_lastPlace_le (v : ℝ) : roundEven (v / 2 ^ lastPlace v) ≤ 2 ^ 53 := by
  have h : roundEven (v / 2 ^ lastPlace v) ≤ roundEven ((2 ^ 53 : ℤ) : ℝ) :=
    roundEven_mono (by rw [Int.cast_pow, Int.cast_ofNat]; exact (div_lastPlace_lt v).le)
  rwa [roundEven_intCast] at h

theorem le_roundEven_lastPlace (hv : 0 < v) (hplace : lastPlace v ≠ -1074) :
    2 ^ 52 ≤ roundEven (v / 2 ^ lastPlace v) := by
  have h : roundEven ((2 ^ 52 : ℤ) : ℝ) ≤ roundEven (v / 2 ^ lastPlace v) :=
    roundEven_mono (by rw [Int.cast_pow, Int.cast_ofNat]; exact le_div_lastPlace hv hplace)
  rwa [roundEven_intCast] at h

theorem roundMagnitude_nonneg (hv : 0 ≤ v) : 0 ≤ roundMagnitude v := by
  have h : (0 : ℝ) ≤ roundEven (v / 2 ^ lastPlace v) := by exact_mod_cast roundEven_lastPlace_nonneg hv
  rw [roundMagnitude_eq]
  positivity

theorem roundMagnitude_mono (hv : 0 ≤ v) (hvw : v ≤ w) : roundMagnitude v ≤ roundMagnitude w := by
  rcases hv.lt_or_eq with hpos | rfl
  · rcases (lastPlace_mono hpos hvw).lt_or_eq with hlt | heq
    · -- The power of two between the two places lies between the rounded numbers.
      have hw : 0 < w := hpos.trans_le hvw
      have hfull := le_roundEven_lastPlace hw (by have := lastPlace_ge v; omega)
      have hmost := roundEven_lastPlace_le v
      rw [roundMagnitude_eq, roundMagnitude_eq]
      calc (roundEven (v / 2 ^ lastPlace v) : ℝ) * 2 ^ lastPlace v ≤ ((2 ^ 53 : ℤ) : ℝ) * 2 ^ lastPlace v :=
            mul_le_mul_of_nonneg_right (by exact_mod_cast hmost) (by positivity)
        _ = 2 ^ (53 + lastPlace v) := by rw [zpow_add₀ two_ne_zero]; norm_cast
        _ ≤ 2 ^ (52 + lastPlace w) := zpow_le_zpow_right₀ (by norm_num) (by omega)
        _ = ((2 ^ 52 : ℤ) : ℝ) * 2 ^ lastPlace w := by rw [zpow_add₀ two_ne_zero]; norm_cast
        _ ≤ roundEven (w / 2 ^ lastPlace w) * 2 ^ lastPlace w :=
            mul_le_mul_of_nonneg_right (by exact_mod_cast hfull) (by positivity)
    · rw [roundMagnitude_eq, roundMagnitude_eq, heq]
      have h : roundEven (v / 2 ^ lastPlace w) ≤ roundEven (w / 2 ^ lastPlace w) :=
        roundEven_mono (div_le_div_of_nonneg_right hvw (by positivity))
      exact mul_le_mul_of_nonneg_right (by exact_mod_cast h) (by positivity)
  · rw [roundMagnitude_zero]
    exact roundMagnitude_nonneg hvw

/-- A number loses at most half a unit of its last place. -/
theorem le_roundMagnitude_add (v : ℝ) : v ≤ roundMagnitude v + 2 ^ lastPlace v / 2 := by
  have hscaled := le_roundEven_add_half (v / 2 ^ lastPlace v)
  rw [div_le_iff₀ (by positivity), add_mul] at hscaled
  rw [roundMagnitude_eq]
  linarith

theorem roundMagnitude_of_mantissa {m : ℕ} {e : ℤ} (hm : m < 2 ^ 53) (he : -1074 ≤ e) :
    roundMagnitude (m * 2 ^ e) = m * 2 ^ e := by
  rcases Nat.eq_zero_or_pos m with rfl | hpos
  · simp
  have hv : (0 : ℝ) < m * 2 ^ e := by positivity
  have hlt : (m : ℝ) * 2 ^ e < 2 ^ (e + 53) := by
    calc (m : ℝ) * 2 ^ e < 2 ^ 53 * 2 ^ e := mul_lt_mul_of_pos_right (by exact_mod_cast hm) (by positivity)
      _ = 2 ^ (e + 53) := by rw [add_comm, zpow_add₀ two_ne_zero]; norm_cast
  have hplace := lastPlace_le hv hlt he
  obtain ⟨k, hk⟩ := Int.le.dest hplace
  rw [roundMagnitude_eq]
  generalize lastPlace (m * 2 ^ e) = p at hk
  have hpow : (2 : ℝ) ^ e = 2 ^ k * 2 ^ p := by
    rw [← zpow_natCast, ← zpow_add₀ two_ne_zero, add_comm, hk]
  have hwhole : (m : ℝ) * 2 ^ e / 2 ^ p = ((m * 2 ^ k : ℕ) : ℤ) := by
    rw [div_eq_iff (by positivity), hpow]
    push_cast
    ring
  rw [hwhole, roundEven_intCast, ← hwhole, div_mul_cancel₀ _ (by positivity)]

end magnitude

/-! ### Signs and overflow -/

/-- A rounded magnitude as a double has it: from `2 ^ 1024` on it is infinite. -/
noncomputable def bounded (v : ℝ) : EReal := if v < unit 1024 then (v : EReal) else ⊤

theorem bounded_of_lt {v : ℝ} (h : v < 2 ^ (1024 : ℤ)) : bounded v = v := if_pos (by rwa [unit_eq])

theorem bounded_of_le {v : ℝ} (h : 2 ^ (1024 : ℤ) ≤ v) : bounded v = ⊤ := if_neg (by rwa [unit_eq, not_lt])

theorem bounded_mono : Monotone bounded := by
  intro v w hvw
  unfold bounded
  split_ifs with hv hw
  · exact EReal.coe_le_coe_iff.2 hvw
  · exact le_top
  · exact absurd (hvw.trans_lt ‹_›) hv
  · exact le_refl _

theorem bounded_nonneg {v : ℝ} (hv : 0 ≤ v) : 0 ≤ bounded v := by
  unfold bounded
  split_ifs
  · exact_mod_cast hv
  · exact le_top

/-- The double nearest to a number, as a number. -/
noncomputable def rounded (v : ℝ) : EReal :=
  if 0 ≤ v then bounded (roundMagnitude v) else -bounded (roundMagnitude (-v))

theorem rounded_of_nonneg {v : ℝ} (hv : 0 ≤ v) : rounded v = bounded (roundMagnitude v) := if_pos hv

@[simp] theorem bounded_zero : bounded 0 = 0 := by
  rw [bounded_of_lt (by positivity), EReal.coe_zero]

@[simp] theorem rounded_zero : rounded 0 = 0 := by
  rw [rounded_of_nonneg (le_refl 0), roundMagnitude_zero, bounded_zero]

theorem rounded_neg (v : ℝ) : rounded (-v) = -rounded v := by
  unfold rounded
  rcases lt_trichotomy v 0 with h | rfl | h
  · rw [if_pos (by linarith), if_neg (not_le.2 h), neg_neg]
  · simp
  · rw [if_neg (by linarith), if_pos h.le, neg_neg]

theorem rounded_nonneg {v : ℝ} (hv : 0 ≤ v) : 0 ≤ rounded v := by
  rw [rounded_of_nonneg hv]
  exact bounded_nonneg (roundMagnitude_nonneg hv)

theorem rounded_mono : Monotone rounded := by
  have hpositive : ∀ {v w : ℝ}, 0 ≤ v → v ≤ w → rounded v ≤ rounded w := by
    intro v w hv hvw
    rw [rounded_of_nonneg hv, rounded_of_nonneg (hv.trans hvw)]
    exact bounded_mono (roundMagnitude_mono hv hvw)
  intro v w hvw
  rcases le_total 0 v with hv | hv
  · exact hpositive hv hvw
  rcases le_total 0 w with hw | hw
  · calc rounded v = -rounded (-v) := by rw [rounded_neg, neg_neg]
      _ ≤ -0 := EReal.neg_le_neg_iff.2 (rounded_nonneg (by linarith))
      _ = 0 := neg_zero
      _ ≤ rounded w := rounded_nonneg hw
  · calc rounded v = -rounded (-v) := by rw [rounded_neg, neg_neg]
      _ ≤ -rounded (-w) := EReal.neg_le_neg_iff.2 (hpositive (by linarith) (by linarith))
      _ = rounded w := by rw [rounded_neg, neg_neg]

theorem mantissa_mul_zpow_lt {m : ℕ} {e : ℤ} (hm : m < 2 ^ 53) (he : e ≤ 971) :
    (m : ℝ) * 2 ^ e < 2 ^ (1024 : ℤ) := by
  calc (m : ℝ) * 2 ^ e < 2 ^ 53 * 2 ^ e := mul_lt_mul_of_pos_right (by exact_mod_cast hm) (by positivity)
    _ = 2 ^ (53 + e) := by rw [zpow_add₀ two_ne_zero]; norm_cast
    _ ≤ 2 ^ (1024 : ℤ) := zpow_le_zpow_right₀ (by norm_num) (by omega)

theorem rounded_of_mantissa {m : ℕ} {e : ℤ} (hm : m < 2 ^ 53) (hlow : -1074 ≤ e)
    (hlt : (m : ℝ) * 2 ^ e < 2 ^ (1024 : ℤ)) : rounded (m * 2 ^ e) = ((m * 2 ^ e : ℝ) : EReal) := by
  rw [rounded_of_nonneg (by positivity), roundMagnitude_of_mantissa hm hlow, bounded_of_lt hlt]

theorem rounded_two_pow {k : ℕ} (hk : k < 1024) : rounded (2 ^ k) = ((2 ^ k : ℝ) : EReal) := by
  have h := rounded_of_mantissa (m := 1) (e := k) (by decide) (by omega)
    (by rw [Nat.cast_one, one_mul]; exact zpow_lt_zpow_right₀ (by norm_num) (by omega))
  rwa [Nat.cast_one, one_mul, zpow_natCast] at h

end MemoryCompiler.Decimal
