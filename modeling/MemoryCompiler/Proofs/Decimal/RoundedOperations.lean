import MemoryCompiler.Proofs.Decimal.Values

/-!
# The operations on doubles as rounded operations on numbers

The product, the quotient, the sum and the square root of finite doubles stand for the exact result, rounded
(`value?_mul`, `value?_div`, `value?_add`, `value?_sqrt`). Each operation finds as many bits of the exact
result as a double can keep, or more, and describes the rest.
-/

namespace MemoryCompiler.Decimal

open Float.Model (UnpackedFloat Format)
open Float.Model.UnpackedFloat

/-! ### Places -/

section place

variable {v : ℝ} {e k : ℤ}

theorem le_lastPlace (hv : 0 < v) (hlow : 2 ^ k ≤ v) (he : e ≤ max (k - 52) (-1074)) : e ≤ lastPlace v := by
  have hlog : k ≤ Int.log 2 v := (Int.zpow_le_iff_le_log (by norm_num) hv).1 (by exact_mod_cast hlow)
  unfold lastPlace
  omega

theorem two_zpow_le {m : ℕ} (hm : 0 < m) (e : ℤ) : (2 : ℝ) ^ ((m.log2 : ℤ) + e) ≤ m * 2 ^ e := by
  have hlow : 2 ^ m.log2 ≤ m := Nat.log2_self_le hm.ne'
  rw [zpow_add₀ two_ne_zero, zpow_natCast]
  exact mul_le_mul_of_nonneg_right (by exact_mod_cast hlow) (by positivity)

theorem lt_two_zpow (m : ℕ) (e : ℤ) : (m : ℝ) * 2 ^ e < 2 ^ ((m.log2 : ℤ) + 1 + e) := by
  have hhigh : m < 2 ^ (m.log2 + 1) := Nat.lt_log2_self
  rw [zpow_add₀ two_ne_zero]
  refine mul_lt_mul_of_pos_right ?_ (by positivity)
  exact_mod_cast hhigh

theorem mul_zpow_sub {m : ℕ} {e e' : ℤ} (h : e' ≤ e) :
    ((m * 2 ^ (e - e').toNat : ℕ) : ℝ) * 2 ^ e' = m * 2 ^ e := by
  obtain ⟨k, hk⟩ := Int.le.dest h
  have hshift : (e - e').toNat = k := by omega
  rw [hshift, ← hk, zpow_add₀ two_ne_zero, zpow_natCast]
  push_cast
  ring

end place

/-! ### Products -/

section mul

variable {x y : Float}

/-- A product of mantissas has as many bits as a double keeps, or it lies below the least double. -/
theorem le_lastPlace_mul {s t : Bool} {m n : ℕ} {e f : ℤ} (hm : 0 < m) (hn : 0 < n)
    (hx : Dyadic.Canonical ⟨s, m, e⟩) (hy : Dyadic.Canonical ⟨t, n, f⟩) :
    e + f ≤ lastPlace ((m * n : ℕ) * 2 ^ (e + f)) := by
  have hpos : 0 < m * n := Nat.mul_pos hm hn
  have hxe : -1074 ≤ e := hx.exponent_ge
  have hye : -1074 ≤ f := hy.exponent_ge
  have hxn : e = -1074 ∨ 2 ^ 52 ≤ m := hx.normal
  have hyn : f = -1074 ∨ 2 ^ 52 ≤ n := hy.normal
  refine le_lastPlace (by positivity) (two_zpow_le hpos (e + f)) ?_
  by_cases hfull : 2 ^ 52 ≤ m * n
  · have hlog : 52 ≤ (m * n).log2 := (Nat.le_log2 hpos.ne').2 hfull
    omega
  · have hmle : m ≤ m * n := Nat.le_mul_of_pos_right m hn
    have hnle : n ≤ m * n := Nat.le_mul_of_pos_left n hm
    omega

/-- **The product of finite doubles is the exact product, rounded.** -/
theorem value?_mul (hx : x.isFinite = true) (hy : y.isFinite = true) :
    value? (x * y) = some (rounded (toReal x * toReal y)) := by
  show value? (.ofModel (.pack (UnpackedFloat.mul Format.binary64 x.toModel.unpack y.toModel.unpack))) = _
  have hzero : ∀ s, value? (.ofModel (.pack (.zero s))) = some (rounded 0) := fun s => by
    rw [value?_pack_zero, rounded_zero]
  obtain ⟨s, hxu, hxv⟩ | ⟨s, m, e, hm, hxu, hxv, hxc⟩ := unpack_cases hx
  · rw [hxu, hxv, zero_mul]
    obtain ⟨t, hyu, -⟩ | ⟨t, n, f, hn, hyu, -⟩ := unpack_cases hy
    · rw [hyu]
      exact hzero _
    · rw [hyu]
      exact hzero _
  · obtain ⟨t, hyu, hyv⟩ | ⟨t, n, f, hn, hyu, hyv, hyc⟩ := unpack_cases hy
    · rw [hxu, hyu, hyv, mul_zero]
      exact hzero _
    · have hexact : (m : ℝ) * 2 ^ e * (n * 2 ^ f) = (m * n : ℕ) * 2 ^ (e + f) := by
        rw [zpow_add₀ two_ne_zero, Nat.cast_mul]
        ring
      have hpos : (0 : ℝ) < (m * n : ℕ) * 2 ^ (e + f) := by
        have := Nat.mul_pos hm hn
        positivity
      rw [hxu, hyu, hxv, hyv, withSign_mul, hexact]
      refine value?_roundWithAccuracy (s * t) hpos ?_ (le_lastPlace_mul hm hn hxc hyc)
      show (m * n : ℕ) * 2 ^ (e + f) / 2 ^ (e + f) - ((m * n : ℕ) : ℝ) = 0
      rw [mul_div_cancel_right₀ _ (by positivity), sub_self]

end mul

/-! ### Quotients -/

section div

variable {x y : Float}

theorem describes_accuracyOfFraction {c n : ℕ} (hn : 0 < n) :
    Describes (accuracyOfFraction (c % n) n) ((c : ℝ) / n - (c / n : ℕ)) := by
  have hpos : (0 : ℝ) < n := by exact_mod_cast hn
  have hrest : (c : ℝ) / n - (c / n : ℕ) = (c % n : ℕ) / n := by
    have hdivision : ((n * (c / n) + c % n : ℕ) : ℝ) = c := by rw [Nat.div_add_mod]
    push_cast at hdivision
    rw [sub_eq_iff_eq_add, div_add' _ _ _ hpos.ne', div_left_inj' hpos.ne']
    linarith
  have hlt : c % n < n := Nat.mod_lt c hn
  rw [hrest]
  generalize c % n = r at hlt
  unfold accuracyOfFraction
  split_ifs with hzero
  · show (r : ℝ) / n = 0
    rw [hzero, Nat.cast_zero, zero_div]
  · have hdouble : (r : ℝ) / n + r / n = (2 * r : ℕ) / n := by
      push_cast
      ring
    rcases lt_trichotomy (2 * r) n with h | h | h
    · rw [compare_lt_iff_lt.2 h]
      refine ⟨div_pos (by exact_mod_cast Nat.pos_of_ne_zero hzero) hpos, ?_⟩
      rw [lt_sub_iff_add_lt, hdouble, div_lt_one hpos]
      exact_mod_cast h
    · rw [compare_eq_iff_eq.2 h]
      show (r : ℝ) / n = 1 - r / n
      rw [eq_sub_iff_add_eq, hdouble, h, div_self hpos.ne']
    · rw [compare_gt_iff_gt.2 h]
      refine ⟨?_, ?_⟩
      · rw [sub_lt_iff_lt_add, hdouble, one_lt_div hpos]
        exact_mod_cast h
      · rw [div_lt_one hpos]
        exact_mod_cast hlt

theorem div_zpow_eq {m n : ℕ} {e f t : ℤ} (hn : 0 < n) (ht : t ≤ e - f) :
    (m : ℝ) * 2 ^ e / (n * 2 ^ f) / 2 ^ t = ((m <<< (e - f - t).toNat : ℕ) : ℝ) / n := by
  have hpos : (0 : ℝ) < n := by exact_mod_cast hn
  have hdifference : (m : ℝ) * 2 ^ (e - f) * 2 ^ f = m * 2 ^ e := by
    rw [mul_assoc, ← zpow_add₀ two_ne_zero, sub_add_cancel]
  rw [Nat.shiftLeft_eq, div_div, div_eq_div_iff (by positivity) hpos.ne', ← hdifference, ← mul_zpow_sub ht]
  ring

/-- **The quotient of finite doubles is the exact quotient, rounded.** -/
theorem value?_div (hx : x.isFinite = true) (hy : y.isFinite = true) (hdivisor : toReal y ≠ 0) :
    value? (x / y) = some (rounded (toReal x / toReal y)) := by
  show value? (.ofModel (.pack (UnpackedFloat.div Format.binary64 x.toModel.unpack y.toModel.unpack))) = _
  obtain ⟨t, -, hyv⟩ | ⟨t, n, f, hn, hyu, hyv, -⟩ := unpack_cases hy
  · exact absurd hyv hdivisor
  obtain ⟨s, hxu, hxv⟩ | ⟨s, m, e, hm, hxu, hxv, -⟩ := unpack_cases hx
  · rw [hxu, hyu, hxv, zero_div, rounded_zero]
    exact value?_pack_zero _
  have hpos : 0 < (m : ℝ) * 2 ^ e / (n * 2 ^ f) := by positivity
  rw [hxu, hyu, hxv, hyv, withSign_div, UnpackedFloat.div, divCore]
  refine value?_roundWithAccuracy (s / t) hpos ?_ ?_
  · rw [div_zpow_eq hn (min_le_left _ _)]
    exact describes_accuracyOfFraction hn
  · have hlow : (2 : ℝ) ^ ((m.log2 : ℤ) + e - (n.log2 + 1 + f)) ≤ m * 2 ^ e / (n * 2 ^ f) := by
      rw [zpow_sub₀ two_ne_zero]
      exact div_le_div₀ (by positivity) (two_zpow_le hm e) (by positivity) (lt_two_zpow n f).le
    have hcount : Format.binary64.mantissaBits = 53 := rfl
    have hleast : Format.binary64.minExponent = -1074 := rfl
    refine le_lastPlace hpos hlow ?_
    unfold Format.targetExponent Float.Model.totalExponent
    omega

end div

/-! ### Square roots -/

section sqrt

variable {x : Float}

/-- The rest of a root is below one half when the rest of its square is at most the root. -/
theorem describes_sqrt (c : ℕ) :
    Describes (if c - c.sqrt * c.sqrt = 0 then .exact
      else .inexact (if c - c.sqrt * c.sqrt ≤ c.sqrt then .lt else .gt)) (√(c : ℝ) - c.sqrt) := by
  have hle : c.sqrt * c.sqrt ≤ c := Nat.sqrt_le c
  have hlt : c < (c.sqrt + 1) * (c.sqrt + 1) := Nat.lt_succ_sqrt c
  generalize c.sqrt = r at *
  split_ifs with hexact hsmall
  · have hsquare : c = r * r := by omega
    show √(c : ℝ) - r = 0
    rw [hsquare, Nat.cast_mul, Real.sqrt_mul_self (Nat.cast_nonneg r), sub_self]
  · have hgt : (r : ℝ) < √c := by
      rw [Real.lt_sqrt (Nat.cast_nonneg r), sq]
      exact_mod_cast (show r * r < c by omega)
    have hhalf : √(c : ℝ) < r + 1 / 2 := by
      have hmost : (c : ℝ) ≤ r * r + r := by exact_mod_cast (show c ≤ r * r + r by omega)
      rw [Real.sqrt_lt' (by positivity)]
      nlinarith
    exact ⟨by linarith, by linarith⟩
  · have hhalf : (r : ℝ) + 1 / 2 < √c := by
      have hleast : (r : ℝ) * r + r + 1 ≤ c := by exact_mod_cast (show r * r + r + 1 ≤ c by omega)
      rw [Real.lt_sqrt (by positivity)]
      nlinarith
    have hnext : √(c : ℝ) < r + 1 := by
      rw [Real.sqrt_lt' (by positivity), sq]
      exact_mod_cast hlt
    exact ⟨by linarith, by linarith⟩

theorem sqrt_zpow_eq {m : ℕ} {e t : ℤ} (ht : 2 * t ≤ e) :
    √((m : ℝ) * 2 ^ e) / 2 ^ t = √((m <<< (e - 2 * t).toNat : ℕ) : ℝ) := by
  have hsquare : (2 : ℝ) ^ (2 * t) = 2 ^ t * 2 ^ t := by
    rw [two_mul, zpow_add₀ two_ne_zero]
  rw [Nat.shiftLeft_eq, ← mul_zpow_sub ht, hsquare, Real.sqrt_mul (Nat.cast_nonneg _),
    Real.sqrt_mul_self (by positivity), mul_div_cancel_right₀ _ (by positivity)]

/-- **The square root of a finite double is the exact root, rounded.** -/
theorem value?_sqrt (hx : x.isFinite = true) (hnonneg : 0 ≤ toReal x) :
    value? x.sqrt = some (rounded √(toReal x)) := by
  show value? (.ofModel (.pack (UnpackedFloat.sqrt Format.binary64 x.toModel.unpack))) = _
  obtain ⟨s, hxu, hxv⟩ | ⟨s, m, e, hm, hxu, hxv, -⟩ := unpack_cases hx
  · rw [hxu, hxv, Real.sqrt_zero, rounded_zero]
    exact value?_pack_zero s
  cases s with
  | negative =>
    have hneg : toReal x < 0 := by
      rw [hxv]
      exact neg_neg_of_pos (by positivity)
    exact absurd hneg (not_lt.2 hnonneg)
  | positive =>
    have hpos : 0 < √((m : ℝ) * 2 ^ e) := by positivity
    have hdiv : ∀ k : ℤ, k.ediv 2 = k / 2 := fun _ => rfl
    rw [hxu, hxv, UnpackedFloat.sqrt, sqrtCore]
    show _ = some (rounded (withSign .positive √((m : ℝ) * 2 ^ e)))
    refine value?_roundWithAccuracy .positive hpos ?_ ?_
    · rw [sqrt_zpow_eq (by rw [hdiv]; omega)]
      exact describes_sqrt _
    · have hlow : (2 : ℝ) ^ (((m.log2 : ℤ) + e) / 2) ≤ √((m : ℝ) * 2 ^ e) := by
        rw [Real.le_sqrt (by positivity) (by positivity), sq, ← zpow_add₀ two_ne_zero]
        refine (zpow_le_zpow_right₀ (by norm_num) ?_).trans (two_zpow_le hm e)
        omega
      have hcount : Format.binary64.mantissaBits = 53 := rfl
      have hleast : Format.binary64.minExponent = -1074 := rfl
      refine le_lastPlace hpos hlow ?_
      unfold Format.targetExponent Float.Model.totalExponent
      rw [hdiv, hdiv]
      omega

end sqrt

/-! ### Sums -/

section add

variable {x y : Float}

theorem value?_round (s : Sign) {m : ℕ} (hm : 0 < m) (e : ℤ) :
    value? (.ofModel (.pack (UnpackedFloat.round Format.binary64 s m e))) =
      some (rounded (withSign s ((m : ℝ) * 2 ^ e))) := by
  have hpos : (0 : ℝ) < m * 2 ^ e := by positivity
  have hlog : Int.log 2 ((m : ℝ) * 2 ^ e) = (m.log2 : ℤ) + e := by
    refine log_two_eq (two_zpow_le hm e) ?_
    rw [add_right_comm]
    exact lt_two_zpow m e
  have hplace : Format.binary64.targetExponent (Float.Model.totalExponent m e) = lastPlace (m * 2 ^ e) := by
    rw [targetExponent_eq, lastPlace, hlog]
  rw [UnpackedFloat.round]
  dsimp only
  rw [hplace, decreaseExponent]
  generalize hp : lastPlace ((m : ℝ) * 2 ^ e) = p
  refine value?_roundWithAccuracy s hpos ?_ (by rw [hp]; omega)
  show (m : ℝ) * 2 ^ e / 2 ^ (e - ((e - p).toNat : ℤ)) - ((m <<< (e - p).toNat : ℕ) : ℝ) = 0
  generalize (e - p).toNat = k
  have hmantissa := mul_zpow_sub (m := m) (show e - (k : ℤ) ≤ e by omega)
  rw [show (e - (e - (k : ℤ))).toNat = k by omega] at hmantissa
  rw [Nat.shiftLeft_eq, ← hmantissa, mul_div_cancel_right₀ _ (by positivity), sub_self]

theorem value?_normalize (k e : ℤ) : value? (.ofModel (.pack (normalize Format.binary64 k e .positive))) =
    some (rounded ((k : ℝ) * 2 ^ e)) := by
  rw [UnpackedFloat.normalize]
  rcases lt_trichotomy k 0 with h | rfl | h
  · obtain ⟨m, rfl⟩ : ∃ m : ℕ, k = -(m : ℤ) := ⟨k.natAbs, by omega⟩
    rw [compare_lt_iff_lt.2 h, neg_neg, Int.toNat_natCast]
    dsimp only
    rw [value?_round .negative (by omega), Int.cast_neg, neg_mul, Int.cast_natCast]
    rfl
  · rw [compare_eq_iff_eq.2 rfl, Int.cast_zero, zero_mul, rounded_zero]
    exact value?_pack_zero .positive
  · obtain ⟨m, rfl⟩ := Int.eq_ofNat_of_zero_le h.le
    rw [compare_gt_iff_gt.2 h, Int.toNat_natCast]
    dsimp only
    rw [value?_round .positive (by omega), Int.cast_natCast]
    rfl

theorem apply_decreaseExponent (s : Sign) (m : ℕ) {e e' : ℤ} (h : e' ≤ e) :
    ((s.apply ((decreaseExponent m e e').1 : ℤ) : ℤ) : ℝ) * 2 ^ e' = withSign s ((m : ℝ) * 2 ^ e) := by
  rw [decreaseExponent, Nat.shiftLeft_eq, ← mul_zpow_sub h]
  cases s with
  | negative =>
    show ((-((m * 2 ^ (e - e').toNat : ℕ) : ℤ) : ℤ) : ℝ) * 2 ^ e' = -_
    rw [Int.cast_neg, Int.cast_natCast, neg_mul]
  | positive => rfl

theorem value?_pack_unpack (hx : x.isFinite = true) :
    value? (.ofModel (.pack x.toModel.unpack)) = some (rounded (toReal x)) := by
  obtain ⟨s, hxu, hxv⟩ | ⟨s, m, e, hm, hxu, hxv, hxc⟩ := unpack_cases hx
  · rw [hxu, hxv, rounded_zero]
    exact value?_pack_zero s
  · rw [hxu, hxv, rounded_withSign, rounded_of_nonneg (by positivity),
      roundMagnitude_of_mantissa hxc.mantissa_lt hxc.exponent_ge]
    exact value?_pack hm hxc.mantissa_lt hxc.exponent_ge hxc.normal

/-- **The sum of finite doubles is the exact sum, rounded.** -/
theorem value?_add (hx : x.isFinite = true) (hy : y.isFinite = true) :
    value? (x + y) = some (rounded (toReal x + toReal y)) := by
  show value? (.ofModel (.pack (UnpackedFloat.add Format.binary64 x.toModel.unpack y.toModel.unpack))) = _
  obtain ⟨s, hxu, hxv⟩ | ⟨s, m, e, hm, hxu, hxv, -⟩ := unpack_cases hx
  · rw [hxu, hxv, zero_add, ← value?_pack_unpack hy]
    obtain ⟨t, hyu, hyv⟩ | ⟨t, n, f, hn, hyu, -⟩ := unpack_cases hy
    · have hzero : ∃ r, UnpackedFloat.add Format.binary64 (.zero s) (.zero t) = .zero r := by
        cases s <;> cases t <;> exact ⟨_, rfl⟩
      obtain ⟨r, hr⟩ := hzero
      rw [hyu, hr, value?_pack_zero, value?_pack_zero]
    · rw [hyu]
      rfl
  · obtain ⟨t, hyu, hyv⟩ | ⟨t, n, f, hn, hyu, hyv, -⟩ := unpack_cases hy
    · rw [hyu, hyv, add_zero, ← value?_pack_unpack hx, hxu]
      rfl
    · rw [hxu, hyu, hxv, hyv, UnpackedFloat.add]
      dsimp only
      rw [value?_normalize, Int.cast_add, add_mul, apply_decreaseExponent s m (min_le_left e f),
        apply_decreaseExponent t n (min_le_right e f)]

end add

/-! ### Infinite operands -/

section infinite

variable {x y : Float}

theorem unpack_of_top (hx : value? x = some ⊤) : x.toModel.unpack = .infinity .positive := by
  unfold value? at hx
  cases hu : x.toModel.unpack with
  | notANumber =>
    rw [hu] at hx
    cases hx
  | infinity s =>
    cases s with
    | positive => rfl
    | negative =>
      rw [hu] at hx
      exact absurd (Option.some.inj hx) bot_ne_top
  | zero s =>
    rw [hu] at hx
    exact absurd (Option.some.inj hx) EReal.zero_ne_top
  | finite s m e h =>
    rw [hu] at hx
    exact absurd (Option.some.inj hx) (EReal.coe_ne_top _)

theorem unpack_of_pos (hx : x.isFinite = true) (hpos : 0 < toReal x) :
    ∃ m e h, x.toModel.unpack = .finite .positive m e h := by
  obtain ⟨s, -, hxv⟩ | ⟨s, m, e, hm, hxu, hxv, -⟩ := unpack_cases hx
  · exact absurd hxv hpos.ne'
  cases s with
  | positive => exact ⟨m, e, hm, hxu⟩
  | negative =>
    have hneg : toReal x < 0 := by
      rw [hxv]
      exact neg_neg_of_pos (by positivity)
    exact absurd hneg hpos.le.not_gt

theorem value?_sqrt_top (hx : value? x = some ⊤) : value? x.sqrt = some ⊤ := by
  show value? (.ofModel (.pack (UnpackedFloat.sqrt Format.binary64 x.toModel.unpack))) = _
  rw [unpack_of_top hx]
  exact value?_pack_infinity .positive

theorem value?_mul_top (hx : value? x = some ⊤) (hy : y.isFinite = true) (hpos : 0 < toReal y) :
    value? (x * y) = some ⊤ := by
  obtain ⟨m, e, hm, hyu⟩ := unpack_of_pos hy hpos
  show value? (.ofModel (.pack (UnpackedFloat.mul Format.binary64 x.toModel.unpack y.toModel.unpack))) = _
  rw [unpack_of_top hx, hyu]
  exact value?_pack_infinity .positive

theorem value?_div_top (hx : value? x = some ⊤) (hy : y.isFinite = true) (hpos : 0 < toReal y) :
    value? (x / y) = some ⊤ := by
  obtain ⟨m, e, hm, hyu⟩ := unpack_of_pos hy hpos
  show value? (.ofModel (.pack (UnpackedFloat.div Format.binary64 x.toModel.unpack y.toModel.unpack))) = _
  rw [unpack_of_top hx, hyu]
  exact value?_pack_infinity .positive

theorem value?_add_top (hx : value? x = some ⊤) (hy : y.isFinite = true) : value? (x + y) = some ⊤ := by
  show value? (.ofModel (.pack (UnpackedFloat.add Format.binary64 x.toModel.unpack y.toModel.unpack))) = _
  rw [unpack_of_top hx]
  obtain ⟨t, hyu, -⟩ | ⟨t, n, f, hn, hyu, -⟩ := unpack_cases hy
  · rw [hyu]
    exact value?_pack_infinity .positive
  · rw [hyu]
    exact value?_pack_infinity .positive

theorem add_le_add_of_nonneg {c : Float} {v w : EReal} (hx : value? x = some v) (hy : value? y = some w)
    (hv : 0 ≤ v) (hle : v ≤ w) (hc : c.isFinite = true) : x + c ≤ y + c := by
  have hsum : ∃ u, value? (x + c) = some u := by
    induction v with
    | bot => exact absurd hv (not_le.2 EReal.bot_lt_zero)
    | top => exact ⟨⊤, value?_add_top hx hc⟩
    | coe r => exact ⟨_, value?_add (isFinite_of_value? hx).1 hc⟩
  obtain ⟨u, hu⟩ := hsum
  induction w with
  | bot => exact absurd (hv.trans hle) (not_le.2 EReal.bot_lt_zero)
  | top => exact (le_iff_value? hu (value?_add_top hy hc)).2 le_top
  | coe q =>
    induction v with
    | bot => exact absurd hv (not_le.2 EReal.bot_lt_zero)
    | top => exact absurd hle (not_le.2 (EReal.coe_lt_top q))
    | coe r =>
      obtain ⟨hxf, rfl⟩ := isFinite_of_value? hx
      obtain ⟨hyf, rfl⟩ := isFinite_of_value? hy
      rw [le_iff_value? (value?_add hxf hc) (value?_add hyf hc)]
      exact rounded_mono (add_le_add_left (EReal.coe_le_coe_iff.1 hle) _)

end infinite

end MemoryCompiler.Decimal
