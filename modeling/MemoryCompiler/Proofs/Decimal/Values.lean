import MemoryCompiler.Decimal.Order
import MemoryCompiler.Proofs.Decimal.Accuracy
import MemoryCompiler.Proofs.Decimal.Reals

/-!
# The numbers that doubles stand for

A double that is not NaN stands for a number, where the infinities count as the ends of the line (`value?`),
and doubles are ordered as their numbers (`le_iff_value?`). An operation that describes its exact result is
left with the rounded one (`value?_roundWithAccuracy`).
-/

namespace MemoryCompiler.Decimal

open Float.Model (UnpackedFloat Format)
open Float.Model.UnpackedFloat

/-! ### Signs -/

/-- A quantity with a sign. -/
def withSign {α : Type} [Neg α] (s : Sign) (a : α) : α :=
  match s with
  | .negative => -a
  | .positive => a

section withSign

variable (s t : Sign)

theorem coe_withSign (v : ℝ) : ((withSign s v : ℝ) : EReal) = withSign s (v : EReal) := by
  cases s with
  | negative => exact EReal.coe_neg v
  | positive => rfl

theorem rounded_withSign (v : ℝ) : rounded (withSign s v) = withSign s (rounded v) := by
  cases s with
  | negative => exact rounded_neg v
  | positive => rfl

theorem withSign_mul (v w : ℝ) : withSign s v * withSign t w = withSign (s * t) (v * w) := by
  cases s <;> cases t
  · exact neg_mul_neg v w
  · exact neg_mul v w
  · exact mul_neg v w
  · rfl

theorem withSign_div (v w : ℝ) : withSign s v / withSign t w = withSign (s / t) (v / w) := by
  cases s <;> cases t
  · exact neg_div_neg_eq v w
  · exact neg_div w v
  · exact div_neg v
  · rfl

theorem value_withSign (m : ℕ) (e : ℤ) : Dyadic.value ⟨s == .negative, m, e⟩ = withSign s ((m : ℝ) * 2 ^ e) := by
  cases s with
  | negative => exact neg_one_mul _
  | positive => exact one_mul _

end withSign

/-! ### The number of a double -/

/-- The number that an unpacked double stands for; NaN stands for none. -/
noncomputable def unpackedValue : UnpackedFloat → Option EReal
  | .notANumber => none
  | .infinity s => some (withSign s ⊤)
  | .zero _ => some 0
  | .finite s m e _ => some (Dyadic.value ⟨s == .negative, m, e⟩ : EReal)

/-- The number that a double stands for. -/
noncomputable def value? (x : Float) : Option EReal := unpackedValue x.toModel.unpack

section value

variable {x y : Float}

theorem value?_of_decode {d : Dyadic} (hx : decode x = some d) : value? x = some (d.value : EReal) := by
  rw [decode_eq] at hx
  unfold value?
  cases hu : x.toModel.unpack with
  | notANumber | infinity s =>
    rw [hu] at hx
    cases hx
  | zero s =>
    rw [hu] at hx
    cases hx
    rw [value_withSign, Nat.cast_zero, zero_mul]
    cases s with
    | negative => exact congrArg some (congrArg Real.toEReal neg_zero.symm)
    | positive => rfl
  | finite s m e h =>
    rw [hu] at hx
    cases hx
    rfl

theorem value?_of_isFinite (hx : x.isFinite = true) : value? x = some (toReal x : EReal) := by
  obtain ⟨d, hd⟩ := isFinite_iff.1 hx
  rw [value?_of_decode hd, toReal, hd]

theorem isFinite_of_value? {v : ℝ} (hx : value? x = some (v : EReal)) : x.isFinite = true ∧ toReal x = v := by
  have hfinite : x.isFinite = true := by
    change unpackedValue x.toModel.unpack = _ at hx
    show x.toModel.unpack.isFinite = true
    cases hu : x.toModel.unpack with
    | zero | finite => rfl
    | notANumber =>
      rw [hu] at hx
      cases hx
    | infinity s =>
      rw [hu] at hx
      cases s with
      | negative => exact absurd (Option.some.inj hx).symm (EReal.coe_ne_bot v)
      | positive => exact absurd (Option.some.inj hx).symm (EReal.coe_ne_top v)
  rw [value?_of_isFinite hfinite] at hx
  exact ⟨hfinite, EReal.coe_injective (Option.some.inj hx)⟩

theorem isNaN_eq_false_iff : x.isNaN = false ↔ ∃ v, value? x = some v := by
  show x.toModel.unpack.isNaN = false ↔ ∃ v, unpackedValue x.toModel.unpack = some v
  cases x.toModel.unpack with
  | notANumber => exact iff_of_false (by decide) (by rintro ⟨v, h⟩; cases h)
  | infinity | zero | finite => exact iff_of_true rfl ⟨_, rfl⟩

theorem unpack_cases (hx : x.isFinite = true) : (∃ s, x.toModel.unpack = .zero s ∧ toReal x = 0) ∨
    ∃ s m e h, x.toModel.unpack = .finite s m e h ∧ toReal x = withSign s ((m : ℝ) * 2 ^ e) ∧
      Dyadic.Canonical ⟨s == .negative, m, e⟩ := by
  obtain ⟨d, hd⟩ := isFinite_iff.1 hx
  have hcanonical := canonical_of_decode hd
  have hvalue : toReal x = d.value := by rw [toReal, hd]
  rw [hvalue]
  rw [decode_eq] at hd
  cases hu : x.toModel.unpack with
  | notANumber | infinity s =>
    rw [hu] at hd
    cases hd
  | zero s =>
    rw [hu] at hd
    cases hd
    refine .inl ⟨s, rfl, ?_⟩
    rw [Dyadic.value, Nat.cast_zero, zero_mul, mul_zero]
  | finite s m e h =>
    rw [hu] at hd
    cases hd
    exact .inr ⟨s, m, e, h, rfl, value_withSign s m e, hcanonical⟩

/-! ### Order -/

theorem compare_of_not_finite {u w : UnpackedFloat} {a b : EReal} (hu : unpackedValue u = some a)
    (hw : unpackedValue w = some b) (h : u.isFinite = false ∨ w.isFinite = false) :
    u.compare w = some (compare a b) := by
  cases u with
  | notANumber => cases hu
  | infinity s =>
    cases hu
    cases w with
    | notANumber => cases hw
    | infinity t =>
      cases hw
      cases s <;> cases t
      · exact congrArg some (compare_eq_iff_eq.2 rfl).symm
      · exact congrArg some (compare_lt_iff_lt.2 (by simp [withSign])).symm
      · exact congrArg some (compare_gt_iff_gt.2 (by simp [withSign])).symm
      · exact congrArg some (compare_eq_iff_eq.2 rfl).symm
    | zero t =>
      cases hw
      cases s with
      | negative => exact congrArg some (compare_lt_iff_lt.2 EReal.bot_lt_zero).symm
      | positive => exact congrArg some (compare_gt_iff_gt.2 EReal.zero_lt_top).symm
    | finite t n f hn =>
      cases hw
      cases s with
      | negative => exact congrArg some (compare_lt_iff_lt.2 (EReal.bot_lt_coe _)).symm
      | positive => exact congrArg some (compare_gt_iff_gt.2 (EReal.coe_lt_top _)).symm
  | zero s =>
    cases hu
    cases w with
    | notANumber => cases hw
    | zero | finite => rcases h with h | h <;> cases h
    | infinity t =>
      cases hw
      cases t with
      | negative => exact congrArg some (compare_gt_iff_gt.2 EReal.bot_lt_zero).symm
      | positive => exact congrArg some (compare_lt_iff_lt.2 EReal.zero_lt_top).symm
  | finite s m e hm =>
    cases hu
    cases w with
    | notANumber => cases hw
    | zero | finite => rcases h with h | h <;> cases h
    | infinity t =>
      cases hw
      cases t with
      | negative =>
        refine Eq.trans ?_ (congrArg some (compare_gt_iff_gt.2 (EReal.bot_lt_coe _)).symm)
        cases s <;> rfl
      | positive =>
        refine Eq.trans ?_ (congrArg some (compare_lt_iff_lt.2 (EReal.coe_lt_top _)).symm)
        cases s <;> rfl

section order

variable {v w : EReal}

theorem compare_value? (hx : value? x = some v) (hy : value? y = some w) :
    x.toModel.unpack.compare y.toModel.unpack = some (compare v w) := by
  by_cases hfinite : x.isFinite = true ∧ y.isFinite = true
  · obtain ⟨hxf, hyf⟩ := hfinite
    obtain ⟨a, ha⟩ := isFinite_iff.1 hxf
    obtain ⟨b, hb⟩ := isFinite_iff.1 hyf
    rw [value?_of_isFinite hxf] at hx
    rw [value?_of_isFinite hyf] at hy
    cases hx
    cases hy
    rw [compare_unpack ha hb, toReal_of_decode ha, toReal_of_decode hb]
    -- Both are whole numbers of the least double.
    have hunit : (0 : ℝ) < 2 ^ (-1074 : ℤ) := by positivity
    rcases lt_trichotomy a.units b.units with h | h | h
    · rw [compare_lt_iff_lt.2 h, compare_lt_iff_lt.2 (EReal.coe_lt_coe_iff.2
        (mul_lt_mul_of_pos_right (Int.cast_lt.2 h) hunit))]
    · rw [h, compare_eq_iff_eq.2 rfl, compare_eq_iff_eq.2 rfl]
    · rw [compare_gt_iff_gt.2 h, compare_gt_iff_gt.2 (EReal.coe_lt_coe_iff.2
        (mul_lt_mul_of_pos_right (Int.cast_lt.2 h) hunit))]
  · have hnot : x.toModel.unpack.isFinite = false ∨ y.toModel.unpack.isFinite = false := by
      by_contra hcontra
      rw [not_or, Bool.not_eq_false, Bool.not_eq_false] at hcontra
      exact hfinite hcontra
    exact compare_of_not_finite hx hy hnot

theorem lt_iff_value? (hx : value? x = some v) (hy : value? y = some w) : x < y ↔ v < w := by
  rw [lt_iff_compare, compare_value? hx hy, Option.some.injEq, compare_lt_iff_lt]

theorem le_iff_value? (hx : value? x = some v) (hy : value? y = some w) : x ≤ y ↔ v ≤ w := by
  rw [le_iff_compare, compare_value? hx hy]
  simp only [Option.some.injEq, exists_eq_left', Ordering.isLE_iff_ne_gt, compare_le_iff_le]

theorem value?_of_compare {o : Ordering} (h : x.toModel.unpack.compare y.toModel.unpack = some o) :
    (∃ v, value? x = some v) ∧ ∃ w, value? y = some w := by
  unfold value?
  generalize x.toModel.unpack = u at *
  generalize y.toModel.unpack = w at *
  cases u with
  | notANumber => cases h
  | infinity s | finite s =>
    cases w with
    | notANumber => cases s <;> cases h
    | infinity | zero | finite => exact ⟨⟨_, rfl⟩, _, rfl⟩
  | zero s =>
    cases w with
    | notANumber => cases h
    | infinity | zero | finite => exact ⟨⟨_, rfl⟩, _, rfl⟩

theorem value?_of_le (h : x ≤ y) : ∃ v w, value? x = some v ∧ value? y = some w ∧ v ≤ w := by
  obtain ⟨o, ho, -⟩ := le_iff_compare.1 h
  obtain ⟨⟨v, hv⟩, w, hw⟩ := value?_of_compare ho
  exact ⟨v, w, hv, hw, (le_iff_value? hv hw).1 h⟩

theorem value?_of_lt (h : x < y) : ∃ v w, value? x = some v ∧ value? y = some w ∧ v < w := by
  obtain ⟨⟨v, hv⟩, w, hw⟩ := value?_of_compare (lt_iff_compare.1 h)
  exact ⟨v, w, hv, hw, (lt_iff_value? hv hw).1 h⟩

theorem le_trans_of_doubles {z : Float} (hxy : x ≤ y) (hyz : y ≤ z) : x ≤ z := by
  obtain ⟨a, b, ha, hb, hab⟩ := value?_of_le hxy
  obtain ⟨b', c, hb', hc, hbc⟩ := value?_of_le hyz
  obtain rfl : b = b' := Option.some.inj (hb.symm.trans hb')
  exact (le_iff_value? ha hc).2 (hab.trans hbc)

theorem isNaN_of_value? (hx : value? x = some v) : x.isNaN = false := isNaN_eq_false_iff.2 ⟨v, hx⟩

theorem value?_larger (hx : value? x = some v) (hy : value? y = some w) :
    value? (larger x y) = some (max v w) := by
  have hlt := lt_iff_value? hx hy
  have hgt := lt_iff_value? hy hx
  rw [larger, if_neg (by rw [isNaN_of_value? hx]; decide), if_neg (by rw [isNaN_of_value? hy]; decide)]
  split_ifs with hless hmore hnegative
  · rw [hy, max_eq_right (hlt.1 hless).le]
  · rw [hx, max_eq_left (hgt.1 hmore).le]
  · rw [hy, max_eq_right (not_lt.1 fun h => hmore (hgt.2 h))]
  · rw [hx, max_eq_left (not_lt.1 fun h => hless (hlt.2 h))]

theorem value?_smaller (hx : value? x = some v) (hy : value? y = some w) :
    value? (smaller x y) = some (min v w) := by
  have hlt := lt_iff_value? hx hy
  have hgt := lt_iff_value? hy hx
  rw [smaller, if_neg (by rw [isNaN_of_value? hx]; decide), if_neg (by rw [isNaN_of_value? hy]; decide)]
  split_ifs with hless hmore hnegative
  · rw [hx, min_eq_left (hlt.1 hless).le]
  · rw [hy, min_eq_right (hgt.1 hmore).le]
  · rw [hx, min_eq_left (not_lt.1 fun h => hmore (hgt.2 h))]
  · rw [hy, min_eq_right (not_lt.1 fun h => hless (hlt.2 h))]

end order

end value

/-! ### Packing a result -/

section pack

theorem value?_pack_zero (s : Sign) : value? (.ofModel (.pack (.zero s))) = some 0 := by
  have hdecode : decode (.ofModel (.pack (.zero s))) = some ⟨s == .negative, 0, leastExponent⟩ := by
    cases s
    · decide +kernel
    · decide +kernel
  rw [value?_of_decode hdecode, Dyadic.value, Nat.cast_zero, zero_mul, mul_zero]
  rfl

theorem value?_pack_infinity (s : Sign) : value? (.ofModel (.pack (.infinity s))) = some (withSign s ⊤) := by
  have hunpack : (Float.Model.pack (.infinity s)).unpack = .infinity s := by
    cases s
    · rfl
    · rfl
  show unpackedValue (Float.Model.pack (.infinity s)).unpack = _
  rw [hunpack]
  rfl

variable {s : Sign} {m : ℕ} {e : ℤ}

theorem value?_pack (h : 0 < m) (hm : m < 2 ^ 53) (he : -1074 ≤ e) (hnormal : e = -1074 ∨ 2 ^ 52 ≤ m) :
    value? (.ofModel (.pack (.finite s m e h))) = some (withSign s (bounded (m * 2 ^ e))) := by
  by_cases hle : e ≤ 971
  · rw [value?_of_decode (decode_pack h ⟨hm, he, hle, hnormal⟩), value_withSign, coe_withSign,
      bounded_of_lt (mantissa_mul_zpow_lt hm hle)]
  · have hge : (2 : ℝ) ^ (1024 : ℤ) ≤ m * 2 ^ e := by
      have hfull : 2 ^ 52 ≤ m := hnormal.resolve_left (by omega)
      calc (2 : ℝ) ^ (1024 : ℤ) ≤ 2 ^ (52 + e) := zpow_le_zpow_right₀ (by norm_num) (by omega)
        _ = 2 ^ 52 * 2 ^ e := by rw [zpow_add₀ two_ne_zero]; norm_cast
        _ ≤ m * 2 ^ e := mul_le_mul_of_nonneg_right (by exact_mod_cast hfull) (by positivity)
    rw [pack_of_lt_exponent h (by omega), value?_pack_infinity, bounded_of_le hge]

/-- **An operation that describes its exact result is left with the rounded one.** -/
theorem value?_roundWithAccuracy {a : Accuracy} {v : ℝ} (s : Sign) (hv : 0 < v)
    (hdescribes : Describes a (v / 2 ^ e - m)) (he : e ≤ lastPlace v) :
    value? (.ofModel (.pack (roundWithAccuracy Format.binary64 s m e a))) = some (rounded (withSign s v)) := by
  have hplace := lastPlace_ge v
  rw [rounded_withSign, rounded_of_nonneg hv.le, roundMagnitude_eq]
  obtain ⟨hzero, hresult⟩ | ⟨n, hn, heq, hlt, hresult⟩ | ⟨hcarry, hresult⟩ :=
    roundWithAccuracy_cases s hv hdescribes he
  · rw [hresult, value?_pack_zero, hzero, Int.cast_zero, zero_mul, bounded_zero]
    cases s with
    | negative => exact congrArg some (congrArg Real.toEReal neg_zero.symm)
    | positive => rfl
  · have hnormal : lastPlace v = -1074 ∨ 2 ^ 52 ≤ n := by
      by_cases hleast : lastPlace v = -1074
      · exact .inl hleast
      · have hfull := le_roundEven_lastPlace hv hleast
        rw [heq] at hfull
        exact .inr (by exact_mod_cast hfull)
    rw [hresult, value?_pack hn hlt hplace hnormal, heq, Int.cast_natCast]
  · have hpower : ((2 ^ 52 : ℕ) : ℝ) * 2 ^ (lastPlace v + 1) = ((2 ^ 53 : ℤ) : ℝ) * 2 ^ lastPlace v := by
      rw [zpow_add_one₀ two_ne_zero]
      push_cast
      ring
    rw [hresult, value?_pack (by decide) (by decide) (by omega) (.inr (le_refl _)), hpower, hcarry]

end pack

end MemoryCompiler.Decimal
