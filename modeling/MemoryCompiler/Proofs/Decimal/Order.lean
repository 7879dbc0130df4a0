import MemoryCompiler.Proofs.Decimal.Rounding

/-!
# The order of doubles

Every finite double is a whole number of least doubles, `2 ^ -1074`, and the order of doubles is the
order of these numbers (`compare_unpack`, `lt_iff`, `le_iff`). So of two finite doubles one is below
the other or they are equal, which NaN spoils for doubles at large. The difference of unequal doubles
does not round to zero (`sub_pos`).
-/

namespace MemoryCompiler.Decimal

open Float.Model (UnpackedFloat Format)
open Float.Model.UnpackedFloat (Sign decreaseExponent)

/-- The value as a number of least doubles. -/
def Dyadic.units (d : Dyadic) : Int :=
  (if d.negative then -1 else 1) * (d.mantissa * 2 ^ (d.exponent + 1074).toNat : Nat)

/-! ### Comparison -/

section compare

variable {a b : Dyadic}

theorem units_of_mantissa_eq_zero (h : a.mantissa = 0) : a.units = 0 := by
  rw [Dyadic.units, h, Nat.zero_mul, Int.natCast_zero, mul_zero]

theorem units_pos {m : Nat} {e : Int} (hm : 0 < m) : 0 < Dyadic.units ⟨false, m, e⟩ := by
  rw [Dyadic.units, if_neg Bool.false_ne_true, one_mul]
  exact Int.ofNat_lt.2 (Nat.mul_pos hm (Nat.two_pow_pos _))

theorem units_neg {m : Nat} {e : Int} (hm : 0 < m) : Dyadic.units ⟨true, m, e⟩ < 0 := by
  rw [Dyadic.units, if_pos rfl, neg_one_mul]
  exact neg_lt_zero.2 (Int.ofNat_lt.2 (Nat.mul_pos hm (Nat.two_pow_pos _)))

theorem magnitude_lt_of_exponent_lt (ha : a.Canonical) (hb : b.Canonical)
    (h : a.exponent < b.exponent) :
    a.mantissa * 2 ^ (a.exponent + 1074).toNat < b.mantissa * 2 ^ (b.exponent + 1074).toNat := by
  have hge := ha.exponent_ge
  have hfull : 2 ^ 52 ≤ b.mantissa := hb.normal.resolve_left (by omega)
  calc a.mantissa * 2 ^ (a.exponent + 1074).toNat
      < 2 ^ 53 * 2 ^ (a.exponent + 1074).toNat :=
        Nat.mul_lt_mul_of_pos_right ha.mantissa_lt (Nat.two_pow_pos _)
    _ = 2 ^ 52 * 2 ^ ((a.exponent + 1074).toNat + 1) := by ring
    _ ≤ 2 ^ 52 * 2 ^ (b.exponent + 1074).toNat :=
        Nat.mul_le_mul_left _ (Nat.pow_le_pow_right (by decide) (by omega))
    _ ≤ b.mantissa * 2 ^ (b.exponent + 1074).toNat := Nat.mul_le_mul_right _ hfull

/-- Canonical values are ordered by exponent, then by mantissa. -/
theorem compare_magnitude (ha : a.Canonical) (hb : b.Canonical) :
    (compare a.exponent b.exponent).then (compare a.mantissa b.mantissa) =
      compare (a.mantissa * 2 ^ (a.exponent + 1074).toNat)
        (b.mantissa * 2 ^ (b.exponent + 1074).toNat) := by
  rcases lt_trichotomy a.exponent b.exponent with h | h | h
  · rw [compare_lt_iff_lt.2 h, compare_lt_iff_lt.2 (magnitude_lt_of_exponent_lt ha hb h)]
    rfl
  · have hpos := Nat.two_pow_pos (b.exponent + 1074).toNat
    rw [h, compare_eq_iff_eq.2 rfl, Ordering.then]
    rcases lt_trichotomy a.mantissa b.mantissa with hm | hm | hm
    · rw [compare_lt_iff_lt.2 hm, compare_lt_iff_lt.2 (Nat.mul_lt_mul_of_pos_right hm hpos)]
    · rw [hm, compare_eq_iff_eq.2 rfl, compare_eq_iff_eq.2 rfl]
    · rw [compare_gt_iff_gt.2 hm, compare_gt_iff_gt.2 (Nat.mul_lt_mul_of_pos_right hm hpos)]
  · rw [compare_gt_iff_gt.2 h, compare_gt_iff_gt.2 (magnitude_lt_of_exponent_lt hb ha h)]
    rfl

theorem compare_natCast (m n : Nat) : compare (m : Int) n = compare m n := by
  rcases lt_trichotomy m n with h | h | h
  · rw [compare_lt_iff_lt.2 h, compare_lt_iff_lt.2 (Int.ofNat_lt.2 h)]
  · rw [h, compare_eq_iff_eq.2 rfl, compare_eq_iff_eq.2 rfl]
  · rw [compare_gt_iff_gt.2 h, compare_gt_iff_gt.2 (Int.ofNat_lt.2 h)]

theorem compare_neg_neg (m n : Int) : compare (-m) (-n) = (compare m n).swap := by
  rcases lt_trichotomy m n with h | h | h
  · rw [compare_lt_iff_lt.2 h, compare_gt_iff_gt.2 (neg_lt_neg h)]
    rfl
  · rw [h, compare_eq_iff_eq.2 rfl, compare_eq_iff_eq.2 rfl]
    rfl
  · rw [compare_gt_iff_gt.2 h, compare_lt_iff_lt.2 (neg_lt_neg h)]
    rfl

theorem compare_unpacked {u v : UnpackedFloat} (hu : ofUnpacked u = some a) (hv : ofUnpacked v = some b)
    (ha : a.Canonical) (hb : b.Canonical) : u.compare v = some (compare a.units b.units) := by
  have hzero : ∀ {s : Bool}, Dyadic.units ⟨s, 0, leastExponent⟩ = 0 :=
    units_of_mantissa_eq_zero rfl
  -- Signs and zeros settle all but two numbers of one sign, whose magnitudes are compared.
  cases u with
  | notANumber => cases hu
  | infinity s => cases hu
  | zero s =>
    cases hu
    rw [hzero]
    cases v with
    | notANumber => cases hv
    | infinity t => cases hv
    | zero t =>
      cases hv
      rw [hzero]
      rfl
    | finite t n f hn =>
      cases hv
      cases t with
      | negative => exact congrArg some (compare_gt_iff_gt.2 (units_neg hn)).symm
      | positive => exact congrArg some (compare_lt_iff_lt.2 (units_pos hn)).symm
  | finite s m e hm =>
    cases hu
    cases v with
    | notANumber => cases hv
    | infinity t => cases hv
    | zero t =>
      cases hv
      rw [hzero]
      cases s with
      | negative => exact congrArg some (compare_lt_iff_lt.2 (units_neg hm)).symm
      | positive => exact congrArg some (compare_gt_iff_gt.2 (units_pos hm)).symm
    | finite t n f hn =>
      cases hv
      have hmagnitude := compare_magnitude ha hb
      cases s with
      | negative =>
        cases t with
        | negative =>
          show some ((compare e f).then (compare m n)).swap = some (compare (-1 * _) (-1 * _))
          rw [neg_one_mul, neg_one_mul, compare_neg_neg, compare_natCast]
          exact congrArg (fun o => some (Ordering.swap o)) hmagnitude
        | positive =>
          exact congrArg some (compare_lt_iff_lt.2 ((units_neg hm).trans (units_pos hn))).symm
      | positive =>
        cases t with
        | negative =>
          exact congrArg some (compare_gt_iff_gt.2 ((units_neg hn).trans (units_pos hm))).symm
        | positive =>
          show some ((compare e f).then (compare m n)) = some (compare (1 * _) (1 * _))
          rw [one_mul, one_mul, compare_natCast]
          exact congrArg some hmagnitude

end compare

/-! ### Order -/

section order

variable {x y : Float} {a b : Dyadic}

theorem lt_iff_compare : x < y ↔ x.toModel.unpack.compare y.toModel.unpack = some .lt := by
  show decide (Float.Model.lt x.toModel y.toModel = true) = true ↔ _
  rw [decide_eq_true_eq]
  show UnpackedFloat.lt _ _ = true ↔ _
  rw [UnpackedFloat.lt, beq_iff_eq]

theorem le_iff_compare :
    x ≤ y ↔ ∃ o, x.toModel.unpack.compare y.toModel.unpack = some o ∧ o.isLE = true := by
  show decide (Float.Model.le x.toModel y.toModel = true) = true ↔ _
  rw [decide_eq_true_eq]
  show UnpackedFloat.le _ _ = true ↔ _
  rw [UnpackedFloat.le, Option.any_eq_true]

theorem compare_unpack (hx : decode x = some a) (hy : decode y = some b) :
    x.toModel.unpack.compare y.toModel.unpack = some (compare a.units b.units) :=
  compare_unpacked (decode_eq x ▸ hx) (decode_eq y ▸ hy) (canonical_of_decode hx) (canonical_of_decode hy)

theorem lt_iff (hx : decode x = some a) (hy : decode y = some b) : x < y ↔ a.units < b.units := by
  rw [lt_iff_compare, compare_unpack hx hy, Option.some.injEq, compare_lt_iff_lt]

theorem le_iff (hx : decode x = some a) (hy : decode y = some b) : x ≤ y ↔ a.units ≤ b.units := by
  rw [le_iff_compare, compare_unpack hx hy]
  simp only [Option.some.injEq, exists_eq_left', Ordering.isLE_iff_ne_gt, compare_le_iff_le]

theorem beq_iff (hx : decode x = some a) (hy : decode y = some b) : (x == y) = true ↔ a.units = b.units := by
  show (x.toModel.unpack.compare y.toModel.unpack == some .eq) = true ↔ _
  rw [compare_unpack hx hy, beq_iff_eq, Option.some.injEq, compare_eq_iff_eq]

theorem decode_zero : decode 0 = some ⟨false, 0, leastExponent⟩ := by decide +kernel

theorem zero_lt_iff (hx : decode x = some a) : 0 < x ↔ 0 < a.units := by
  rw [lt_iff decode_zero hx, units_of_mantissa_eq_zero rfl]

theorem not_le_iff (hx : x.isFinite = true) (hy : y.isFinite = true) : ¬ x ≤ y ↔ y < x := by
  obtain ⟨a, ha⟩ := isFinite_iff.1 hx
  obtain ⟨b, hb⟩ := isFinite_iff.1 hy
  rw [le_iff ha hb, lt_iff hb ha, not_le]

theorem not_lt_iff (hx : x.isFinite = true) (hy : y.isFinite = true) : ¬ x < y ↔ y ≤ x := by
  obtain ⟨a, ha⟩ := isFinite_iff.1 hx
  obtain ⟨b, hb⟩ := isFinite_iff.1 hy
  rw [lt_iff ha hb, le_iff hb ha, not_lt]

theorem lt_trans_le {z : Float} (hx : x.isFinite = true) (hy : y.isFinite = true)
    (hz : z.isFinite = true) (hxy : x < y) (hyz : y ≤ z) : x < z := by
  obtain ⟨a, ha⟩ := isFinite_iff.1 hx
  obtain ⟨b, hb⟩ := isFinite_iff.1 hy
  obtain ⟨c, hc⟩ := isFinite_iff.1 hz
  rw [lt_iff ha hb] at hxy
  rw [le_iff hb hc] at hyz
  rw [lt_iff ha hc]
  exact Int.lt_of_lt_of_le hxy hyz

theorem isNaN_of_isFinite (h : x.isFinite = true) : x.isNaN = false := by
  change x.toModel.unpack.isFinite = true at h
  show x.toModel.unpack.isNaN = false
  generalize x.toModel.unpack = u at *
  cases u with
  | notANumber => cases h
  | infinity | zero | finite => rfl

theorem isFinite_of_between {low high : Float} (hlow : low.isFinite = true)
    (hhigh : high.isFinite = true) (hnan : x.isNaN = false) (hge : ¬ x < low) (hle : ¬ high < x) :
    x.isFinite = true := by
  change low.toModel.unpack.isFinite = true at hlow
  change high.toModel.unpack.isFinite = true at hhigh
  change x.toModel.unpack.isNaN = false at hnan
  rw [lt_iff_compare] at hge hle
  show x.toModel.unpack.isFinite = true
  generalize x.toModel.unpack = u at *
  generalize low.toModel.unpack = v at *
  generalize high.toModel.unpack = w at *
  cases u with
  | notANumber => cases hnan
  | zero s => rfl
  | finite s m e h => rfl
  | infinity s =>
    cases s with
    | negative =>
      refine absurd ?_ hge
      cases v with
      | notANumber | infinity => cases hlow
      | zero | finite => rfl
    | positive =>
      refine absurd ?_ hle
      cases w with
      | notANumber | infinity => cases hhigh
      | zero | finite => rfl

end order

/-! ### Differences -/

theorem pack_of_lt_exponent {s : Sign} {m : Nat} {e : Int} (h : 0 < m) (he : 971 < e) :
    Float.Model.pack (.finite s m e h) = .pack (.infinity s) := by
  have hbiased : 2 ^ Format.binary64.exponentBits ≤
      (e + (Format.binary64.exponentBias : Int) + ((52 : Nat) : Int)).toNat + 1 := by
    have hbias : Format.binary64.exponentBias = 1023 := rfl
    rw [show Format.binary64.exponentBits = 11 from rfl]
    omega
  have hbits : UnpackedFloat.pack Format.binary64 (.finite s m e h) =
      UnpackedFloat.packedInfinity Format.binary64 s := if_pos hbiased
  simp only [Float.Model.pack, hbits]
  rfl

theorem zero_lt_pack {m : Nat} {e : Int} (h : 0 < m) (hm : m < 2 ^ 53) (he : -1074 ≤ e)
    (hnormal : e = -1074 ∨ 2 ^ 52 ≤ m) : 0 < Float.ofModel (.pack (.finite .positive m e h)) := by
  by_cases hle : e ≤ 971
  · exact (zero_lt_iff (decode_pack h ⟨hm, he, hle, hnormal⟩)).2 (units_pos h)
  · rw [pack_of_lt_exponent h (by omega)]
    decide +kernel

/-- The mantissas of a difference, brought to the smaller exponent, in least doubles. -/
theorem units_decreaseExponent {s : Sign} {m : Nat} {e e' : Int} (hge : -1074 ≤ e') (hle : e' ≤ e) :
    s.apply ((decreaseExponent m e e').1 : Int) * 2 ^ (e' + 1074).toNat =
      Dyadic.units ⟨s == .negative, m, e⟩ := by
  have hshift : (e - e').toNat + (e' + 1074).toNat = (e + 1074).toNat := by omega
  rw [decreaseExponent, Dyadic.units, Nat.shiftLeft_eq, ← hshift, Nat.pow_add]
  push_cast
  cases s with
  | negative =>
    show -_ * _ = -1 * _
    ring
  | positive => exact (mul_assoc _ _ _).trans (one_mul _).symm

theorem zero_lt_sub {x y : Float} (hx : x.isFinite = true) (hy : y.isFinite = true) (h : y < x) :
    0 < x - y := by
  obtain ⟨a, ha⟩ := isFinite_iff.1 hx
  obtain ⟨b, hb⟩ := isFinite_iff.1 hy
  rw [lt_iff hb ha] at h
  have hca := canonical_of_decode ha
  have hcb := canonical_of_decode hb
  rw [decode_eq] at ha hb
  show 0 < Float.ofModel (.pack (UnpackedFloat.sub Format.binary64 x.toModel.unpack y.toModel.unpack))
  generalize x.toModel.unpack = u at *
  generalize y.toModel.unpack = v at *
  cases u with
  | notANumber => cases ha
  | infinity s => cases ha
  | zero s =>
    cases ha
    rw [units_of_mantissa_eq_zero (a := ⟨s == .negative, 0, leastExponent⟩) rfl] at h
    cases v with
    | notANumber => cases hb
    | infinity t => cases hb
    | zero t =>
      cases hb
      exact absurd h (by rw [units_of_mantissa_eq_zero rfl]; exact lt_irrefl 0)
    | finite t n f hn =>
      cases hb
      cases t with
      | negative => exact zero_lt_pack hn hcb.mantissa_lt hcb.exponent_ge hcb.normal
      | positive => exact absurd h (units_pos hn).not_gt
  | finite s m e hm =>
    cases ha
    cases v with
    | notANumber => cases hb
    | infinity t => cases hb
    | zero t =>
      cases hb
      rw [units_of_mantissa_eq_zero rfl] at h
      cases s with
      | negative => exact absurd h (units_neg hm).not_gt
      | positive => exact zero_lt_pack hm hca.mantissa_lt hca.exponent_ge hca.normal
    | finite t n f hn =>
      cases hb
      -- At the smaller exponent the difference of the mantissas is exact, and rounding keeps it above zero.
      have hge : -1074 ≤ min e f := le_min hca.exponent_ge hcb.exponent_ge
      have hu := units_decreaseExponent (s := s) (m := m) hge (min_le_left e f)
      have hv := units_decreaseExponent (s := t) (m := n) hge (min_le_right e f)
      rw [← hu, ← hv, ← sub_pos, ← sub_mul] at h
      have hpos := pos_of_mul_pos_left h (by positivity)
      have hnormalize : UnpackedFloat.sub Format.binary64 (.finite s m e hm) (.finite t n f hn) =
          UnpackedFloat.round Format.binary64 .positive
            (s.apply ((decreaseExponent m e (min e f)).1 : Int) -
              t.apply ((decreaseExponent n f (min e f)).1 : Int)).toNat (min e f) := by
        rw [UnpackedFloat.sub]
        dsimp only
        rw [UnpackedFloat.normalize, compare_gt_iff_gt.2 hpos]
      obtain ⟨m', e', hm', hround, hbits, hge', hnormal⟩ :=
        exists_round (s := .positive) (Int.pos_iff_toNat_pos.1 hpos) hge
      rw [hnormalize, hround]
      exact zero_lt_pack hm' hbits hge' hnormal

end MemoryCompiler.Decimal
