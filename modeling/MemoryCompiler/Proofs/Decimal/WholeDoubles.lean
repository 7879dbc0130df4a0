import MemoryCompiler.Proofs.Decimal.Order

/-!
# Whole numbers as doubles

Below `2 ^ 53` every natural number is a double and has one double only
(`wholeValue_eq_some_iff`). The positive doubles among these are those that are whole, positive and not
above the largest of them (`isCount_iff`).
-/

namespace MemoryCompiler.Decimal

open Float.Model (UnpackedFloat Format)
open Float.Model.UnpackedFloat

theorem unpack_of_decode {x : Float} {m : Nat} {e : Int} (h : 0 < m)
    (hx : decode x = some ⟨false, m, e⟩) : x.toModel.unpack = .finite .positive m e h := by
  rw [decode_eq] at hx
  generalize x.toModel.unpack = u at hx
  cases u with
  | notANumber => cases hx
  | infinity s => cases hx
  | zero s =>
    simp only [ofUnpacked, Option.some.injEq, Dyadic.mk.injEq] at hx
    omega
  | finite s m' e' hm' =>
    simp only [ofUnpacked, Option.some.injEq, Dyadic.mk.injEq] at hx
    obtain ⟨hs, rfl, rfl⟩ := hx
    cases s
    · cases hs
    · rfl

theorem unpack_one : (Float.ofBits 0x3FF0000000000000).toModel.unpack =
    .finite .positive (2 ^ 52) (-52) (by decide) :=
  unpack_of_decode (by decide) (by decide +kernel)

section whole

variable {n : Nat} (hn : 0 < n) (hlt : n < 2 ^ 53)

include hn hlt

theorem whole_bounds : 2 ^ 52 ≤ n * 2 ^ (52 - n.log2) ∧ n * 2 ^ (52 - n.log2) < 2 ^ 53 := by
  have hlog : n.log2 ≤ 52 := Nat.le_of_lt_succ ((Nat.log2_lt hn.ne').2 hlt)
  have hpos : n * 2 ^ (52 - n.log2) ≠ 0 := (Nat.mul_pos hn (Nat.two_pow_pos _)).ne'
  refine (Nat.log2_eq_iff hpos).1 ?_
  rw [log2_mul_two_pow hn]
  omega

theorem canonical_whole (s : Sign) :
    Dyadic.Canonical ⟨s == .negative, n * 2 ^ (52 - n.log2), -((52 - n.log2 : Nat) : Int)⟩ where
  mantissa_lt := (whole_bounds hn hlt).2
  exponent_ge := show (-1074 : Int) ≤ -((52 - n.log2 : Nat) : Int) by omega
  exponent_le := show -((52 - n.log2 : Nat) : Int) ≤ 971 by omega
  normal := .inr (whole_bounds hn hlt).1

theorem decode_toFloat : decode n.toUInt64.toFloat =
    some ⟨false, n * 2 ^ (52 - n.log2), -((52 - n.log2 : Nat) : Int)⟩ := by
  have hnat : n.toUInt64.toNat = n := by
    rw [Nat.toUInt64_eq, UInt64.toNat_ofNat']
    omega
  have hround : UnpackedFloat.ofUInt64 Format.binary64 n.toUInt64 =
      UnpackedFloat.round Format.binary64 .positive n 0 := by
    have hsign : compare (n : Int) 0 = .gt := by
      rw [compare_gt_iff_gt]
      omega
    rw [UnpackedFloat.ofUInt64, UnpackedFloat.ofNat, UnpackedFloat.ofInt, hnat, UnpackedFloat.normalize, hsign]
    rfl
  show decode (.ofModel (.pack (UnpackedFloat.ofUInt64 Format.binary64 n.toUInt64))) = _
  rw [hround, round_whole hn hlt]
  exact decode_pack _ (canonical_whole hn hlt .positive)

theorem decode_ofNat : decode (Float.ofNat n) =
    some ⟨false, n * 2 ^ (52 - n.log2), -((52 - n.log2 : Nat) : Int)⟩ := by
  have hpos : 0 < n * 2 ^ (52 - n.log2) := Nat.mul_pos hn (Nat.two_pow_pos _)
  have hmul : Float.ofNat n = n.toUInt64.toFloat * Float.ofBits 0x3FF0000000000000 := by
    show Float.ofScientific n false 0 = _
    rw [Float.ofScientific, dif_pos ⟨hlt, by decide⟩]
    rfl
  have hproduct : UnpackedFloat.mul Format.binary64 n.toUInt64.toFloat.toModel.unpack
      (Float.ofBits 0x3FF0000000000000).toModel.unpack =
      .finite .positive (n * 2 ^ (52 - n.log2)) (-((52 - n.log2 : Nat) : Int)) hpos := by
    rw [unpack_of_decode hpos (decode_toFloat hn hlt), unpack_one]
    obtain ⟨hlow, hhigh⟩ := whole_bounds hn hlt
    exact roundWithAccuracy_mul_one hlow hhigh (by omega)
  rw [hmul]
  show decode (.ofModel (.pack (UnpackedFloat.mul Format.binary64 n.toUInt64.toFloat.toModel.unpack
      (Float.ofBits 0x3FF0000000000000).toModel.unpack))) = _
  rw [hproduct]
  exact decode_pack _ (canonical_whole hn hlt .positive)

theorem isFinite_ofNat : (Float.ofNat n).isFinite = true := isFinite_iff.2 ⟨_, decode_ofNat hn hlt⟩

theorem eq_whole_of_canonical {m : Nat} {e : Int} (hc : Dyadic.Canonical ⟨false, m, e⟩)
    (hvalue : if 0 ≤ e then m * 2 ^ e.toNat = n else m = n * 2 ^ (-e).toNat) :
    m = n * 2 ^ (52 - n.log2) ∧ e = -((52 - n.log2 : Nat) : Int) := by
  have hm : m < 2 ^ 53 := hc.mantissa_lt
  have hnormal : e = -1074 ∨ 2 ^ 52 ≤ m := hc.normal
  -- Either way the mantissa fills its bits, which leaves one exponent.
  split_ifs at hvalue with he
  · have hlow : 2 ^ 52 ≤ m := hnormal.resolve_left (by omega)
    have hzero : e.toNat = 0 := by
      by_contra hne
      have htwo : m * 2 ^ 1 ≤ m * 2 ^ e.toNat :=
        Nat.mul_le_mul_left m (Nat.pow_le_pow_right (by decide) (by omega))
      omega
    rw [hzero, Nat.pow_zero, Nat.mul_one] at hvalue
    rw [← hvalue, (Nat.log2_eq_iff (by omega)).2 ⟨hlow, hm⟩]
    omega
  · have hlow : 2 ^ 52 ≤ m := by
      refine hnormal.resolve_left fun hleast => ?_
      have hlarge : 1 * 2 ^ (-e).toNat ≤ m := by
        rw [hvalue]
        exact Nat.mul_le_mul_right _ hn
      have hfar : 2 ^ 53 ≤ 2 ^ (-e).toNat := Nat.pow_le_pow_right (by decide) (by omega)
      omega
    have hlog := (Nat.log2_eq_iff (by omega)).2 ⟨hlow, hm⟩
    rw [hvalue, log2_mul_two_pow hn] at hlog
    have hshift : (-e).toNat = 52 - n.log2 := by omega
    rw [hshift] at hvalue
    exact ⟨hvalue, by omega⟩

omit hn hlt in
theorem wholeValue_eq {x : Float} {d : Dyadic} (hx : decode x = some d) :
    wholeValue x = if d.magnitude.1 % d.magnitude.2 = 0 then
      some (if d.negative = true then -((d.magnitude.1 / d.magnitude.2 : Nat) : Int)
        else ((d.magnitude.1 / d.magnitude.2 : Nat) : Int)) else none := by
  rw [wholeValue, hx]
  rfl

omit hlt in
theorem wholeValue_of_decode {x : Float} {d : Dyadic} (hx : decode x = some d) :
    wholeValue x = some (n : Int) ↔ d.negative = false ∧
      (if 0 ≤ d.exponent then d.mantissa * 2 ^ d.exponent.toNat = n
        else d.mantissa = n * 2 ^ (-d.exponent).toNat) := by
  have hsigned : ∀ q : Nat, (some (if d.negative = true then -(q : Int) else q) = some (n : Int)) ↔
      d.negative = false ∧ q = n := by
    intro q
    cases d.negative with
    | false => simp
    | true =>
      simp
      omega
  rw [wholeValue_eq hx, Dyadic.magnitude]
  by_cases he : 0 ≤ d.exponent
  · rw [if_pos he, if_pos he, if_pos (Nat.mod_one _), Nat.div_one]
    exact hsigned _
  · rw [if_neg he, if_neg he]
    have hpos := Nat.two_pow_pos (-d.exponent).toNat
    generalize 2 ^ (-d.exponent).toNat = unit at hpos
    by_cases hrest : d.mantissa % unit = 0
    · rw [if_pos hrest, hsigned, Nat.div_eq_iff_eq_mul_left hpos (Nat.dvd_of_mod_eq_zero hrest)]
    · rw [if_neg hrest]
      constructor
      · intro h
        cases h
      · rintro ⟨-, h⟩
        rw [h, Nat.mul_mod_left] at hrest
        exact absurd rfl hrest

/-- Below `2 ^ 53` a positive whole number is one double. -/
theorem wholeValue_eq_some_iff {x : Float} : wholeValue x = some (n : Int) ↔ x = Float.ofNat n := by
  constructor
  · intro hx
    cases hd : decode x with
    | none =>
      rw [wholeValue, hd] at hx
      cases hx
    | some d =>
      obtain ⟨negative, m, e⟩ := d
      obtain ⟨hsign, hvalue⟩ := (wholeValue_of_decode hn hd).1 hx
      cases hsign
      obtain ⟨rfl, rfl⟩ := eq_whole_of_canonical hn hlt (canonical_of_decode hd) hvalue
      exact decode_injective hd (decode_ofNat hn hlt)
  · rintro rfl
    refine (wholeValue_of_decode hn (decode_ofNat hn hlt)).2 ⟨rfl, ?_⟩
    dsimp only
    split_ifs with h
    · have hfull : 52 - n.log2 = 0 := by omega
      rw [hfull]
      exact (Nat.mul_one _).trans (Nat.mul_one n)
    · rw [Int.neg_neg, Int.toNat_natCast]

end whole

/-! ### Order -/

/-- One in least doubles. -/
def unitsOfOne : Nat := 2 ^ (-leastExponent).toNat

theorem unitsOfOne_pos : 0 < unitsOfOne := Nat.two_pow_pos _

theorem units_of_wholeValue {x : Float} {d : Dyadic} {k : Int} (hx : decode x = some d)
    (hk : wholeValue x = some k) : d.units = k * unitsOfOne := by
  have hge := (canonical_of_decode hx).exponent_ge
  have hleast : leastExponent = -1074 := rfl
  have hsigned : ∀ q : Nat, d.mantissa * 2 ^ (d.exponent + 1074).toNat = q * unitsOfOne →
      some (if d.negative = true then -(q : Int) else q) = some k → d.units = k * unitsOfOne := by
    intro q hq hk
    rw [Dyadic.units, hq, ← Option.some.inj hk, Int.natCast_mul]
    cases d.negative
    · exact one_mul _
    · exact (neg_one_mul _).trans (neg_mul _ _).symm
  rw [wholeValue_eq hx, Dyadic.magnitude] at hk
  by_cases he : 0 ≤ d.exponent
  · have hsum : (d.exponent + 1074).toNat = d.exponent.toNat + (-leastExponent).toNat := by omega
    rw [if_pos he, if_pos (Nat.mod_one _), Nat.div_one] at hk
    refine hsigned _ ?_ hk
    rw [hsum, Nat.pow_add, unitsOfOne, Nat.mul_assoc]
  · have hsum : (-leastExponent).toNat = (-d.exponent).toNat + (d.exponent + 1074).toNat := by omega
    rw [if_neg he] at hk
    by_cases hrest : d.mantissa % 2 ^ (-d.exponent).toNat = 0
    · rw [if_pos hrest] at hk
      refine hsigned _ ?_ hk
      rw [unitsOfOne, hsum, Nat.pow_add, ← Nat.mul_assoc,
        Nat.div_mul_cancel (Nat.dvd_of_mod_eq_zero hrest)]
    · rw [if_neg hrest] at hk
      cases hk

theorem isCount_iff {x : Float} : (wholeValue x).isSome = true ∧ 0 < x ∧
    -Float.ofNat safeLimit ≤ x ∧ x ≤ Float.ofNat safeLimit ↔
    ∃ n, 0 < n ∧ n ≤ safeLimit ∧ x = Float.ofNat n := by
  -- In least doubles every bound is one of whole numbers, times the units of one.
  have hpositive : (0 : Int) < unitsOfOne := Int.ofNat_lt.2 unitsOfOne_pos
  have hsafe : safeLimit < 2 ^ 53 := by decide
  have hlimit := decode_ofNat (n := safeLimit) (by decide) hsafe
  have hunits := units_of_wholeValue hlimit ((wholeValue_eq_some_iff (by decide) hsafe).2 rfl)
  constructor
  · rintro ⟨hwhole, hpos, -, hle⟩
    obtain ⟨k, hk⟩ := Option.isSome_iff_exists.1 hwhole
    obtain ⟨d, hd, -⟩ := Option.bind_eq_some_iff.1 hk
    rw [zero_lt_iff hd, units_of_wholeValue hd hk] at hpos
    rw [le_iff hd hlimit, hunits, units_of_wholeValue hd hk] at hle
    have hkpos : 0 < k := pos_of_mul_pos_left hpos hpositive.le
    have hkle : k ≤ safeLimit := le_of_mul_le_mul_right hle hpositive
    obtain ⟨n, rfl⟩ := Int.eq_ofNat_of_zero_le hkpos.le
    have hn : 0 < n := Int.natCast_pos.1 hkpos
    have hnle : n ≤ safeLimit := Int.ofNat_le.1 hkle
    exact ⟨n, hn, hnle, (wholeValue_eq_some_iff hn (Nat.lt_of_le_of_lt hnle hsafe)).1 hk⟩
  · rintro ⟨n, hn, hnle, rfl⟩
    have hlt : n < 2 ^ 53 := Nat.lt_of_le_of_lt hnle hsafe
    have hwhole := (wholeValue_eq_some_iff hn hlt).2 rfl
    have hd := decode_ofNat hn hlt
    have hvalue := units_of_wholeValue hd hwhole
    have hpos : 0 < (n : Int) * unitsOfOne := Int.mul_pos (Int.natCast_pos.2 hn) hpositive
    have hneg : decode (-Float.ofNat safeLimit) = some ⟨true, safeLimit, 0⟩ := by decide +kernel
    refine ⟨Option.isSome_iff_exists.2 ⟨n, hwhole⟩, ?_, ?_, ?_⟩
    · rwa [zero_lt_iff hd, hvalue]
    · rw [le_iff hneg hd, hvalue]
      exact ((units_neg (by decide)).trans hpos).le
    · rw [le_iff hd hlimit, hunits, hvalue]
      exact Int.mul_le_mul_of_nonneg_right (Int.ofNat_le.2 hnle) hpositive.le

end MemoryCompiler.Decimal
