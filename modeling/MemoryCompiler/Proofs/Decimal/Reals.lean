import MemoryCompiler.Proofs.Decimal.Order

/-!
# Doubles as real numbers

`toReal` reads a finite double as the real number it stands for. Values are whole numbers of least
doubles, so the order of finite doubles is that of the reals (`toReal_lt_iff`, `toReal_le_iff`).
-/

namespace MemoryCompiler.Decimal

noncomputable def Dyadic.value (d : Dyadic) : ℝ :=
  (if d.negative then -1 else 1) * (d.mantissa * 2 ^ d.exponent)

/-- The real number of a double; infinities and NaN count as zero. -/
noncomputable def toReal (x : Float) : ℝ :=
  match decode x with
  | some d => d.value
  | none => 0

theorem value_eq_units {d : Dyadic} (hd : d.Canonical) : d.value = d.units * 2 ^ (-1074 : Int) := by
  have hge := hd.exponent_ge
  have hsplit : (2 : ℝ) ^ d.exponent = 2 ^ (d.exponent + 1074).toNat * 2 ^ (-1074 : Int) := by
    rw [← zpow_natCast, ← zpow_add₀ two_ne_zero]
    congr 1
    omega
  unfold Dyadic.value Dyadic.units
  rw [hsplit]
  push_cast
  split_ifs
  · ring
  · ring

theorem toReal_of_decode {x : Float} {d : Dyadic} (hx : decode x = some d) :
    toReal x = d.units * 2 ^ (-1074 : Int) := by
  rw [← value_eq_units (canonical_of_decode hx), toReal, hx]

section order

variable {x y : Float} (hx : x.isFinite = true) (hy : y.isFinite = true)

include hx hy

theorem toReal_lt_iff : toReal x < toReal y ↔ x < y := by
  obtain ⟨a, ha⟩ := isFinite_iff.1 hx
  obtain ⟨b, hb⟩ := isFinite_iff.1 hy
  rw [toReal_of_decode ha, toReal_of_decode hb, lt_iff ha hb,
    mul_lt_mul_iff_left₀ (by positivity), Int.cast_lt]

theorem toReal_le_iff : toReal x ≤ toReal y ↔ x ≤ y := by
  rw [← not_lt, toReal_lt_iff hy hx, not_lt_iff hy hx]

theorem toReal_eq_iff : toReal x = toReal y ↔ (x == y) = true := by
  obtain ⟨a, ha⟩ := isFinite_iff.1 hx
  obtain ⟨b, hb⟩ := isFinite_iff.1 hy
  have hunit : (2 : ℝ) ^ (-1074 : Int) ≠ 0 := by positivity
  rw [toReal_of_decode ha, toReal_of_decode hb, beq_iff ha hb, mul_left_inj' hunit, Int.cast_inj]

end order

theorem toReal_zero : toReal 0 = 0 := by
  rw [toReal_of_decode decode_zero, units_of_mantissa_eq_zero rfl]
  simp

theorem isFinite_zero : (0 : Float).isFinite = true := isFinite_iff.2 ⟨_, decode_zero⟩

theorem toReal_pos {x : Float} (hx : x.isFinite = true) (h : 0 < x) : 0 < toReal x := by
  have hlt := (toReal_lt_iff (x := 0) isFinite_zero hx).2 h
  rwa [toReal_zero] at hlt

theorem toReal_nonneg {x : Float} (hx : x.isFinite = true) (h : 0 ≤ x) : 0 ≤ toReal x := by
  have hle := (toReal_le_iff (x := 0) isFinite_zero hx).2 h
  rwa [toReal_zero] at hle

end MemoryCompiler.Decimal
