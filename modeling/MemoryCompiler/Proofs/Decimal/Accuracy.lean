import MemoryCompiler.Proofs.Decimal.RealRounding
import MemoryCompiler.Proofs.Decimal.Rounding

/-!
# What the arithmetic of doubles rounds to

An operation on doubles first finds some bits of its exact result and an accuracy, which tells how the rest
compares with half a unit of the last bit. Shifting keeps this description (`StandsFor.shiftRight`), so the bits
that are left are the exact result, rounded to a whole number of its last place (`roundWithAccuracy_cases`).
-/

namespace MemoryCompiler.Decimal

open Float.Model (UnpackedFloat Format)
open Float.Model.UnpackedFloat

/-! ### Accuracies -/

/-- What an accuracy says of the part of a number that its mantissa leaves out. -/
def Describes : Accuracy → ℝ → Prop
  | .exact, t => t = 0
  | .inexact .lt, t => 0 < t ∧ t < 1 - t
  | .inexact .eq, t => t = 1 - t
  | .inexact .gt, t => 1 - t < t ∧ t < 1

section accuracy

variable {a : Accuracy} {m : ℕ} {v : ℝ}

theorem Describes.bounds {t : ℝ} (h : Describes a t) : 0 ≤ t ∧ t < 1 := by
  match a, h with
  | .exact, h => exact ⟨h.ge, h.trans_lt one_pos⟩
  | .inexact .lt, ⟨hpos, hlt⟩ => exact ⟨hpos.le, by linarith⟩
  | .inexact .eq, h =>
    have htie : t = 1 - t := h
    exact ⟨by linarith, by linarith⟩
  | .inexact .gt, ⟨hgt, hlt⟩ => exact ⟨by linarith, hlt⟩

theorem Describes.roundToNearestEven (h : Describes a (v - m)) :
    ((a.roundToNearestEven m : ℕ) : ℤ) = roundEven v := by
  obtain ⟨hge, hlt⟩ := h.bounds
  have hfloor : ⌊v⌋ = (m : ℤ) := Int.floor_eq_iff.2 ⟨by push_cast; linarith, by push_cast; linarith⟩
  have hfract : Int.fract v = v - m := by
    rw [Int.fract, hfloor, Int.cast_natCast]
  unfold roundEven
  rw [hfract, hfloor]
  match a, h with
  | .exact, h =>
    have hexact : v - m = 0 := h
    rw [if_pos (.inl (by linarith))]
    rfl
  | .inexact .lt, ⟨hpos, hless⟩ =>
    rw [if_pos (.inl hless)]
    rfl
  | .inexact .eq, h =>
    have htie : v - m = 1 - (v - m) := h
    show ((m + m % 2 : ℕ) : ℤ) = _
    by_cases heven : Even (m : ℤ)
    · rw [if_pos (.inr ⟨htie, heven⟩), Nat.even_iff.1 ((Int.even_coe_nat m).1 heven), Nat.add_zero]
    · have hodd : m % 2 = 1 := Nat.not_even_iff.1 fun h => heven ((Int.even_coe_nat m).2 h)
      rw [if_neg (by rintro (hless | ⟨-, h⟩); exacts [hless.ne htie, heven h]), hodd, Nat.cast_succ]
  | .inexact .gt, ⟨hgt, hless⟩ =>
    rw [if_neg (by rintro (h | ⟨h, -⟩) <;> linarith)]
    exact Nat.cast_succ m

/-- A mantissa with two more bits stands for a number. -/
def StandsFor (em : ExtendedMantissa) (v : ℝ) : Prop := Describes em.accuracy (v - em.mantissa)

theorem Describes.standsFor (h : Describes a (v - m)) :
    StandsFor (ExtendedMantissa.ofMantissaAndAccuracy m a) v := by
  match a, h with
  | .exact, h => exact h
  | .inexact .lt, h => exact h
  | .inexact .eq, h => exact h
  | .inexact .gt, h => exact h

variable {em : ExtendedMantissa}

theorem StandsFor.roundedMantissa (h : StandsFor em v) : ((em.roundedMantissa : ℕ) : ℤ) = roundEven v :=
  Describes.roundToNearestEven h

/-- Half a number has half the mantissa, and the bit that is lost goes to the rest. -/
theorem StandsFor.shiftRightOne (h : StandsFor em v) : StandsFor em.shiftRightOne (v / 2) := by
  obtain ⟨m, roundBit, stickyBit⟩ := em
  have hdivision : ((2 * (m / 2) + m % 2 : ℕ) : ℝ) = m := by rw [Nat.div_add_mod]
  push_cast at hdivision
  unfold StandsFor at *
  unfold ExtendedMantissa.shiftRightOne
  dsimp only at *
  generalize ((m / 2 : ℕ) : ℝ) = half at *
  rcases Nat.mod_two_eq_zero_or_one m with hbit | hbit
  · rw [hbit, Nat.cast_zero] at hdivision
    rw [hbit]
    cases roundBit <;> cases stickyBit <;> simp only [ExtendedMantissa.accuracy, Describes] at h
    · show v / 2 - half = 0
      linarith
    · constructor <;> linarith
    · constructor <;> linarith
    · constructor <;> linarith
  · rw [hbit, Nat.cast_one] at hdivision
    rw [hbit]
    cases roundBit <;> cases stickyBit <;> simp only [ExtendedMantissa.accuracy, Describes] at h
    · show v / 2 - half = 1 - (v / 2 - half)
      linarith
    · constructor <;> linarith
    · constructor <;> linarith
    · constructor <;> linarith

theorem StandsFor.shiftRight (h : StandsFor em v) (k : ℕ) : StandsFor (em >>> k) (v / 2 ^ k) := by
  show StandsFor (k.repeat ExtendedMantissa.shiftRightOne em) _
  induction k with
  | zero => rwa [pow_zero, div_one]
  | succ k ih =>
    rw [pow_succ, ← div_div]
    exact ih.shiftRightOne

end accuracy

/-! ### The place of the last bit -/

section place

variable {a : Accuracy} {m : ℕ} {e : ℤ} {v : ℝ}

theorem log_two_eq {k : ℤ} (hlow : 2 ^ k ≤ v) (hhigh : v < 2 ^ (k + 1)) : Int.log 2 v = k := by
  have hpos : 0 < v := lt_of_lt_of_le (by positivity) hlow
  have hge : k ≤ Int.log 2 v := (Int.zpow_le_iff_le_log (by norm_num) hpos).1 (by exact_mod_cast hlow)
  have hlt : Int.log 2 v < k + 1 := (Int.lt_zpow_iff_log_lt (by norm_num) hpos).1 (by exact_mod_cast hhigh)
  omega

/-- The length of a mantissa gives the last place of the number that it describes. -/
theorem targetExponent_eq_lastPlace (hv : 0 < v) (hdescribes : Describes a (v / 2 ^ e - m))
    (he : e ≤ lastPlace v) :
    Format.binary64.targetExponent (Float.Model.totalExponent m e) = lastPlace v := by
  obtain ⟨hge, hlt⟩ := hdescribes.bounds
  have hunit : (0 : ℝ) < 2 ^ e := by positivity
  have hhigh : v < (m + 1 : ℕ) * 2 ^ e := by
    rw [← div_lt_iff₀ hunit]
    push_cast
    linarith
  have hlow : (m : ℝ) * 2 ^ e ≤ v := by
    rw [← le_div_iff₀ hunit]
    linarith
  rw [targetExponent_eq]
  rcases Nat.eq_zero_or_pos m with rfl | hm
  · -- All bits are lost, so the last place is that of the least double.
    have hlog : Int.log 2 v < e := by
      rw [← Int.lt_zpow_iff_log_lt (by norm_num) hv]
      simpa using hhigh
    have hzero : Nat.log2 0 = 0 := by decide
    unfold lastPlace at *
    omega
  · have hlog : Int.log 2 v = (m.log2 : ℤ) + e := by
      apply log_two_eq
      · calc (2 : ℝ) ^ ((m.log2 : ℤ) + e) = (2 ^ m.log2 : ℕ) * 2 ^ e := by
              rw [zpow_add₀ two_ne_zero, zpow_natCast, Nat.cast_pow, Nat.cast_ofNat]
          _ ≤ m * 2 ^ e := mul_le_mul_of_nonneg_right (by exact_mod_cast Nat.log2_self_le hm.ne') hunit.le
          _ ≤ v := hlow
      · calc v < (m + 1 : ℕ) * 2 ^ e := hhigh
          _ ≤ (2 ^ (m.log2 + 1) : ℕ) * 2 ^ e :=
            mul_le_mul_of_nonneg_right (by exact_mod_cast Nat.lt_log2_self) hunit.le
          _ = 2 ^ ((m.log2 : ℤ) + e + 1) := by
            rw [add_right_comm, zpow_add₀ two_ne_zero, Nat.cast_pow, Nat.cast_ofNat]
            norm_cast
    rw [lastPlace, hlog]

theorem shiftToTargetExponent_standsFor (hv : 0 < v) (hdescribes : Describes a (v / 2 ^ e - m))
    (he : e ≤ lastPlace v) : ∃ em, shiftToTargetExponent Format.binary64 m e a = (em, lastPlace v) ∧
      StandsFor em (v / 2 ^ lastPlace v) := by
  obtain ⟨k, hk⟩ := Int.le.dest he
  have hshift : (lastPlace v - e).toNat = k := by omega
  refine ⟨ExtendedMantissa.ofMantissaAndAccuracy m a >>> k, ?_, ?_⟩
  · rw [shiftToTargetExponent, targetExponent_eq_lastPlace hv hdescribes he, shiftToExponent, hshift, ← hk]
  · have hquotient : v / 2 ^ lastPlace v = v / 2 ^ e / 2 ^ k := by
      rw [← hk, zpow_add₀ two_ne_zero, zpow_natCast, div_div]
    rw [hquotient]
    exact hdescribes.standsFor.shiftRight k

/-- An operation is left with the bits of the nearest multiple of the last place; where these are one too
many, the number is the next power of two. -/
theorem roundWithAccuracy_cases (s : Sign) (hv : 0 < v) (hdescribes : Describes a (v / 2 ^ e - m))
    (he : e ≤ lastPlace v) :
    (roundEven (v / 2 ^ lastPlace v) = 0 ∧ roundWithAccuracy Format.binary64 s m e a = .zero s) ∨
    (∃ n : ℕ, ∃ h, roundEven (v / 2 ^ lastPlace v) = n ∧ n < 2 ^ 53 ∧
      roundWithAccuracy Format.binary64 s m e a = .finite s n (lastPlace v) h) ∨
    (roundEven (v / 2 ^ lastPlace v) = 2 ^ 53 ∧
      roundWithAccuracy Format.binary64 s m e a = .finite s (2 ^ 52) (lastPlace v + 1) (by decide)) := by
  obtain ⟨em, hshift, hstands⟩ := shiftToTargetExponent_standsFor hv hdescribes he
  have hrounded := hstands.roundedMantissa
  have hmost := roundEven_lastPlace_le v
  have hplace := lastPlace_ge v
  rw [← hrounded] at hmost ⊢
  rw [roundWithAccuracy, hshift]
  dsimp only
  generalize em.roundedMantissa = n at *
  rcases Nat.lt_or_ge n (2 ^ 53) with hlt | hge
  · rw [shiftToTargetExponent_of_lt hlt hplace]
    rcases Nat.eq_zero_or_pos n with rfl | hn
    · exact .inl ⟨rfl, rfl⟩
    · exact .inr (.inl ⟨n, hn, rfl, hlt, dif_neg hn.ne'⟩)
  · have hcarry : n = 2 ^ 53 := by omega
    subst hcarry
    rw [shiftToTargetExponent_carry hplace]
    exact .inr (.inr ⟨rfl, dif_neg (show ¬ (2 ^ 52 : ℕ) = 0 by decide)⟩)

end place

end MemoryCompiler.Decimal
