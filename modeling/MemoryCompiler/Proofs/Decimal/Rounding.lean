import MemoryCompiler.Proofs.Decimal.Doubles

/-!
# Rounding to a double

A positive number that is a multiple of the least double is rounded to a canonical number, so it never
becomes zero (`exists_round`), and a number with no more bits than a double has stays what it is
(`round_whole`).
-/

namespace MemoryCompiler.Decimal

open Float.Model (UnpackedFloat Format)
open Float.Model.UnpackedFloat

/-! ### Shifting a mantissa -/

theorem mantissa_shiftRight (em : ExtendedMantissa) (k : Nat) :
    (em >>> k).mantissa = em.mantissa / 2 ^ k := by
  show (k.repeat ExtendedMantissa.shiftRightOne em).mantissa = _
  induction k with
  | zero => exact (Nat.div_one _).symm
  | succ k ih =>
    show (k.repeat ExtendedMantissa.shiftRightOne em).mantissa / 2 = _
    rw [ih, Nat.div_div_eq_div_mul, Nat.pow_succ]

theorem shiftRight_exact (m k : Nat) :
    (⟨m * 2 ^ k, false, false⟩ : ExtendedMantissa) >>> k = ⟨m, false, false⟩ := by
  show k.repeat ExtendedMantissa.shiftRightOne _ = _
  induction k generalizing m with
  | zero =>
    rw [Nat.pow_zero, Nat.mul_one]
    rfl
  | succ k ih =>
    have hone : ExtendedMantissa.shiftRightOne ⟨2 * m, false, false⟩ = ⟨m, false, false⟩ := by
      rw [ExtendedMantissa.shiftRightOne, Nat.mul_div_cancel_left m (by decide),
        Nat.mul_mod_right 2 m]
      rfl
    rw [Nat.repeat, Nat.pow_succ', ← Nat.mul_assoc, Nat.mul_comm m 2, ih (2 * m), hone]

theorem roundedMantissa_bounds (em : ExtendedMantissa) :
    em.mantissa ≤ em.roundedMantissa ∧ em.roundedMantissa ≤ em.mantissa + 1 := by
  obtain ⟨m, roundBit, stickyBit⟩ := em
  cases roundBit <;> cases stickyBit
  · exact ⟨le_refl m, Nat.le_succ m⟩
  · exact ⟨le_refl m, Nat.le_succ m⟩
  · show m ≤ m + m % 2 ∧ m + m % 2 ≤ m + 1
    omega
  · exact ⟨Nat.le_succ m, le_refl _⟩

theorem log2_mul_two_pow {m : Nat} (hm : 0 < m) (k : Nat) : (m * 2 ^ k).log2 = m.log2 + k := by
  have hlow := Nat.log2_self_le hm.ne'
  have hhigh := Nat.lt_log2_self (n := m)
  refine (Nat.log2_eq_iff (Nat.mul_pos hm (Nat.two_pow_pos k)).ne').2 ⟨?_, ?_⟩
  · rw [Nat.pow_add]
    exact Nat.mul_le_mul_right _ hlow
  · rw [Nat.add_right_comm, Nat.pow_add]
    exact Nat.mul_lt_mul_of_pos_right hhigh (Nat.two_pow_pos k)

/-! ### The target of a shift -/

theorem targetExponent_eq (m : Nat) (e : Int) :
    Format.binary64.targetExponent (Float.Model.totalExponent m e) =
      max ((m.log2 : Int) + e - 52) (-1074) := by
  have hcount : Format.binary64.mantissaBits = 53 := rfl
  have hleast : Format.binary64.minExponent = -1074 := rfl
  rw [Format.targetExponent, Float.Model.totalExponent, hcount, hleast]
  omega

theorem shiftToTargetExponent_of_lt {m : Nat} {e : Int} (hm : m < 2 ^ 53) (he : -1074 ≤ e) :
    shiftToTargetExponent Format.binary64 m e .exact = (⟨m, false, false⟩, e) := by
  have hlog : m.log2 ≤ 52 := by
    by_cases h : m = 0
    · rw [h]
      decide
    · exact Nat.le_of_lt_succ ((Nat.log2_lt h).2 hm)
  have hshift : (max ((m.log2 : Int) + e - 52) (-1074) - e).toNat = 0 := by omega
  rw [shiftToTargetExponent, targetExponent_eq, shiftToExponent, hshift]
  show (_, e + ((0 : Nat) : Int)) = _
  rw [Int.natCast_zero, Int.add_zero]
  rfl

theorem shiftToTargetExponent_carry {e : Int} (he : -1074 ≤ e) :
    shiftToTargetExponent Format.binary64 (2 ^ 53) e .exact = (⟨2 ^ 52, false, false⟩, e + 1) := by
  have hshift : (max (((2 ^ 53 : Nat).log2 : Int) + e - 52) (-1074) - e).toNat = 1 := by
    rw [Nat.log2_two_pow]
    omega
  rw [shiftToTargetExponent, targetExponent_eq, shiftToExponent, hshift]
  rfl

/-! ### Rounding -/

section round

variable {s : Sign} {m : Nat} {e : Int} {em : ExtendedMantissa} {e' : Int}

theorem roundWithAccuracy_of_lt
    (hshift : shiftToTargetExponent Format.binary64 m e .exact = (em, e')) (he' : -1074 ≤ e')
    (hpos : 0 < em.roundedMantissa) (hlt : em.roundedMantissa < 2 ^ 53) :
    roundWithAccuracy Format.binary64 s m e .exact = .finite s em.roundedMantissa e' hpos := by
  rw [roundWithAccuracy, hshift]
  dsimp only
  rw [shiftToTargetExponent_of_lt hlt he', dif_neg hpos.ne']

theorem roundWithAccuracy_carry
    (hshift : shiftToTargetExponent Format.binary64 m e .exact = (em, e')) (he' : -1074 ≤ e')
    (hcarry : em.roundedMantissa = 2 ^ 53) :
    roundWithAccuracy Format.binary64 s m e .exact =
      .finite s (2 ^ 52) (e' + 1) (by decide) := by
  rw [roundWithAccuracy, hshift]
  dsimp only
  rw [hcarry, shiftToTargetExponent_carry he', dif_neg (show ¬ (2 ^ 52 : Nat) = 0 by decide)]

theorem shiftToTargetExponent_eq (he : -1074 ≤ e) :
    shiftToTargetExponent Format.binary64 m e .exact =
      ((⟨m, false, false⟩ : ExtendedMantissa) >>> (m.log2 - 52), e + ((m.log2 - 52 : Nat) : Int)) := by
  have hshift : (max ((m.log2 : Int) + e - 52) (-1074) - e).toNat = m.log2 - 52 := by omega
  rw [shiftToTargetExponent, targetExponent_eq, shiftToExponent, hshift]
  rfl

theorem div_two_pow_bounds (hm : 0 < m) (hlog : 52 ≤ m.log2) :
    2 ^ 52 ≤ m / 2 ^ (m.log2 - 52) ∧ m / 2 ^ (m.log2 - 52) < 2 ^ 53 := by
  have hlow : 2 ^ 52 * 2 ^ (m.log2 - 52) ≤ m := by
    rw [← Nat.pow_add, Nat.add_sub_cancel' hlog]
    exact Nat.log2_self_le hm.ne'
  have hhigh : m < 2 ^ 53 * 2 ^ (m.log2 - 52) := by
    have hexponent : 53 + (m.log2 - 52) = m.log2 + 1 := by omega
    rw [← Nat.pow_add, hexponent]
    exact Nat.lt_log2_self
  exact ⟨(Nat.le_div_iff_mul_le (Nat.two_pow_pos _)).2 hlow,
    (Nat.div_lt_iff_lt_mul (Nat.two_pow_pos _)).2 hhigh⟩

theorem exists_roundWithAccuracy (hm : 0 < m) (he : -1074 ≤ e) (hfull : 52 ≤ m.log2 ∨ e = -1074) :
    ∃ m' e' h, roundWithAccuracy Format.binary64 s m e .exact = .finite s m' e' h ∧
      m' < 2 ^ 53 ∧ -1074 ≤ e' ∧ (e' = -1074 ∨ 2 ^ 52 ≤ m') := by
  have hshift := shiftToTargetExponent_eq (m := m) he
  generalize hem : (⟨m, false, false⟩ : ExtendedMantissa) >>> (m.log2 - 52) = em at hshift
  have hmantissa : em.mantissa = m / 2 ^ (m.log2 - 52) := by
    rw [← hem, mantissa_shiftRight]
  obtain ⟨hlow, hhigh⟩ := roundedMantissa_bounds em
  have he' : -1074 ≤ e + ((m.log2 - 52 : Nat) : Int) := by omega
  by_cases hlog : 52 ≤ m.log2
  · obtain ⟨hqlow, hqhigh⟩ := div_two_pow_bounds hm hlog
    by_cases hlt : em.roundedMantissa < 2 ^ 53
    · exact ⟨_, _, _, roundWithAccuracy_of_lt hshift he' (by omega) hlt, hlt, he', .inr (by omega)⟩
    · exact ⟨_, _, _, roundWithAccuracy_carry hshift he' (by omega), by decide, by omega,
        .inr (le_refl _)⟩
  · have hsub : m.log2 - 52 = 0 := by omega
    have hsmall : m < 2 ^ 52 := (Nat.log2_lt hm.ne').1 (by omega)
    rw [hsub, Nat.pow_zero, Nat.div_one] at hmantissa
    have hlt : em.roundedMantissa < 2 ^ 53 := by omega
    exact ⟨_, _, _, roundWithAccuracy_of_lt hshift he' (by omega) hlt, hlt, he', .inl (by omega)⟩

theorem exists_roundWithAccuracy_ge (hm : 0 < m) (he : -1074 ≤ e) (hlog : 52 ≤ m.log2) :
    ∃ m' e' h, roundWithAccuracy Format.binary64 s m e .exact = .finite s m' e' h ∧
      e + ((m.log2 - 52 : Nat) : Int) ≤ e' := by
  have hshift := shiftToTargetExponent_eq (m := m) he
  generalize hem : (⟨m, false, false⟩ : ExtendedMantissa) >>> (m.log2 - 52) = em at hshift
  have hmantissa : em.mantissa = m / 2 ^ (m.log2 - 52) := by
    rw [← hem, mantissa_shiftRight]
  obtain ⟨hlow, hhigh⟩ := roundedMantissa_bounds em
  obtain ⟨hqlow, hqhigh⟩ := div_two_pow_bounds hm hlog
  by_cases hlt : em.roundedMantissa < 2 ^ 53
  · exact ⟨_, _, _, roundWithAccuracy_of_lt hshift (by omega) (by omega) hlt, le_refl _⟩
  · exact ⟨_, _, _, roundWithAccuracy_carry hshift (by omega) (by omega), by omega⟩

/-- A positive multiple of the least double is rounded to a canonical number, except that its exponent
may be too large. -/
theorem exists_round (hm : 0 < m) (he : -1074 ≤ e) :
    ∃ m' e' h, UnpackedFloat.round Format.binary64 s m e = .finite s m' e' h ∧
      m' < 2 ^ 53 ∧ -1074 ≤ e' ∧ (e' = -1074 ∨ 2 ^ 52 ≤ m') := by
  rw [UnpackedFloat.round]
  dsimp only
  rw [targetExponent_eq, decreaseExponent, Nat.shiftLeft_eq]
  generalize hk : (e - max ((m.log2 : Int) + e - 52) (-1074)).toNat = k
  refine exists_roundWithAccuracy (Nat.mul_pos hm (Nat.two_pow_pos k)) (by omega) ?_
  rw [log2_mul_two_pow hm]
  omega

theorem round_whole (hm : 0 < m) (hlt : m < 2 ^ 53) :
    UnpackedFloat.round Format.binary64 s m 0 =
      .finite s (m * 2 ^ (52 - m.log2)) (-((52 - m.log2 : Nat) : Int))
        (Nat.mul_pos hm (Nat.two_pow_pos _)) := by
  have hlog : m.log2 ≤ 52 := Nat.le_of_lt_succ ((Nat.log2_lt hm.ne').2 hlt)
  have hshift : (0 - max ((m.log2 : Int) + 0 - 52) (-1074)).toNat = 52 - m.log2 := by omega
  have hfull := log2_mul_two_pow hm (52 - m.log2)
  have hpos : 0 < m * 2 ^ (52 - m.log2) := Nat.mul_pos hm (Nat.two_pow_pos _)
  have hsmall : m * 2 ^ (52 - m.log2) < 2 ^ 53 := (Nat.log2_lt hpos.ne').1 (by omega)
  rw [UnpackedFloat.round]
  dsimp only
  rw [targetExponent_eq, decreaseExponent, Nat.shiftLeft_eq, hshift, Int.zero_sub]
  exact roundWithAccuracy_of_lt (shiftToTargetExponent_of_lt hsmall (by omega)) (by omega) hpos hsmall

theorem roundWithAccuracy_mul_one (hlow : 2 ^ 52 ≤ m) (hlt : m < 2 ^ 53) (he : -1074 ≤ e) :
    roundWithAccuracy Format.binary64 s (m * 2 ^ 52) (e + -52) .exact =
      .finite s m e (Nat.lt_of_lt_of_le (by decide) hlow) := by
  have hpos : 0 < m := Nat.lt_of_lt_of_le (by decide) hlow
  have hlog : m.log2 = 52 := (Nat.log2_eq_iff hpos.ne').2 ⟨hlow, hlt⟩
  have hshift : shiftToTargetExponent Format.binary64 (m * 2 ^ 52) (e + -52) .exact =
      (⟨m, false, false⟩, e) := by
    have hcount : (max (((m * 2 ^ 52).log2 : Int) + (e + -52) - 52) (-1074) - (e + -52)).toNat = 52 := by
      rw [log2_mul_two_pow hpos, hlog]
      omega
    rw [shiftToTargetExponent, targetExponent_eq, shiftToExponent, hcount]
    exact Prod.ext (shiftRight_exact m 52) (show e + -52 + ((52 : Nat) : Int) = e by omega)
  exact roundWithAccuracy_of_lt hshift he hpos hlt

end round

end MemoryCompiler.Decimal
