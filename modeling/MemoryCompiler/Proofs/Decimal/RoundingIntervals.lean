import MemoryCompiler.Decimal.Shortest
import MemoryCompiler.Proofs.Decimal.Doubles

/-!
# Rounding intervals of doubles

The shortest digits of a double are found on a grid of decimal numbers that is finer than the rounding
interval of the double is wide, so they lie in the interval (`holds_shortest`). The intervals of different
doubles have no number in common: where two of them touch, one of the two mantissas is odd, and its interval
is open (`eq_of_holds`). So the digits of a double belong to no other one.
-/

namespace MemoryCompiler.Decimal

def Digits.value (d : Digits) : ℚ := d.digits * 10 ^ d.scale

def Interval.Holds (r : Interval) (q : ℚ) : Prop :=
  if r.closed then r.low * 2 ^ r.shift ≤ q ∧ q ≤ r.high * 2 ^ r.shift
  else r.low * 2 ^ r.shift < q ∧ q < r.high * 2 ^ r.shift

section interval

variable {r : Interval} {q : ℚ}

theorem Interval.holds_of_lt (hlow : r.low * 2 ^ r.shift < q) (hhigh : q < r.high * 2 ^ r.shift) :
    r.Holds q := by
  rw [Holds]
  split_ifs
  · exact ⟨hlow.le, hhigh.le⟩
  · exact ⟨hlow, hhigh⟩

theorem Interval.Holds.low_le (h : r.Holds q) : r.low * 2 ^ r.shift ≤ q := by
  rw [Holds] at h
  split_ifs at h
  · exact h.1
  · exact h.1.le

theorem Interval.Holds.le_high (h : r.Holds q) : q ≤ r.high * 2 ^ r.shift := by
  rw [Holds] at h
  split_ifs at h
  · exact h.2
  · exact h.2.le

theorem Interval.Holds.lt_high (h : r.Holds q) (hopen : r.closed = false) : q < r.high * 2 ^ r.shift := by
  rw [Holds, hopen, if_neg Bool.false_ne_true] at h
  exact h.2

theorem Interval.Holds.low_lt (h : r.Holds q) (hopen : r.closed = false) : r.low * 2 ^ r.shift < q := by
  rw [Holds, hopen, if_neg Bool.false_ne_true] at h
  exact h.1

end interval

/-! ### Grids -/

def Interval.fits (r : Interval) (scale : Int) (c : Nat) : Bool :=
  let (binary, decimal) := commonUnit r.shift scale
  if r.closed then decide (r.low * binary ≤ c * decimal) && decide (c * decimal ≤ r.high * binary)
  else decide (r.low * binary < c * decimal) && decide (c * decimal < r.high * binary)

/-- The point of a grid just below the value of an interval. -/
def Interval.pointBelow (r : Interval) (scale : Int) : Nat :=
  r.value * (commonUnit r.shift scale).1 / (commonUnit r.shift scale).2

theorem gridPoint_cases (r : Interval) (scale : Int) :
    (∃ c, gridPoint r scale = some c ∧ r.fits scale c = true) ∨
      gridPoint r scale = none ∧ r.fits scale (r.pointBelow scale) = false ∧
        r.fits scale (r.pointBelow scale + 1) = false := by
  unfold gridPoint
  dsimp only
  split
  · rename_i hbelow habove
    split_ifs
    · exact .inl ⟨_, rfl, hbelow⟩
    · exact .inl ⟨_, rfl, habove⟩
  · rename_i hbelow _
    exact .inl ⟨_, rfl, hbelow⟩
  · rename_i _ habove
    exact .inl ⟨_, rfl, habove⟩
  · rename_i hbelow habove
    exact .inr ⟨rfl, hbelow, habove⟩

/-- Among the grids that are tried, the first with a point in the interval is found. -/
theorem exists_firstGrid {r : Interval} {first : Int} {places u : Nat} (fuel : Nat) (hfuel : u < fuel)
    (hhit : ∃ c, gridPoint r (first + 1 - (places + u : Nat)) = some c) :
    ∃ k ≤ u, ∃ c, firstGrid r first fuel places = some ⟨c, first + 1 - (places + k : Nat)⟩ ∧
      r.fits (first + 1 - (places + k : Nat)) c = true := by
  induction fuel generalizing places u with
  | zero => omega
  | succ fuel ih =>
    rw [firstGrid]
    obtain ⟨c, hc, hfits⟩ | ⟨hnone, -⟩ := gridPoint_cases r (first + 1 - places)
    · simp only [hc]
      exact ⟨0, Nat.zero_le u, c, rfl, hfits⟩
    · simp only [hnone]
      cases u with
      | zero =>
        obtain ⟨c, hc⟩ := hhit
        cases hc.symm.trans hnone
      | succ u =>
        have hnext : places + (u + 1) = places + 1 + u := by omega
        rw [hnext] at hhit
        obtain ⟨k, hk, c, hgrid, hfits⟩ := ih (by omega) hhit
        have hplaces : places + 1 + k = places + (k + 1) := by omega
        rw [hplaces] at hgrid hfits
        exact ⟨k + 1, by omega, c, hgrid, hfits⟩

/-! ### Grids in one unit -/

theorem pow_toNat {a : ℚ} (ha : a ≠ 0) (s : ℤ) : a ^ s.toNat = a ^ s * a ^ (-s).toNat := by
  rw [← zpow_natCast, ← zpow_natCast, ← zpow_add₀ ha]
  congr 1
  omega

/-- The factors of the common unit, which is left out on both sides. -/
theorem exists_commonUnit (shift scale : ℤ) : ∃ k : ℚ, 0 < k ∧
    ((commonUnit shift scale).1 : ℚ) = 2 ^ shift * k ∧ ((commonUnit shift scale).2 : ℚ) = 10 ^ scale * k := by
  refine ⟨2 ^ (-shift).toNat * 10 ^ (-scale).toNat, by positivity, ?_, ?_⟩
  · rw [commonUnit]
    push_cast
    rw [pow_toNat two_ne_zero shift, mul_assoc]
  · rw [commonUnit]
    push_cast
    rw [pow_toNat (by norm_num) scale]
    ring

theorem fits_iff_holds (r : Interval) (scale : ℤ) (c : Nat) :
    r.fits scale c = true ↔ r.Holds (c * 10 ^ scale) := by
  obtain ⟨k, hk, hbinary, hdecimal⟩ := exists_commonUnit r.shift scale
  have hle : ∀ x : Nat, x * (commonUnit r.shift scale).1 ≤ c * (commonUnit r.shift scale).2 ↔
      (x : ℚ) * 2 ^ r.shift ≤ c * 10 ^ scale := by
    intro x
    rw [← Nat.cast_le (α := ℚ), Nat.cast_mul, Nat.cast_mul, hbinary, hdecimal, ← mul_assoc, ← mul_assoc,
      mul_le_mul_iff_left₀ hk]
  have hge : ∀ x : Nat, c * (commonUnit r.shift scale).2 ≤ x * (commonUnit r.shift scale).1 ↔
      (c : ℚ) * 10 ^ scale ≤ x * 2 ^ r.shift := by
    intro x
    rw [← Nat.cast_le (α := ℚ), Nat.cast_mul, Nat.cast_mul, hbinary, hdecimal, ← mul_assoc, ← mul_assoc,
      mul_le_mul_iff_left₀ hk]
  simp only [Interval.fits, Interval.Holds]
  split_ifs
  · rw [Bool.and_eq_true, decide_eq_true_eq, decide_eq_true_eq, hle, hge]
  · rw [Bool.and_eq_true, decide_eq_true_eq, decide_eq_true_eq, ← not_le, hge, ← not_le, hle, not_le, not_le]

theorem pointBelow_bounds (r : Interval) (scale : ℤ) :
    (r.pointBelow scale : ℚ) * 10 ^ scale ≤ r.value * 2 ^ r.shift ∧
      r.value * 2 ^ r.shift < ((r.pointBelow scale + 1 : Nat) : ℚ) * 10 ^ scale := by
  obtain ⟨k, hk, hbinary, hdecimal⟩ := exists_commonUnit r.shift scale
  have hpos : 0 < (commonUnit r.shift scale).2 := by
    rw [commonUnit]
    exact Nat.mul_pos (Nat.pow_pos (by decide)) (Nat.two_pow_pos _)
  have hbelow := Nat.div_mul_le_self (r.value * (commonUnit r.shift scale).1) (commonUnit r.shift scale).2
  have habove := Nat.lt_mul_of_div_lt (Nat.lt_succ_self (r.value * (commonUnit r.shift scale).1 /
    (commonUnit r.shift scale).2)) hpos
  rw [← Nat.cast_le (α := ℚ), Nat.cast_mul, Nat.cast_mul, hbinary, hdecimal, ← mul_assoc, ← mul_assoc,
    mul_le_mul_iff_left₀ hk] at hbelow
  rw [← Nat.cast_lt (α := ℚ), Nat.cast_mul, Nat.cast_mul, hbinary, hdecimal, ← mul_assoc, ← mul_assoc,
    mul_lt_mul_iff_left₀ hk] at habove
  exact ⟨hbelow, habove⟩

theorem ten_pow_le {n : Nat} (hn : 2 ≤ digitCount n) : 10 ^ (digitCount n - 1) ≤ n := by
  by_contra hlt
  have hle := (Nat.length_toDigits_le_iff (b := 10) (by decide) (k := digitCount n - 1) (by omega)).2
    (Nat.not_le.1 hlt)
  have hcount : (Nat.toDigits 10 n).length = digitCount n := rfl
  omega

theorem ten_zpow_digitCount_le {n : Nat} (hn : 0 < n) : (10 : ℚ) ^ ((digitCount n : ℤ) - 1) ≤ n := by
  have hcount : 0 < digitCount n := List.length_pos_iff.2 Nat.toDigits_ne_nil
  have hplace : ((digitCount n : ℤ) - 1) = ((digitCount n - 1 : Nat) : ℤ) := by omega
  have hle : 10 ^ (digitCount n - 1) ≤ n := by
    by_cases hlong : 2 ≤ digitCount n
    · exact ten_pow_le hlong
    · have hnone : digitCount n - 1 = 0 := by omega
      rw [hnone, Nat.pow_zero]
      exact hn
  rw [hplace, zpow_natCast]
  exact_mod_cast hle

theorem ten_zpow_leadingPlace_le {n : Nat} {shift : ℤ} (hn : 0 < n) (hshift : -1200 ≤ shift) :
    (10 : ℚ) ^ leadingPlace n shift ≤ n * 2 ^ shift := by
  rw [leadingPlace]
  split_ifs with hwhole
  · have hvalue : ((n * 2 ^ shift.toNat : Nat) : ℚ) = n * 2 ^ shift := by
      push_cast
      rw [← zpow_natCast, Int.toNat_of_nonneg hwhole]
    rw [← hvalue]
    exact ten_zpow_digitCount_le (Nat.mul_pos hn (Nat.two_pow_pos _))
  · extract_lets lift
    have hlift : 2 ^ (-shift).toNat ≤ 10 ^ lift := by
      calc 2 ^ (-shift).toNat ≤ 2 ^ (3 * lift) := Nat.pow_le_pow_right (by decide) (by omega)
        _ = (2 ^ 3) ^ lift := Nat.pow_mul ..
        _ ≤ 10 ^ lift := Nat.pow_le_pow_left (by decide) lift
    clear_value lift
    have hpos : 0 < n * 10 ^ lift / 2 ^ (-shift).toNat :=
      Nat.div_pos (hlift.trans (Nat.le_mul_of_pos_left _ hn)) (Nat.two_pow_pos _)
    have hdigits := ten_zpow_digitCount_le hpos
    have hfloor : ((n * 10 ^ lift / 2 ^ (-shift).toNat : Nat) : ℚ) ≤ n * 2 ^ shift * 10 ^ lift := by
      refine Nat.cast_div_le.trans (le_of_eq ?_)
      have hunit := pow_toNat (two_ne_zero (α := ℚ)) (-shift)
      have hnone : (-(-shift)).toNat = 0 := by omega
      rw [hnone, pow_zero, mul_one, zpow_neg] at hunit
      push_cast
      rw [hunit, div_inv_eq_mul]
      ring
    have hten : (0 : ℚ) < 10 ^ lift := by positivity
    rw [zpow_sub₀ (by norm_num), zpow_natCast, div_le_iff₀ hten]
    exact hdigits.trans hfloor

/-! ### The digits of a double -/

section double

variable {d : Dyadic} (hd : d.Canonical) (hpos : 0 < d.mantissa)

/-- The bounds of an interval in quarters of the last place. -/
theorem roundingInterval_low (hpos : 0 < d.mantissa) : ((roundingInterval d).low : ℚ) =
    4 * d.mantissa - if d.mantissa = 2 ^ 52 ∧ leastExponent < d.exponent then 1 else 2 := by
  have hcast : ∀ k : Nat, k ≤ 4 → ((4 * d.mantissa - k : Nat) : ℚ) = 4 * d.mantissa - k := fun k hk => by
    rw [Nat.cast_sub (by omega), Nat.cast_mul]
    rfl
  simp only [roundingInterval]
  split_ifs
  · exact hcast 1 (by decide)
  · exact hcast 2 (by decide)

theorem roundingInterval_high : ((roundingInterval d).high : ℚ) = 4 * d.mantissa + 2 := by
  simp [roundingInterval]

theorem roundingInterval_value : ((roundingInterval d).value : ℚ) = 4 * d.mantissa := by
  simp [roundingInterval]

include hpos in
theorem holds_value : (roundingInterval d).Holds (4 * d.mantissa * 2 ^ (d.exponent - 2)) := by
  have hshift : (roundingInterval d).shift = d.exponent - 2 := rfl
  have hunit : (0 : ℚ) < 2 ^ (d.exponent - 2) := by positivity
  refine Interval.holds_of_lt ?_ ?_
  · rw [roundingInterval_low hpos, hshift]
    split_ifs <;> linarith
  · rw [roundingInterval_high, hshift]
    linarith

include hd hpos

/-- Of two numbers on both sides of a double, closer than 16 places below it, one lies in its interval. -/
theorem holds_or_holds {p g : ℚ} (hdown : p ≤ 4 * d.mantissa * 2 ^ (d.exponent - 2))
    (hup : 4 * d.mantissa * 2 ^ (d.exponent - 2) < p + g)
    (hfine : 10 ^ 16 * g ≤ 4 * d.mantissa * 2 ^ (d.exponent - 2)) :
    (roundingInterval d).Holds p ∨ (roundingInterval d).Holds (p + g) := by
  have hmantissa : (d.mantissa : ℚ) ≤ 2 ^ 53 := by exact_mod_cast hd.mantissa_lt.le
  have hunit : (0 : ℚ) < 2 ^ (d.exponent - 2) := by positivity
  have hshift : (roundingInterval d).shift = d.exponent - 2 := rfl
  by_cases hp : (roundingInterval d).low * 2 ^ (d.exponent - 2) < p
  · refine .inl (Interval.holds_of_lt (hshift ▸ hp) ?_)
    rw [roundingInterval_high, hshift]
    nlinarith
  · rw [not_lt, roundingInterval_low hpos] at hp
    refine .inr (Interval.holds_of_lt ?_ ?_)
    · rw [roundingInterval_low hpos, hshift]
      split_ifs <;> nlinarith
    · rw [roundingInterval_high, hshift]
      split_ifs at hp with hnarrow
      · have hpower : (d.mantissa : ℚ) = 2 ^ 52 := by exact_mod_cast hnarrow.1
        rw [hpower] at hp hfine ⊢
        nlinarith
      · nlinarith

theorem exists_gridPoint_of_canonical :
    ∃ c, gridPoint (roundingInterval d) (leadingPlace (4 * d.mantissa) (d.exponent - 2) - 16) = some c := by
  have hleast := hd.exponent_ge
  have hplace := ten_zpow_leadingPlace_le (show 0 < 4 * d.mantissa by omega)
    (show -1200 ≤ d.exponent - 2 by omega)
  generalize leadingPlace (4 * d.mantissa) (d.exponent - 2) = place at *
  obtain ⟨c, hc, -⟩ | ⟨-, hbelow, habove⟩ := gridPoint_cases (roundingInterval d) (place - 16)
  · exact ⟨c, hc⟩
  · obtain ⟨hdown, hup⟩ := pointBelow_bounds (roundingInterval d) (place - 16)
    have hfine : (10 : ℚ) ^ 16 * 10 ^ (place - 16) = 10 ^ place := by
      rw [← zpow_natCast, ← zpow_add₀ (by norm_num)]
      congr 1
      omega
    rw [roundingInterval_value] at hdown hup
    rw [← Bool.not_eq_true, fits_iff_holds] at hbelow habove
    push_cast at hplace hup habove
    rw [add_one_mul] at hup habove
    exact absurd (holds_or_holds hd hpos hdown hup (hfine.trans_le hplace)) (not_or.2 ⟨hbelow, habove⟩)

end double

theorem value_stripZeros (fuel : Nat) (d : Digits) : (stripZeros fuel d).value = d.value := by
  induction fuel generalizing d with
  | zero => rfl
  | succ fuel ih =>
    rw [stripZeros]
    split_ifs with hzero
    · have htens : ((d.digits / 10 : Nat) : ℚ) * 10 = d.digits := by
        exact_mod_cast Nat.div_mul_cancel (Nat.dvd_of_mod_eq_zero hzero.2)
      rw [ih, Digits.value, Digits.value, zpow_add_one₀ (by norm_num), ← htens]
      ring
    · rfl

/-- The shortest digits of a double lie in its rounding interval. -/
theorem holds_shortest {d : Dyadic} (hd : d.Canonical) (hpos : 0 < d.mantissa) :
    (roundingInterval d).Holds (shortest d).value := by
  have hplace : leadingPlace (roundingInterval d).value (roundingInterval d).shift =
      leadingPlace (4 * d.mantissa) (d.exponent - 2) := rfl
  obtain ⟨c, hc⟩ := exists_gridPoint_of_canonical hd hpos
  have hhit : ∃ c, gridPoint (roundingInterval d)
      (leadingPlace (4 * d.mantissa) (d.exponent - 2) + 1 - (1 + 16 : Nat)) = some c := by
    refine ⟨c, ?_⟩
    rw [← hc]
    congr 1
    omega
  obtain ⟨k, -, c', hgrid, hfits⟩ := exists_firstGrid 18 (by decide) hhit
  rw [shortest, hplace, hgrid]
  dsimp only
  rw [value_stripZeros]
  exact (fits_iff_holds _ _ _).1 hfits

theorem shortest_pos {d : Dyadic} (hd : d.Canonical) (hpos : 0 < d.mantissa) : 0 < (shortest d).digits := by
  have hlow := (holds_shortest hd hpos).low_le
  have hone : (1 : ℚ) ≤ d.mantissa := by exact_mod_cast hpos
  have hunit : (0 : ℚ) < 2 ^ (roundingInterval d).shift := by positivity
  by_contra hzero
  rw [Digits.value, Nat.eq_zero_of_not_pos hzero, Nat.cast_zero, zero_mul, roundingInterval_low hpos] at hlow
  split_ifs at hlow <;> nlinarith

/-! ### Different doubles -/

theorem high_le_low {d d' : Dyadic} (hd : d.Canonical) (hd' : d'.Canonical)
    (hless : d.exponent = d'.exponent ∧ d.mantissa < d'.mantissa ∨ d.exponent < d'.exponent) :
    ((roundingInterval d).high * 2 ^ (roundingInterval d).shift : ℚ) ≤
        (roundingInterval d').low * 2 ^ (roundingInterval d').shift ∧
      ((roundingInterval d).closed = true → (roundingInterval d').closed = true →
        ((roundingInterval d).high * 2 ^ (roundingInterval d).shift : ℚ) <
          (roundingInterval d').low * 2 ^ (roundingInterval d').shift) := by
  -- The lower end of the larger double, in quarters of the last place of the smaller one.
  obtain ⟨factor, hfactor, hle, hlt⟩ : ∃ factor : Nat,
      (factor : ℚ) * 2 ^ (roundingInterval d).shift ≤ 2 ^ (roundingInterval d').shift ∧
      (roundingInterval d).high ≤ (roundingInterval d').low * factor ∧
      ((roundingInterval d).closed = true → (roundingInterval d').closed = true →
        (roundingInterval d).high < (roundingInterval d').low * factor) := by
    have hmantissa := hd.mantissa_lt
    simp only [roundingInterval, beq_iff_eq]
    obtain ⟨hsame, hmore⟩ | hless := hless
    · refine ⟨1, ?_, ?_, fun heven heven' => ?_⟩
      · rw [hsame, Nat.cast_one, one_mul]
      · split_ifs <;> omega
      · split_ifs <;> omega
    · have hleast := hd.exponent_ge
      have hnormal : 2 ^ 52 ≤ d'.mantissa := hd'.normal.resolve_left (by omega)
      have hnarrow : leastExponent < d'.exponent := hleast.trans_lt hless
      refine ⟨2, ?_, ?_, fun heven heven' => ?_⟩
      · rw [Nat.cast_two, ← zpow_one_add₀ two_ne_zero]
        exact zpow_le_zpow_right₀ (by norm_num) (by omega)
      · split_ifs <;> omega
      · split_ifs <;> omega
  have hunit : (0 : ℚ) < 2 ^ (roundingInterval d).shift := by positivity
  have hlow : ((roundingInterval d').low * factor : ℚ) * 2 ^ (roundingInterval d).shift ≤
      (roundingInterval d').low * 2 ^ (roundingInterval d').shift := by
    rw [mul_assoc]
    exact mul_le_mul_of_nonneg_left hfactor (Nat.cast_nonneg _)
  refine ⟨le_trans ?_ hlow, fun hclosed hclosed' => lt_of_lt_of_le ?_ hlow⟩
  · exact mul_le_mul_of_nonneg_right (by exact_mod_cast hle) hunit.le
  · exact mul_lt_mul_of_pos_right (by exact_mod_cast hlt hclosed hclosed') hunit

theorem not_holds_of_less {d d' : Dyadic} {q : ℚ} (hd : d.Canonical) (hd' : d'.Canonical)
    (hless : d.exponent = d'.exponent ∧ d.mantissa < d'.mantissa ∨ d.exponent < d'.exponent)
    (h : (roundingInterval d).Holds q) : ¬ (roundingInterval d').Holds q := by
  intro h'
  obtain ⟨hle, hlt⟩ := high_le_low hd hd' hless
  cases hclosed : (roundingInterval d).closed with
  | false => exact absurd ((h.lt_high hclosed).trans_le (hle.trans h'.low_le)) (lt_irrefl q)
  | true =>
    cases hclosed' : (roundingInterval d').closed with
    | false => exact absurd ((h.le_high.trans hle).trans_lt (h'.low_lt hclosed')) (lt_irrefl q)
    | true => exact absurd (h.le_high.trans_lt ((hlt hclosed hclosed').trans_le h'.low_le)) (lt_irrefl q)

/-- A number lies in the interval of one double at most. -/
theorem eq_of_holds {d d' : Dyadic} {q : ℚ} (hd : d.Canonical) (hd' : d'.Canonical)
    (h : (roundingInterval d).Holds q) (h' : (roundingInterval d').Holds q) :
    d.mantissa = d'.mantissa ∧ d.exponent = d'.exponent := by
  rcases lt_trichotomy d.exponent d'.exponent with hless | hsame | hmore
  · exact absurd h' (not_holds_of_less hd hd' (.inr hless) h)
  · rcases lt_trichotomy d.mantissa d'.mantissa with hless | heq | hmore
    · exact absurd h' (not_holds_of_less hd hd' (.inl ⟨hsame, hless⟩) h)
    · exact ⟨heq, hsame⟩
    · exact absurd h (not_holds_of_less hd' hd (.inl ⟨hsame.symm, hmore⟩) h')
  · exact absurd h (not_holds_of_less hd' hd (.inr hmore) h')

end MemoryCompiler.Decimal
