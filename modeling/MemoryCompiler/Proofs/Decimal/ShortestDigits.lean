import MemoryCompiler.Proofs.Decimal.Nearest
import MemoryCompiler.Proofs.Decimal.RoundingIntervals
import MemoryCompiler.Proofs.Decimal.WholeText

/-!
# Shortest digits of whole doubles

The grids of a whole double with up to 17 digits, and those with up to as many as the number has, are grids
of whole numbers, and one of them has a point in the rounding interval. So the shortest digits make a whole
number in the interval (`exists_whole_shortest`). Below `2 ^ 53` that is the number itself, and its text is
its decimal digits (`shortest_whole`, `text_ofNat`); for a larger double the bounds of the interval are whole
numbers too (`shortest_inside`).
-/

namespace MemoryCompiler.Decimal

theorem quarter_mul_four (e : ℤ) : (2 : ℚ) ^ (e - 2) * 4 = 2 ^ e := by
  have hfour : (4 : ℚ) = 2 ^ (2 : ℤ) := by norm_num
  rw [hfour, ← zpow_add₀ two_ne_zero, sub_add_cancel]

theorem digitCount_mul_ten_pow {c : Nat} (hc : 0 < c) (u : Nat) :
    digitCount (c * 10 ^ u) = digitCount c + u := by
  rw [digitCount, digitChars_mul_ten_pow hc, List.length_append, zeros, List.length_replicate]
  rfl

theorem leadingPlace_of_whole {m n : Nat} {shift : ℤ} (hn : 0 < n) (h : (m : ℚ) * 2 ^ shift = n) :
    leadingPlace m shift = (digitCount n : ℤ) - 1 := by
  rw [leadingPlace]
  split_ifs with hwhole
  · have hsame : m * 2 ^ shift.toNat = n := by
      rw [← Int.toNat_of_nonneg hwhole, zpow_natCast] at h
      exact_mod_cast h
    rw [hsame]
  · extract_lets lift
    have hsame : m = n * 2 ^ (-shift).toNat := by
      have hunit : (2 : ℚ) ^ (-shift).toNat = (2 ^ shift)⁻¹ := by
        rw [← zpow_natCast, Int.toNat_of_nonneg (by omega), zpow_neg]
      have hcast : (m : ℚ) = n * 2 ^ (-shift).toNat := by
        rw [hunit, ← h, mul_inv_cancel_right₀ (by positivity)]
      exact_mod_cast hcast
    rw [hsame, Nat.mul_right_comm, Nat.mul_div_cancel _ (Nat.two_pow_pos _), digitCount_mul_ten_pow hn]
    omega

theorem exists_stripZeros (fuel c u : Nat) : ∃ c' u' : Nat, stripZeros fuel ⟨c, u⟩ = ⟨c', u'⟩ := by
  induction fuel generalizing c u with
  | zero => exact ⟨c, u, rfl⟩
  | succ fuel ih =>
    rw [stripZeros]
    split_ifs
    · exact ih (c / 10) (u + 1)
    · exact ⟨c, u, rfl⟩

section whole

variable {d : Dyadic} {n : Nat} (hd : d.Canonical) (hn : 0 < n) (hvalue : (d.mantissa : ℚ) * 2 ^ d.exponent = n)

include hvalue

theorem mantissa_pos_of_whole (hn : 0 < n) : 0 < d.mantissa := by
  rcases Nat.eq_zero_or_pos d.mantissa with hzero | hpos
  · rw [hzero, Nat.cast_zero, zero_mul] at hvalue
    exact absurd (Nat.cast_eq_zero.1 hvalue.symm) hn.ne'
  · exact hpos

theorem value_of_whole : (4 * d.mantissa : ℚ) * 2 ^ (d.exponent - 2) = n := by
  rw [← hvalue, ← quarter_mul_four d.exponent]
  ring

include hd hn

theorem exists_gridPoint_of_whole :
    ∃ c, gridPoint (roundingInterval d) ((digitCount n - 17 : Nat) : ℤ) = some c := by
  have hpos := mantissa_pos_of_whole hvalue hn
  have hexact := value_of_whole hvalue
  by_cases hlong : 17 ≤ digitCount n
  · have hplace : leadingPlace (4 * d.mantissa) (d.exponent - 2) - 16 = (digitCount n - 17 : Nat) := by
      rw [leadingPlace_of_whole hn (by exact_mod_cast hexact)]
      omega
    rw [← hplace]
    exact exists_gridPoint_of_canonical hd hpos
  · have hnone : digitCount n - 17 = 0 := by omega
    rw [hnone]
    obtain ⟨c, hc, -⟩ | ⟨-, hbelow, -⟩ := gridPoint_cases (roundingInterval d) (0 : Nat)
    · exact ⟨c, hc⟩
    · have hholds := holds_value hpos
      obtain ⟨hdown, hup⟩ := pointBelow_bounds (roundingInterval d) (0 : Nat)
      have hshift : (roundingInterval d).shift = d.exponent - 2 := rfl
      rw [roundingInterval_value, hshift, hexact, zpow_natCast, pow_zero, mul_one] at hdown hup
      -- The number is a point of its own grid.
      have hself : (roundingInterval d).pointBelow (0 : Nat) = n :=
        le_antisymm (by exact_mod_cast hdown) (Nat.lt_succ_iff.1 (by exact_mod_cast hup))
      rw [hself, ← Bool.not_eq_true, fits_iff_holds, zpow_natCast, pow_zero, mul_one, ← hexact] at hbelow
      exact absurd hholds hbelow

theorem exists_whole_shortest : ∃ c u : Nat, shortest d = ⟨c, u⟩ ∧ 0 < c ∧
    (roundingInterval d).Holds (c * 10 ^ u : Nat) := by
  have hpos := mantissa_pos_of_whole hvalue hn
  have hcount : 0 < digitCount n := List.length_pos_iff.2 Nat.toDigits_ne_nil
  have hplace : leadingPlace (roundingInterval d).value (roundingInterval d).shift = (digitCount n : ℤ) - 1 :=
    leadingPlace_of_whole hn (by exact_mod_cast value_of_whole hvalue)
  -- The grids are tried from the one of the leading digit on.
  have htried : ∀ k ≤ digitCount n - 1 - (digitCount n - 17),
      ((digitCount n : ℤ) - 1) + 1 - (1 + k : Nat) = (digitCount n - 1 - k : Nat) := by
    intro k hk
    omega
  obtain ⟨c, hc⟩ := exists_gridPoint_of_whole hd hn hvalue
  have hhit : ∃ c, gridPoint (roundingInterval d) (((digitCount n : ℤ) - 1) + 1 -
      (1 + (digitCount n - 1 - (digitCount n - 17)) : Nat)) = some c := by
    refine ⟨c, ?_⟩
    rw [htried _ le_rfl, ← hc]
    congr 2
    omega
  obtain ⟨k, hk, c, hgrid, -⟩ := exists_firstGrid 18 (by omega) hhit
  obtain ⟨c', u, hstrip⟩ := exists_stripZeros 20 c (digitCount n - 1 - k)
  have hshortest : shortest d = ⟨c', u⟩ := by
    rw [shortest, hplace, hgrid, htried k hk]
    exact hstrip
  have hholds := holds_shortest hd hpos
  have hdigits := shortest_pos hd hpos
  rw [hshortest] at hholds hdigits
  rw [Digits.value, zpow_natCast] at hholds
  exact ⟨c', u, hshortest, hdigits, by exact_mod_cast hholds⟩

/-- Below `2 ^ 53` no other whole number is in the interval. -/
theorem shortest_whole (hlt : n < 2 ^ 53) : ∃ c u : Nat, shortest d = ⟨c, u⟩ ∧ c * 10 ^ u = n := by
  obtain ⟨c, u, hshortest, -, hholds⟩ := exists_whole_shortest hd hn hvalue
  refine ⟨c, u, hshortest, ?_⟩
  generalize c * 10 ^ u = q at hholds
  have hexact := value_of_whole hvalue
  have hsmall : d.exponent ≤ 0 := by
    by_contra hlarge
    have hfull : 2 ^ 52 ≤ d.mantissa := hd.normal.resolve_left (by omega)
    have htwice : (2 : ℚ) ^ 52 * 2 ≤ n := by
      rw [← hvalue]
      have htwo : (2 : ℚ) ^ (1 : ℤ) ≤ 2 ^ d.exponent := zpow_le_zpow_right₀ (by norm_num) (by omega)
      rw [zpow_one] at htwo
      exact mul_le_mul (by exact_mod_cast hfull) htwo (by norm_num) (Nat.cast_nonneg _)
    have hnat : 2 ^ 52 * 2 ≤ n := by exact_mod_cast htwice
    omega
  have hunit : (2 : ℚ) ^ (d.exponent - 2) ≤ 2 ^ (-2 : ℤ) := zpow_le_zpow_right₀ (by norm_num) (by omega)
  have hquarter : (2 : ℚ) ^ (-2 : ℤ) = 1 / 4 := by norm_num
  have hlow := hholds.low_le
  have hhigh := hholds.le_high
  have hshift : (roundingInterval d).shift = d.exponent - 2 := rfl
  rw [hquarter] at hunit
  rw [roundingInterval_low (mantissa_pos_of_whole hvalue hn), hshift] at hlow
  rw [roundingInterval_high, hshift] at hhigh
  have habove : (q : ℚ) < n + 1 := by linarith
  have hbelow : (n : ℚ) < q + 1 := by
    split_ifs at hlow <;> linarith
  exact le_antisymm (Nat.lt_succ_iff.1 (by exact_mod_cast habove)) (Nat.lt_succ_iff.1 (by exact_mod_cast hbelow))

end whole

/-! ### Large doubles -/

section large

variable {m b : Nat} {negative : Bool} (hb : 1 ≤ b)

include hb

theorem inside_of_holds {n : Nat} (h : (roundingInterval ⟨negative, m, b⟩).Holds n) : Inside m (2 ^ b) n := by
  have hunit : (2 : ℚ) ^ b = 2 ^ ((b : ℤ) - 2) * 4 := by rw [quarter_mul_four, zpow_natCast]
  have hle : ∀ x : Nat, x * 2 ^ b ≤ 4 * n ↔ (x : ℚ) * 2 ^ ((b : ℤ) - 2) ≤ n := by
    intro x
    rw [← Nat.cast_le (α := ℚ), Nat.cast_mul, Nat.cast_mul, Nat.cast_pow, Nat.cast_two, Nat.cast_ofNat,
      hunit, ← mul_assoc, mul_comm 4, mul_le_mul_iff_left₀ four_pos]
  have hge : ∀ x : Nat, 4 * n ≤ x * 2 ^ b ↔ (n : ℚ) ≤ x * 2 ^ ((b : ℤ) - 2) := by
    intro x
    rw [← Nat.cast_le (α := ℚ), Nat.cast_mul, Nat.cast_mul, Nat.cast_pow, Nat.cast_two, Nat.cast_ofNat,
      hunit, ← mul_assoc, mul_comm 4, mul_le_mul_iff_left₀ four_pos]
  have hlow : (roundingInterval ⟨negative, m, b⟩).low = if m = 2 ^ 52 then 4 * m - 1 else 4 * m - 2 := by
    have hleast : leastExponent < (b : Int) := (show leastExponent < 0 by decide).trans_le (by omega)
    simp only [roundingInterval, hleast, and_true]
  refine ⟨hlow ▸ (hle _).2 h.low_le, (hge _).2 h.le_high, fun hodd => ?_⟩
  have hopen : (roundingInterval ⟨negative, m, b⟩).closed = false := by
    simp [roundingInterval, hodd]
  have hwide : (roundingInterval ⟨negative, m, b⟩).low = 4 * m - 2 := by
    rw [hlow, if_neg (by omega)]
  have habove := h.low_lt hopen
  have hbelow := h.lt_high hopen
  rw [hwide] at habove
  exact ⟨not_le.1 (mt (hge _).1 (not_le.2 habove)), not_le.1 (mt (hle _).1 (not_le.2 hbelow))⟩

theorem shortest_inside (hd : Dyadic.Canonical ⟨negative, m, b⟩) :
    ∃ c u : Nat, shortest ⟨negative, m, b⟩ = ⟨c, u⟩ ∧ 0 < c ∧ Inside m (2 ^ b) (c * 10 ^ u) := by
  have hlow : 2 ^ 52 ≤ m := hd.normal.resolve_left (show ¬ (b : Int) = -1074 by omega)
  have hn : 0 < m * 2 ^ b := Nat.mul_pos (by omega) (Nat.two_pow_pos b)
  obtain ⟨c, u, hshortest, hc, hholds⟩ := exists_whole_shortest hd hn (by push_cast; rw [zpow_natCast])
  exact ⟨c, u, hshortest, hc, inside_of_holds hb hholds⟩

end large

/-! ### Texts -/

theorem layOut_whole {c u : Nat} (hc : 0 < c) (hshort : digitCount c + u ≤ 21) :
    (⟨c, u⟩ : Digits).layOut standardLayout = digitChars (c * 10 ^ u) := by
  have hlength : (digitChars c).length = digitCount c := rfl
  have hplaces : standardLayout.placesBefore = 21 := rfl
  rw [Digits.layOut, digitChars_mul_ten_pow hc]
  dsimp only
  rw [hlength, hplaces, if_pos (by omega)]
  congr 2
  omega

theorem digitCount_le {n : Nat} (hlt : n < 2 ^ 53) : digitCount n ≤ 16 :=
  (Nat.length_toDigits_le_iff (by decide) (by decide)).2 (hlt.trans (by decide))

theorem layOut_shortest {d : Dyadic} {n : Nat} (hd : d.Canonical) (hn : 0 < n) (hlt : n < 2 ^ 53)
    (hvalue : (d.mantissa : ℚ) * 2 ^ d.exponent = n) : (shortest d).layOut standardLayout = digitChars n := by
  obtain ⟨c, u, hshortest, rfl⟩ := shortest_whole hd hn hvalue hlt
  have hc : 0 < c := Nat.pos_of_mul_pos_right hn
  have hcount := digitCount_le hlt
  rw [digitCount_mul_ten_pow hc] at hcount
  rw [hshortest, layOut_whole hc (by omega)]

/-- A whole number below `2 ^ 53` is written with its decimal digits. -/
theorem text_ofNat {n : Nat} (hlt : n < 2 ^ 53) : text (.ofNat n) = natText n := by
  rcases Nat.eq_zero_or_pos n with rfl | hn
  · have hzero : decode (Float.ofNat 0) = some ⟨false, 0, leastExponent⟩ := decode_zero
    rw [text, hzero]
    rfl
  · have hpos : 0 < n * 2 ^ (52 - n.log2) := Nat.mul_pos hn (Nat.two_pow_pos _)
    have hcanonical : Dyadic.Canonical ⟨false, n * 2 ^ (52 - n.log2), -((52 - n.log2 : Nat) : Int)⟩ :=
      canonical_whole hn hlt .positive
    have hvalue : ((n * 2 ^ (52 - n.log2) : Nat) : ℚ) * 2 ^ (-((52 - n.log2 : Nat) : ℤ)) = n := by
      rw [Nat.cast_mul, Nat.cast_pow, Nat.cast_two, zpow_neg, zpow_natCast,
        mul_inv_cancel_right₀ (by positivity)]
    rw [text, decode_ofNat hn hlt]
    dsimp only
    rw [if_neg hpos.ne', layOut_shortest hcanonical hn hlt hvalue]
    rfl

end MemoryCompiler.Decimal
