import MemoryCompiler.Proofs.Decimal.Nearest
import MemoryCompiler.Proofs.Decimal.WholeText

/-!
# Sums of whole doubles beyond the exact ones

Up to `2 ^ 53` whole doubles add up exactly. Above it a sum is rounded once, to the nearest number of 53
significant bits, which is what `roundNat` does to the exact sum (`wholeValue_add`), and so is a whole
number that is written down (`wholeValue_ofNat`). Whole doubles are ordered as the numbers they stand for
(`lt_iff_of_wholeValue`).
-/

namespace MemoryCompiler.Decimal

open Float.Model (UnpackedFloat Format)
open Float.Model.UnpackedFloat

/-! ### Rounding a whole number -/

theorem IsNearest.inside {q m k : Nat} (h : IsNearest q (2 ^ k) m) (hq : 2 ^ 52 * 2 ^ k ≤ q) :
    Inside m (2 ^ k) q := by
  have hup : (4 * m + 2) * 2 ^ k = 4 * (m * 2 ^ k) + 2 * 2 ^ k := by ring
  have hdown : ∀ b, (4 * m - b) * 2 ^ k = 4 * (m * 2 ^ k) - b * 2 ^ k := fun b => by
    rw [Nat.sub_mul, Nat.mul_assoc]
  obtain ⟨hle, hge, heven⟩ := h
  refine ⟨?_, ?_, fun hodd => ?_⟩
  · split_ifs with hm
    · rw [hdown, hm]
      omega
    · rw [hdown]
      omega
  · rw [hup]
    omega
  · have hnot : ¬ (2 * q = 2 * (m * 2 ^ k) + 2 ^ k ∨ 2 * (m * 2 ^ k) = 2 * q + 2 ^ k) := fun htie => by
      have := heven htie
      omega
    rw [hup, hdown]
    omega

/-- A mantissa that is rounded up to `2 ^ 53` has one bit too many, and is halved. -/
theorem IsNearest.inside_carry {q k : Nat} (h : IsNearest q (2 ^ k) (2 ^ 53)) (hq : q < 2 ^ 53 * 2 ^ k) :
    Inside (2 ^ 52) (2 ^ (k + 1)) q := by
  have hpow : 2 ^ (k + 1) = 2 * 2 ^ k := Nat.pow_succ'
  have hge := h.ge
  refine ⟨?_, ?_, fun hodd => absurd hodd (by decide)⟩
  · rw [if_pos rfl, hpow]
    omega
  · rw [hpow]
    omega

theorem exists_isNearest (q : Nat) : ∃ c, IsNearest q (2 ^ (q.log2 - 52)) c ∧
    roundNat q = c * 2 ^ (q.log2 - 52) ∧ q / 2 ^ (q.log2 - 52) ≤ c := by
  have hunit := Nat.two_pow_pos (q.log2 - 52)
  have hextra : q.log2 + 1 - mantissaBits = q.log2 - 52 := by
    rw [mantissaBits]
    omega
  have hdivision := Nat.div_add_mod q (2 ^ (q.log2 - 52))
  have hlt := Nat.mod_lt q hunit
  have hone : q.log2 - 52 = 0 → 2 ^ (q.log2 - 52) = 1 := fun h => by rw [h, Nat.pow_zero]
  rw [roundNat, hextra]
  generalize q.log2 - 52 = k at hunit hdivision hlt hone
  generalize q % 2 ^ k = r at hdivision hlt
  rw [Nat.mul_comm] at hdivision
  generalize q / 2 ^ k = c at hdivision
  have hnext : (c + 1) * 2 ^ k = c * 2 ^ k + 2 ^ k := Nat.succ_mul c _
  split_ifs with hround
  · refine ⟨c + 1, ⟨?_, ?_, ?_⟩, rfl, Nat.le_succ c⟩ <;> omega
  · refine ⟨c, ⟨?_, ?_, ?_⟩, rfl, le_refl c⟩ <;> omega

theorem exists_inside {q : Nat} (hq : 2 ^ 52 ≤ q) (hrange : q.log2 < 1023) : ∃ m b : Nat, 2 ^ 52 ≤ m ∧
    Dyadic.Canonical ⟨false, m, b⟩ ∧ Inside m (2 ^ b) q ∧ roundNat q = m * 2 ^ b := by
  have hlog : 52 ≤ q.log2 := (Nat.le_log2 (by omega)).2 hq
  obtain ⟨c, hnearest, hround, hle⟩ := exists_isNearest q
  obtain ⟨hlow, hhigh⟩ := div_two_pow_bounds (by omega) hlog
  have hunit := Nat.two_pow_pos (q.log2 - 52)
  have hmost : q < 2 ^ 53 * 2 ^ (q.log2 - 52) := (Nat.div_lt_iff_lt_mul hunit).1 hhigh
  have hleast : 2 ^ 52 * 2 ^ (q.log2 - 52) ≤ q := (Nat.le_div_iff_mul_le hunit).1 hlow
  have hcanonical : ∀ {m b : Nat}, 2 ^ 52 ≤ m → m < 2 ^ 53 → b ≤ 971 → Dyadic.Canonical ⟨false, m, b⟩ :=
    fun {m b} hfull hbits hb =>
      ⟨hbits, show (-1074 : Int) ≤ b by omega, show (b : Int) ≤ 971 by omega, .inr hfull⟩
  by_cases hc : c < 2 ^ 53
  · exact ⟨c, q.log2 - 52, hlow.trans hle, hcanonical (hlow.trans hle) hc (by omega),
      hnearest.inside hleast, hround⟩
  · have hcarry : c = 2 ^ 53 := by
      by_contra hne
      have hmore : (2 ^ 53 + 1) * 2 ^ (q.log2 - 52) ≤ c * 2 ^ (q.log2 - 52) :=
        Nat.mul_le_mul_right _ (by omega)
      have hge := hnearest.ge
      rw [Nat.succ_mul] at hmore
      omega
    subst hcarry
    refine ⟨2 ^ 52, q.log2 - 52 + 1, le_refl _, hcanonical (le_refl _) (by decide) (by omega),
      hnearest.inside_carry hmost, ?_⟩
    rw [hround]
    ring

section whole

variable {x : Float} {n : Nat}

theorem wholeValue_of_natCast {m b : Nat} (hm : 0 < m) (hx : decode x = some ⟨false, m, b⟩) :
    wholeValue x = some ((m * 2 ^ b : Nat) : Int) := by
  refine (wholeValue_of_decode (Nat.mul_pos hm (Nat.two_pow_pos b)) hx).2 ⟨rfl, ?_⟩
  rw [if_pos (Int.natCast_nonneg b)]
  rfl

/-- **A whole number is written down as the double that it is rounded to.** -/
theorem wholeValue_ofNat (hn : 0 < n) (hrange : n.log2 < 1023) :
    wholeValue (Float.ofNat n) = some (roundNat n : Int) := by
  by_cases hexact : n < 2 ^ 53
  · rw [roundNat_of_lt hexact]
    exact (wholeValue_eq_some_iff hn hexact).2 rfl
  · obtain ⟨m, b, hfull, hcanonical, hinside, hround⟩ := exists_inside (q := n) (by omega) hrange
    have hnumeral : Inside m (2 ^ b) (n * 10 ^ 0) := by
      rw [Nat.pow_zero, Nat.mul_one]
      exact hinside
    rw [hround]
    exact wholeValue_of_natCast (by omega) (decode_ofScientific hn (by decide) hcanonical hfull hnumeral)

end whole

/-! ### Adding -/

theorem exists_round_units {c q : Nat} {e : Int} (hc : 2 ^ 52 ≤ c) (he : -1074 ≤ e)
    (hvalue : c * 2 ^ (e + 1074).toNat = q * unitsOfOne) (hq : 2 ^ 52 ≤ q) (hrange : q.log2 < 1023) :
    ∃ m b h, UnpackedFloat.round Format.binary64 .positive c e = .finite .positive m ((b : Nat) : Int) h ∧
      Dyadic.Canonical ⟨false, m, b⟩ ∧ roundNat q = m * 2 ^ b := by
  obtain ⟨m, b, hlow, hcanonical, hinside, hround⟩ := exists_inside hq hrange
  have hfull : 52 ≤ c.log2 := (Nat.le_log2 (by omega)).2 hc
  have hstays : (e - max ((c.log2 : Int) + e - 52) (-1074)).toNat = 0 := by omega
  have hleast : leastExponent = -1074 := rfl
  refine ⟨m, b, Nat.lt_of_lt_of_le (by decide) hlow, ?_, hcanonical, hround⟩
  rw [UnpackedFloat.round]
  dsimp only
  rw [targetExponent_eq, decreaseExponent, Nat.shiftLeft_eq, hstays, Nat.pow_zero, Nat.mul_one,
    Int.natCast_zero, Int.sub_zero]
  exact roundWithAccuracy_whole (t := (-leastExponent).toNat) hc he (by omega) hvalue hlow
    hcanonical.mantissa_lt hinside

section add

variable {x y : Float} {m n : Nat}

theorem exists_unpack_of_wholeValue (hn : 0 < n) (hx : wholeValue x = some (n : Int)) :
    ∃ a e h, x.toModel.unpack = .finite .positive a e h ∧ Dyadic.Canonical ⟨false, a, e⟩ ∧
      a * 2 ^ (e + 1074).toNat = n * unitsOfOne := by
  obtain ⟨⟨negative, a, e⟩, hd, -⟩ := Option.bind_eq_some_iff.1 hx
  have hunits := units_of_wholeValue hd hx
  obtain ⟨hsign, -⟩ := (wholeValue_of_decode hn hd).1 hx
  cases hsign
  rw [Dyadic.units, if_neg Bool.false_ne_true, one_mul] at hunits
  have hvalue : a * 2 ^ (e + 1074).toNat = n * unitsOfOne := by exact_mod_cast hunits
  have hpos : 0 < a := by
    by_contra hzero
    have : 0 < n * unitsOfOne := Nat.mul_pos hn unitsOfOne_pos
    rw [← hvalue, Nat.eq_zero_of_not_pos hzero, Nat.zero_mul] at this
    exact lt_irrefl 0 this
  exact ⟨a, e, hpos, unpack_of_decode hpos hd, canonical_of_decode hd, hvalue⟩

theorem decreaseExponent_units {a : Nat} {i e : Int} (he : -1074 ≤ e) (hle : e ≤ i) :
    (decreaseExponent a i e).1 * 2 ^ (e + 1074).toNat = a * 2 ^ (i + 1074).toNat := by
  have hshift : (i - e).toNat + (e + 1074).toNat = (i + 1074).toNat := by omega
  rw [decreaseExponent]
  dsimp only
  rw [Nat.shiftLeft_eq, Nat.mul_assoc, ← Nat.pow_add, hshift]

theorem le_decreaseExponent (a : Nat) (i e : Int) : a ≤ (decreaseExponent a i e).1 := by
  rw [decreaseExponent]
  dsimp only
  rw [Nat.shiftLeft_eq]
  exact Nat.le_mul_of_pos_right a (Nat.two_pow_pos _)

/-- **A sum of whole doubles is the exact sum, rounded once.** -/
theorem wholeValue_add (hm : 0 < m) (hn : 0 < n) (hx : wholeValue x = some (m : Int))
    (hy : wholeValue y = some (n : Int)) (hrange : (m + n).log2 < 1023) :
    wholeValue (x + y) = some (roundNat (m + n) : Int) := by
  by_cases hexact : m + n < 2 ^ 53
  · have hx' := (wholeValue_eq_some_iff hm (by omega)).1 hx
    have hy' := (wholeValue_eq_some_iff hn (by omega)).1 hy
    rw [roundNat_of_lt hexact, hx', hy', ofNat_add hexact]
    exact (wholeValue_eq_some_iff (by omega) hexact).2 rfl
  obtain ⟨a, i, ha, hxu, hxc, hxvalue⟩ := exists_unpack_of_wholeValue hm hx
  obtain ⟨b, j, hb, hyu, hyc, hyvalue⟩ := exists_unpack_of_wholeValue hn hy
  have hi : -1074 ≤ i := hxc.exponent_ge
  have hj : -1074 ≤ j := hyc.exponent_ge
  -- At the smaller exponent the sum of the mantissas is exact.
  generalize he : min i j = e
  have hsum : ((decreaseExponent a i e).1 + (decreaseExponent b j e).1) * 2 ^ (e + 1074).toNat =
      (m + n) * unitsOfOne := by
    rw [Nat.add_mul, decreaseExponent_units (by omega) (by omega),
      decreaseExponent_units (by omega) (by omega), hxvalue, hyvalue, Nat.add_mul]
  have hfull : 2 ^ 52 ≤ (decreaseExponent a i e).1 + (decreaseExponent b j e).1 := by
    by_cases hpositive : 0 < e
    · have hnormal : 2 ^ 52 ≤ a := hxc.normal.resolve_left (show ¬ i = -1074 by omega)
      have := le_decreaseExponent a i e
      omega
    · have hless : 2 ^ (e + 1074).toNat ≤ unitsOfOne :=
        Nat.pow_le_pow_right (by decide) (show (e + 1074).toNat ≤ 1074 by omega)
      have hge : m + n ≤ (decreaseExponent a i e).1 + (decreaseExponent b j e).1 := by
        refine Nat.le_of_mul_le_mul_right ?_ unitsOfOne_pos
        rw [← hsum]
        exact Nat.mul_le_mul_left _ hless
      omega
  obtain ⟨c, k, hc, hround, hcanonical, hvalue⟩ :=
    exists_round_units hfull (by omega) hsum (by omega) hrange
  have hadd : UnpackedFloat.add Format.binary64 x.toModel.unpack y.toModel.unpack =
      .finite .positive c k hc := by
    rw [hxu, hyu, UnpackedFloat.add, ← hround]
    dsimp only
    rw [he]
    show UnpackedFloat.normalize Format.binary64
      (((decreaseExponent a i e).1 : Int) + ((decreaseExponent b j e).1 : Int)) _ _ = _
    rw [UnpackedFloat.normalize, compare_gt_iff_gt.2 (by omega), ← Int.natCast_add, Int.toNat_natCast]
  have hdecode : decode (x + y) = some ⟨false, c, k⟩ := by
    show decode (.ofModel (.pack (UnpackedFloat.add Format.binary64 x.toModel.unpack y.toModel.unpack))) = _
    rw [hadd]
    exact decode_pack hc hcanonical
  rw [hvalue]
  exact wholeValue_of_natCast hc hdecode

theorem lt_iff_of_wholeValue (hx : wholeValue x = some (m : Int)) (hy : wholeValue y = some (n : Int)) :
    x < y ↔ m < n := by
  obtain ⟨c, hc, -⟩ := Option.bind_eq_some_iff.1 hx
  obtain ⟨d, hd, -⟩ := Option.bind_eq_some_iff.1 hy
  have hunits : (0 : Int) < unitsOfOne := Int.ofNat_lt.2 unitsOfOne_pos
  rw [lt_iff hc hd, units_of_wholeValue hc hx, units_of_wholeValue hd hy,
    Int.mul_lt_mul_right hunits, Int.ofNat_lt]

end add

end MemoryCompiler.Decimal
