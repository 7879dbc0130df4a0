import MemoryCompiler.Decimal.Shortest
import MemoryCompiler.Proofs.Decimal.WholeDoubles

/-!
# Nearest doubles

Shifting bits out of a mantissa and rounding what is left takes the nearest multiple, a tie going to the
even one (`isNearest_shiftRight`). So every number inside the rounding interval of a double is rounded to
that double (`roundWithAccuracy_inside`), and a decimal numeral in the interval is read as that double
(`decode_ofScientific`).
-/

namespace MemoryCompiler.Decimal

open Float.Model (UnpackedFloat Format)
open Float.Model.UnpackedFloat

/-! ### Nearest multiples -/

/-- The multiple `c · unit` is nearest to `n`, and in a tie `c` is even. -/
structure IsNearest (n unit c : Nat) : Prop where
  le : 2 * n ≤ 2 * (c * unit) + unit
  ge : 2 * (c * unit) ≤ 2 * n + unit
  even : 2 * n = 2 * (c * unit) + unit ∨ 2 * (c * unit) = 2 * n + unit → c % 2 = 0

theorem IsNearest.not_lt {n unit c c' : Nat} (h : IsNearest n unit c) (h' : IsNearest n unit c')
    (hunit : 0 < unit) : ¬ c < c' := by
  intro hlt
  obtain ⟨j, rfl⟩ := Nat.exists_eq_add_of_lt hlt
  have hge := h'.ge
  have hle := h.le
  have hexpand : (c + j + 1) * unit = c * unit + j * unit + unit := by ring
  rw [hexpand] at hge
  -- Two multiples are nearest only if they are neighbours with the number halfway between them.
  have hnone : j * unit = 0 := by omega
  have hj : j = 0 := (Nat.mul_eq_zero.1 hnone).resolve_right hunit.ne'
  subst hj
  have heven := h.even (.inl (by omega))
  have heven' := h'.even (.inr (by rw [hexpand]; omega))
  omega

theorem IsNearest.unique {n unit c c' : Nat} (h : IsNearest n unit c) (h' : IsNearest n unit c')
    (hunit : 0 < unit) : c = c' :=
  Nat.le_antisymm (Nat.not_lt.1 (h'.not_lt h hunit)) (Nat.not_lt.1 (h.not_lt h' hunit))

/-- The two bits of a shifted mantissa tell how its remainder compares with half a unit. -/
theorem bits_shiftRight (n k : Nat) :
    ((⟨n, false, false⟩ : ExtendedMantissa) >>> k).roundBit = decide (2 ^ k ≤ 2 * (n % 2 ^ k)) ∧
      ((⟨n, false, false⟩ : ExtendedMantissa) >>> k).stickyBit =
        decide (n % 2 ^ k ≠ 0 ∧ 2 * (n % 2 ^ k) ≠ 2 ^ k) := by
  induction k with
  | zero =>
    rw [Nat.pow_zero, Nat.mod_one]
    exact ⟨rfl, rfl⟩
  | succ k ih =>
    have hmantissa := mantissa_shiftRight ⟨n, false, false⟩ k
    have hlt : n % 2 ^ k < 2 ^ k := Nat.mod_lt _ (Nat.two_pow_pos k)
    have hrest : n % 2 ^ (k + 1) = n % 2 ^ k + 2 ^ k * (n / 2 ^ k % 2) := by
      rw [Nat.pow_succ, Nat.mod_mul]
    have hpow : 2 ^ (k + 1) = 2 * 2 ^ k := Nat.pow_succ'
    obtain ⟨hround, hsticky⟩ := ih
    have hstep : (⟨n, false, false⟩ : ExtendedMantissa) >>> (k + 1) =
        ((⟨n, false, false⟩ : ExtendedMantissa) >>> k).shiftRightOne := rfl
    rw [hstep, ExtendedMantissa.shiftRightOne, hround, hsticky, hmantissa, hrest, hpow]
    dsimp only
    rcases Nat.mod_two_eq_zero_or_one (n / 2 ^ k) with hbit | hbit
    · rw [hbit, Nat.mul_zero, Nat.add_zero, ← Bool.decide_or]
      exact ⟨(decide_eq_false (by omega)).symm, decide_eq_decide.2 (by omega)⟩
    · rw [hbit, Nat.mul_one, ← Bool.decide_or]
      exact ⟨(decide_eq_true (by omega)).symm, decide_eq_decide.2 (by omega)⟩

theorem isNearest_shiftRight (n k : Nat) :
    IsNearest n (2 ^ k) ((⟨n, false, false⟩ : ExtendedMantissa) >>> k).roundedMantissa := by
  have hmantissa := mantissa_shiftRight ⟨n, false, false⟩ k
  obtain ⟨hround, hsticky⟩ := bits_shiftRight n k
  have hdivision : 2 ^ k * (n / 2 ^ k) + n % 2 ^ k = n := Nat.div_add_mod n (2 ^ k)
  have hlt : n % 2 ^ k < 2 ^ k := Nat.mod_lt _ (Nat.two_pow_pos k)
  rw [Nat.mul_comm] at hdivision
  generalize (⟨n, false, false⟩ : ExtendedMantissa) >>> k = em at hmantissa hround hsticky
  obtain ⟨q, roundBit, stickyBit⟩ := em
  dsimp only at hmantissa hround hsticky
  rw [← hmantissa] at hdivision
  have hnext : (q + 1) * 2 ^ k = q * 2 ^ k + 2 ^ k := Nat.succ_mul q _
  generalize n % 2 ^ k = r at hdivision hlt hround hsticky
  cases roundBit <;> cases stickyBit <;>
    simp only [Bool.false_eq, Bool.true_eq, decide_eq_false_iff_not, decide_eq_true_eq] at hround hsticky
  · show IsNearest n (2 ^ k) q
    constructor <;> omega
  · show IsNearest n (2 ^ k) q
    constructor <;> omega
  · show IsNearest n (2 ^ k) (q + q % 2)
    rcases Nat.mod_two_eq_zero_or_one q with hq | hq
    · rw [hq, Nat.add_zero]
      constructor <;> omega
    · rw [hq]
      constructor <;> omega
  · show IsNearest n (2 ^ k) (q + 1)
    constructor <;> omega

/-! ### Rounding inside an interval -/

/-- A number lies in the rounding interval of `m · unit`, for a mantissa that fills its bits. The bounds
belong to it if `m` is even, and below a power of two it reaches half as far. -/
structure Inside (m unit n : Nat) : Prop where
  low : (if m = 2 ^ 52 then 4 * m - 1 else 4 * m - 2) * unit ≤ 4 * n
  high : 4 * n ≤ (4 * m + 2) * unit
  strict : m % 2 = 1 → (4 * m - 2) * unit < 4 * n ∧ 4 * n < (4 * m + 2) * unit

section inside

variable {s : Sign} {m n k : Nat} {e : Int}

theorem Inside.bounds (h : Inside m (2 ^ k) n) (hlow : 2 ^ 52 ≤ m) (hhigh : m < 2 ^ 53) :
    4 * (m * 2 ^ k) ≤ 4 * n + 2 * 2 ^ k ∧ 4 * n ≤ 4 * (m * 2 ^ k) + 2 * 2 ^ k ∧
      (m = 2 ^ 52 → 4 * (m * 2 ^ k) ≤ 4 * n + 2 ^ k) ∧
      (m % 2 = 1 → 4 * (m * 2 ^ k) < 4 * n + 2 * 2 ^ k ∧ 4 * n < 4 * (m * 2 ^ k) + 2 * 2 ^ k) := by
  obtain ⟨hle, hge, hstrict⟩ := h
  have hup : (4 * m + 2) * 2 ^ k = 4 * (m * 2 ^ k) + 2 * 2 ^ k := by ring
  have hdown : ∀ b, b ≤ 4 * m → (4 * m - b) * 2 ^ k = 4 * (m * 2 ^ k) - b * 2 ^ k := by
    intro b _
    rw [Nat.sub_mul, Nat.mul_assoc]
  rw [hup] at hge hstrict
  rw [hdown 2 (by omega)] at hstrict
  refine ⟨?_, hge, ?_, fun hodd => ?_⟩
  · split_ifs at hle
    · rw [hdown 1 (by omega)] at hle
      omega
    · rw [hdown 2 (by omega)] at hle
      omega
  · intro hm
    rw [if_pos hm, hdown 1 (by omega)] at hle
    omega
  · have := hstrict hodd
    omega

theorem log2_sub_of_binade {n k : Nat} (hle : 2 ^ 52 * 2 ^ k ≤ n) (hlt : n < 2 ^ 53 * 2 ^ k) :
    n.log2 - 52 = k := by
  have hpos := Nat.two_pow_pos k
  have hbits : n.log2 = 52 + k := by
    refine (Nat.log2_eq_iff (by omega)).2 ⟨?_, ?_⟩
    · rw [Nat.pow_add]
      exact hle
    · rw [Nat.add_right_comm, Nat.pow_add]
      exact hlt
  omega

theorem roundWithAccuracy_inside (hn : 2 ^ 52 ≤ n) (he : -1074 ≤ e) (hlow : 2 ^ 52 ≤ m)
    (hhigh : m < 2 ^ 53) (h : Inside m (2 ^ k) n) :
    roundWithAccuracy Format.binary64 s n e .exact =
      .finite s m (e + k) (Nat.lt_of_lt_of_le (by decide) hlow) := by
  obtain ⟨hle, hge, hnarrow, hstrict⟩ := h.bounds hlow hhigh
  have hunit := Nat.two_pow_pos k
  have hleast : 2 ^ 52 * 2 ^ k ≤ m * 2 ^ k := Nat.mul_le_mul_right _ hlow
  have hmost : m * 2 ^ k + 2 ^ k ≤ 2 ^ 53 * 2 ^ k := by
    rw [← Nat.succ_mul]
    exact Nat.mul_le_mul_right _ hhigh
  have hshift := shiftToTargetExponent_eq (m := n) he
  by_cases hbinade : 2 ^ 52 * 2 ^ k ≤ n
  · -- The number has the exponent of the double, whose mantissa is then the nearest.
    have hlog : n.log2 - 52 = k := log2_sub_of_binade hbinade (by omega)
    have hnearest : IsNearest n (2 ^ k) m := by
      refine ⟨by omega, by omega, fun htie => ?_⟩
      by_contra hodd
      have := hstrict (by omega)
      omega
    have hrounded := (isNearest_shiftRight n k).unique hnearest hunit
    rw [hlog] at hshift
    have hround := roundWithAccuracy_of_lt (s := s) hshift (by omega) (by omega) (by omega)
    rw [hround]
    congr 1
  · -- The number is just below a power of two, and rounding carries into the next exponent.
    have hm : m = 2 ^ 52 := by
      by_contra hne
      have hmore : (2 ^ 52 + 1) * 2 ^ k ≤ m * 2 ^ k := Nat.mul_le_mul_right _ (by omega)
      rw [Nat.succ_mul] at hmore
      omega
    subst hm
    cases k with
    | zero => omega
    | succ j =>
      have hpow : 2 ^ (j + 1) = 2 * 2 ^ j := Nat.pow_succ'
      have hnear := hnarrow rfl
      rw [hpow] at hnear hbinade
      have hlog : n.log2 - 52 = j := log2_sub_of_binade (by omega) (by omega)
      have hnearest : IsNearest n (2 ^ j) (2 ^ 53) := by
        refine ⟨by omega, by omega, fun _ => by decide⟩
      have hrounded := (isNearest_shiftRight n j).unique hnearest (Nat.two_pow_pos j)
      rw [hlog] at hshift
      rw [roundWithAccuracy_carry (s := s) hshift (by omega) hrounded]
      congr 1
      push_cast
      omega

theorem inside_mul {unit c : Nat} (hc : 0 < c) :
    Inside m (unit * c) (n * c) ↔ Inside m unit n := by
  have hle : ∀ b, b * (unit * c) ≤ 4 * (n * c) ↔ b * unit ≤ 4 * n := fun b => by
    rw [← Nat.mul_assoc, ← Nat.mul_assoc]
    exact Nat.mul_le_mul_right_iff hc
  have hge : ∀ b, 4 * (n * c) ≤ b * (unit * c) ↔ 4 * n ≤ b * unit := fun b => by
    rw [← Nat.mul_assoc, ← Nat.mul_assoc]
    exact Nat.mul_le_mul_right_iff hc
  constructor
  · rintro ⟨low, high, strict⟩
    refine ⟨(hle _).1 low, (hge _).1 high, fun hodd => ?_⟩
    rw [← Nat.not_le, ← Nat.not_le, ← hge, ← hle, Nat.not_le, Nat.not_le]
    exact strict hodd
  · rintro ⟨low, high, strict⟩
    refine ⟨(hle _).2 low, (hge _).2 high, fun hodd => ?_⟩
    rw [← Nat.not_le, ← Nat.not_le, hge, hle, Nat.not_le, Nat.not_le]
    exact strict hodd

theorem roundWithAccuracy_whole {q b t a : Nat} (hn : 2 ^ 52 ≤ n) (he : -1074 ≤ e) (ha : e + t = a)
    (hvalue : n * 2 ^ a = q * 2 ^ t) (hlow : 2 ^ 52 ≤ m) (hhigh : m < 2 ^ 53)
    (h : Inside m (2 ^ b) q) :
    roundWithAccuracy Format.binary64 s n e .exact =
      .finite s m b (Nat.lt_of_lt_of_le (by decide) hlow) := by
  have hscaled : Inside m (2 ^ (b + t)) (n * 2 ^ a) := by
    rw [hvalue, Nat.pow_add]
    exact (inside_mul (Nat.two_pow_pos t)).2 h
  have hle : a ≤ b + t := by
    by_contra hgt
    obtain ⟨-, hge, -⟩ := hscaled.bounds hlow hhigh
    have hmore : 2 ^ 52 * 2 ^ (b + t + 1) ≤ n * 2 ^ a :=
      Nat.mul_le_mul hn (Nat.pow_le_pow_right (by decide) (by omega))
    have hmost : m * 2 ^ (b + t) + 2 ^ (b + t) ≤ 2 ^ 53 * 2 ^ (b + t) := by
      rw [← Nat.succ_mul]
      exact Nat.mul_le_mul_right _ hhigh
    have hunit := Nat.two_pow_pos (b + t)
    rw [Nat.pow_succ'] at hmore
    omega
  have hsplit : 2 ^ (b + t) = 2 ^ (b + t - a) * 2 ^ a := by
    rw [← Nat.pow_add, Nat.sub_add_cancel hle]
  rw [hsplit] at hscaled
  rw [roundWithAccuracy_inside hn he hlow hhigh ((inside_mul (Nat.two_pow_pos a)).1 hscaled)]
  congr 1
  omega

end inside

/-! ### Reading a decimal numeral -/

theorem decode_powerOfTen {u : Nat} (hu : u ≤ 22) :
    ∃ p f, decode (getElem Float.exactlyRepresentablePowersOfTen u (Nat.lt_succ_of_le hu)) =
        some ⟨false, p, f⟩ ∧ 2 ^ 52 ≤ p ∧ -52 ≤ f ∧ p * 2 ^ (f + 52).toNat = 10 ^ u * 2 ^ 52 := by
  have hall : ∀ i : Fin 23, ((decode Float.exactlyRepresentablePowersOfTen[i]).any fun d =>
      !d.negative && decide (2 ^ 52 ≤ d.mantissa) && decide (-52 ≤ d.exponent) &&
        decide (d.mantissa * 2 ^ (d.exponent + 52).toNat = 10 ^ i.val * 2 ^ 52)) = true := by
    decide +kernel
  obtain ⟨⟨negative, p, f⟩, hd, hfacts⟩ := (Option.any_eq_true _ _).1 (hall ⟨u, Nat.lt_succ_of_le hu⟩)
  simp only [Bool.and_eq_true, Bool.not_eq_true', decide_eq_true_eq] at hfacts
  obtain ⟨⟨⟨rfl, hp⟩, hf⟩, hvalue⟩ := hfacts
  exact ⟨p, f, hd, hp, hf, hvalue⟩

/-- A numeral without a fraction is read as the double whose rounding interval it lies in. -/
theorem decode_ofScientific {c u m b : Nat} (hc : 0 < c) (hu : u ≤ 400)
    (hd : Dyadic.Canonical ⟨false, m, b⟩) (hlow : 2 ^ 52 ≤ m) (h : Inside m (2 ^ b) (c * 10 ^ u)) :
    decode (Float.ofScientific c false u) = some ⟨false, m, b⟩ := by
  have hhigh : m < 2 ^ 53 := hd.mantissa_lt
  have hpacked : ∀ x : UnpackedFloat, x = .finite .positive m b (Nat.lt_of_lt_of_le (by decide) hlow) →
      decode (.ofModel (.pack x)) = some ⟨false, m, b⟩ := by
    rintro x rfl
    exact decode_pack _ hd
  by_cases hsmall : c < 2 ^ 53 ∧ u ≤ 22
  · rw [Float.ofScientific, dif_pos hsmall]
    obtain ⟨hclt, hu'⟩ := hsmall
    obtain ⟨p, f, hpower, hp, hf, hvalue⟩ := decode_powerOfTen hu'
    obtain ⟨hwhole, -⟩ := whole_bounds hc hclt
    have hlog : c.log2 ≤ 52 := Nat.le_of_lt_succ ((Nat.log2_lt hc.ne').2 hclt)
    refine hpacked (UnpackedFloat.mul Format.binary64 _ _) ?_
    show UnpackedFloat.mul Format.binary64 c.toUInt64.toFloat.toModel.unpack
      (getElem Float.exactlyRepresentablePowersOfTen u (Nat.lt_succ_of_le hu')).toModel.unpack = _
    rw [unpack_of_decode (Nat.mul_pos hc (Nat.two_pow_pos _)) (decode_toFloat hc hclt),
      unpack_of_decode (by omega) hpower]
    -- Both factors are exact, so their product is rounded once.
    have hfull : 2 ^ 52 ≤ c * 2 ^ (52 - c.log2) * p := by
      calc 2 ^ 52 ≤ 2 ^ 52 * 1 := by omega
        _ ≤ _ := Nat.mul_le_mul hwhole (by omega)
    have hpow : 2 ^ ((52 - c.log2) + (f + 52).toNat) = 2 ^ (52 - c.log2) * 2 ^ (f + 52).toNat :=
      Nat.pow_add ..
    refine roundWithAccuracy_whole (t := 2 * (52 - c.log2) + 52)
      (a := (52 - c.log2) + (f + 52).toNat) hfull (by omega) (by omega) ?_ hlow hhigh h
    calc c * 2 ^ (52 - c.log2) * p * 2 ^ ((52 - c.log2) + (f + 52).toNat)
        = c * 2 ^ (52 - c.log2) * 2 ^ (52 - c.log2) * (p * 2 ^ (f + 52).toNat) := by
          rw [hpow]
          ring
      _ = c * 10 ^ u * 2 ^ (2 * (52 - c.log2) + 52) := by
          rw [hvalue, Nat.pow_add 2 (2 * _), Nat.two_mul, Nat.pow_add]
          ring
  · rw [Float.ofScientific, dif_neg hsmall]
    refine hpacked (UnpackedFloat.ofScientific Format.binary64 c (u : Int)) ?_
    have hshift : c <<< 53 * 10 ^ u = c * 10 ^ u * 2 ^ 53 := by
      rw [Nat.shiftLeft_eq]
      ring
    have hfull : 2 ^ 52 ≤ c <<< 53 * 10 ^ u := by
      have hone : 1 ≤ c * 10 ^ u := Nat.mul_pos hc (Nat.pow_pos (by decide))
      omega
    have hbits : Format.binary64.exponentBits = 11 := rfl
    rw [UnpackedFloat.ofScientific, dif_neg hc.ne', hbits, if_neg (by omega), if_neg (by omega),
      if_pos (by omega)]
    refine roundWithAccuracy_whole (t := 53) (a := 0) hfull (by decide) (by decide) ?_ hlow hhigh h
    rw [Nat.pow_zero, Nat.mul_one]
    exact hshift

end MemoryCompiler.Decimal
