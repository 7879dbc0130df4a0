import MemoryCompiler.Decimal.Shortest
import MemoryCompiler.Proofs.Decimal.WholeDoubles
import MemoryCompiler.Proofs.Text.Characters

/-!
# Sums of whole doubles and texts of whole numbers

Whole numbers add up exactly as doubles while the sum stays below `2 ^ 53` (`ofNat_add`, `foldl_add_ofNat`).
The text of a natural number determines it, also in front of another text (`natText_injective`,
`natText_append_inj`).
-/

namespace MemoryCompiler.Decimal

open Float.Model (UnpackedFloat Format)
open Float.Model.UnpackedFloat

/-! ### Sums -/

section sums

variable {m n : Nat}

/-- Zero bits below the binary point do not change how a whole number is rounded. -/
theorem round_scaled {s : Sign} (hm : 0 < m) (hlt : m < 2 ^ 53) {k : Nat} (hk : 52 - m.log2 ≤ k)
    (hle : k ≤ 52) : UnpackedFloat.round Format.binary64 s (m * 2 ^ k) (-(k : Int)) =
      .finite s (m * 2 ^ (52 - m.log2)) (-((52 - m.log2 : Nat) : Int))
        (Nat.mul_pos hm (Nat.two_pow_pos _)) := by
  have hlog : m.log2 ≤ 52 := Nat.le_of_lt_succ ((Nat.log2_lt hm.ne').2 hlt)
  have hscaled := log2_mul_two_pow hm k
  have hnone : (-(k : Int) - max (((m * 2 ^ k).log2 : Int) + -(k : Int) - 52) (-1074)).toNat = 0 := by omega
  have hsplit : m * 2 ^ k = m * 2 ^ (52 - m.log2) * 2 ^ ((m * 2 ^ k).log2 - 52) := by
    have hextra : (m * 2 ^ k).log2 - 52 = k - (52 - m.log2) := by omega
    rw [hextra, Nat.mul_assoc, ← Nat.pow_add, Nat.add_sub_cancel' hk]
  -- All that is shifted out is zeros.
  have hshift : shiftToTargetExponent Format.binary64 (m * 2 ^ k) (-(k : Int)) .exact =
      (⟨m * 2 ^ (52 - m.log2), false, false⟩, -((52 - m.log2 : Nat) : Int)) := by
    rw [shiftToTargetExponent_eq (by omega)]
    refine Prod.ext ?_ ?_
    · dsimp only
      nth_rewrite 1 [hsplit]
      exact shiftRight_exact _ _
    · dsimp only
      omega
  rw [UnpackedFloat.round]
  dsimp only
  rw [targetExponent_eq, decreaseExponent, Nat.shiftLeft_eq, hnone, Nat.pow_zero, Nat.mul_one,
    Int.natCast_zero, Int.sub_zero]
  exact roundWithAccuracy_of_lt hshift (by omega) _ (whole_bounds hm hlt).2

theorem unpack_ofNat (hn : 0 < n) (hlt : n < 2 ^ 53) : (Float.ofNat n).toModel.unpack =
    .finite .positive (n * 2 ^ (52 - n.log2)) (-((52 - n.log2 : Nat) : Int))
      (Nat.mul_pos hn (Nat.two_pow_pos _)) :=
  unpack_of_decode _ (decode_ofNat hn hlt)

theorem decreaseExponent_whole {k : Nat} (hk : 52 - n.log2 ≤ k) :
    (decreaseExponent (n * 2 ^ (52 - n.log2)) (-((52 - n.log2 : Nat) : Int)) (-(k : Int))).1 = n * 2 ^ k := by
  have hshift : (-((52 - n.log2 : Nat) : Int) - -(k : Int)).toNat = k - (52 - n.log2) := by omega
  rw [decreaseExponent]
  dsimp only
  rw [Nat.shiftLeft_eq, hshift, Nat.mul_assoc, ← Nat.pow_add, Nat.add_sub_cancel' hk]

theorem unpack_zero : (Float.ofNat 0).toModel.unpack = .zero .positive := by
  have h : decode (Float.ofNat 0) = some ⟨false, 0, leastExponent⟩ := decode_zero
  rw [decode_eq] at h
  generalize (Float.ofNat 0).toModel.unpack = u at h
  cases u with
  | notANumber => cases h
  | infinity s => cases h
  | zero s =>
    cases s with
    | negative => exact absurd h (by decide)
    | positive => rfl
  | finite s m e hm =>
    simp only [ofUnpacked, Option.some.injEq, Dyadic.mk.injEq] at h
    omega

theorem add_eq_ofNat {x y : Float} (hn : 0 < n) (hlt : n < 2 ^ 53)
    (h : UnpackedFloat.add Format.binary64 x.toModel.unpack y.toModel.unpack =
      (Float.ofNat n).toModel.unpack) : x + y = Float.ofNat n := by
  refine decode_injective ?_ (decode_ofNat hn hlt)
  show decode (.ofModel (.pack (UnpackedFloat.add Format.binary64 x.toModel.unpack y.toModel.unpack))) = _
  rw [h, unpack_ofNat hn hlt]
  exact decode_pack _ (canonical_whole hn hlt .positive)

theorem ofNat_add (h : m + n < 2 ^ 53) : Float.ofNat m + Float.ofNat n = Float.ofNat (m + n) := by
  rcases Nat.eq_zero_or_pos m with rfl | hm
  · rcases Nat.eq_zero_or_pos n with rfl | hn
    · decide +kernel
    · rw [Nat.zero_add] at h ⊢
      exact add_eq_ofNat hn h (by rw [unpack_zero, unpack_ofNat hn h]; rfl)
  rcases Nat.eq_zero_or_pos n with rfl | hn
  · rw [Nat.add_zero] at h ⊢
    exact add_eq_ofNat hm h (by rw [unpack_zero, unpack_ofNat hm h]; rfl)
  -- Both mantissas are brought to the exponent of the smaller number, where their sum is exact.
  have hmlt : m < 2 ^ 53 := by omega
  have hnlt : n < 2 ^ 53 := by omega
  have hsum : 0 < m + n := by omega
  have hmlog : m.log2 ≤ (m + n).log2 := 
    (Nat.le_log2 hsum.ne').2 ((Nat.log2_self_le hm.ne').trans (Nat.le_add_right m n))
  obtain ⟨k, hk⟩ : ∃ k, k = max (52 - m.log2) (52 - n.log2) := ⟨_, rfl⟩
  have hexponent : min (-((52 - m.log2 : Nat) : Int)) (-((52 - n.log2 : Nat) : Int)) = -(k : Int) := by omega
  apply add_eq_ofNat hsum h
  rw [unpack_ofNat hm hmlt, unpack_ofNat hn hnlt, unpack_ofNat hsum h, UnpackedFloat.add]
  dsimp only
  rw [hexponent, decreaseExponent_whole (by omega), decreaseExponent_whole (by omega)]
  show UnpackedFloat.normalize Format.binary64 (((m * 2 ^ k : Nat) : Int) + ((n * 2 ^ k : Nat) : Int))
    (-(k : Int)) .positive = _
  rw [← Int.natCast_add, ← Nat.add_mul, UnpackedFloat.normalize,
    compare_gt_iff_gt.2 (Int.natCast_pos.2 (Nat.mul_pos hsum (Nat.two_pow_pos k)))]
  exact round_scaled hsum h (by omega) (by omega)

theorem foldl_add_ofNat {α : Type} (f : α → Nat) (l : List α) (h : n + (l.map f).sum < 2 ^ 53) :
    l.foldl (fun x a => x + Float.ofNat (f a)) (Float.ofNat n) = Float.ofNat (n + (l.map f).sum) := by
  induction l generalizing n with
  | nil => simp
  | cons a l ih =>
    rw [List.map_cons, List.sum_cons, ← Nat.add_assoc] at h ⊢
    rw [List.foldl_cons, ofNat_add (by omega), ih h]

end sums

/-! ### Texts -/

theorem natText_injective : Function.Injective natText := by
  intro m n h
  have hdigits : digitChars m = digitChars n := String.ofList_injective h
  rw [← Nat.ofDigitChars_ten_toDigits (n := m), ← Nat.ofDigitChars_ten_toDigits (n := n)]
  exact congrArg (Nat.ofDigitChars 10 · 0) hdigits

theorem natText_append_inj {m n : Nat} {s t : String} (hs : Text.StartsOutside Char.isDigit s)
    (ht : Text.StartsOutside Char.isDigit t) (h : natText m ++ s = natText n ++ t) : m = n ∧ s = t := by
  have hdigits : ∀ n, ∀ c ∈ (natText n).toList, c.isDigit = true := by
    intro n c hc
    rw [natText, String.toList_ofList] at hc
    exact isDigit_of_mem_digitChars hc
  obtain ⟨hsame, hrest⟩ := hs.append_inj ht (hdigits m) (hdigits n) h
  exact ⟨natText_injective hsame, hrest⟩

theorem digitChars_mul_ten_pow {c : Nat} (hc : 0 < c) (u : Nat) :
    digitChars (c * 10 ^ u) = digitChars c ++ zeros u := by
  induction u with
  | zero => simp [zeros]
  | succ u ih =>
    have hpos : 0 < c * 10 ^ u := Nat.mul_pos hc (Nat.pow_pos (by decide))
    have hnext : c * 10 ^ (u + 1) = 10 * (c * 10 ^ u) + 0 := by ring
    have hzero : Nat.toDigits 10 0 = ['0'] := rfl
    unfold digitChars at ih ⊢
    rw [hnext, ← Nat.toDigits_append_toDigits (by decide) hpos (by decide), ih, hzero, List.append_assoc,
      zeros, zeros, List.replicate_succ']

end MemoryCompiler.Decimal
