import Mathlib.Order.Bounds.Basic
import MemoryCompiler.Proofs.Decimal.Sums
import MemoryCompiler.Proofs.Ecc.CheckBits

/-!
# The search for the check bits in double precision

The search adds in double precision, where from `2 ^ 53` on only the even numbers are left. Its test is
right for every width below `2 ^ 53` and every number of check bits, with two exceptions: 53 check bits
seem enough for `2 ^ 53 - 53` and `2 ^ 53 - 52` bits, where the sum is rounded down to `2 ^ 53`
(`positionsNeeded_le_iff`). So the search finds the least number for all other widths, and for these two
it ends one too early (`hammingBits_least_unless_rounded`).
-/

namespace MemoryCompiler.Ecc

open Decimal

/-! ### Sums next to `2 ^ 53` -/

/-- From `2 ^ 53` to `2 ^ 54` the doubles are the even numbers, and a tie goes to a multiple of four. -/
theorem roundNat_of_lt_two_pow_54 {q : Nat} (h : q < 2 ^ 54) :
    roundNat q = if q < 2 ^ 53 then q else 2 * ((q + q / 2 % 2) / 2) := by
  split_ifs with hexact
  · exact roundNat_of_lt hexact
  · have hlog : q.log2 = 53 := (Nat.log2_eq_iff (by omega)).2 ⟨by omega, h⟩
    have hunit : 2 ^ (53 - 52) = 2 := rfl
    obtain ⟨c, hnearest, hround, -⟩ := exists_isNearest q
    rw [hlog, hunit] at hnearest hround
    obtain ⟨hle, hge, heven⟩ := hnearest
    have htie := imp_iff_not_or.1 heven
    rw [hround]
    rcases Nat.mod_two_eq_zero_or_one (q / 2) with hbit | hbit
    · rw [hbit]
      omega
    · rw [hbit]
      omega

/-- The widths for which the sum with 53 check bits is rounded down to `2 ^ 53`. -/
def RoundedDown (w : Nat) : Prop := w = 2 ^ 53 - 53 ∨ w = 2 ^ 53 - 52

section search

variable {w r : Nat}

/-- The test in double precision, for all numbers of check bits that the search comes to. -/
theorem positionsNeeded_le_iff (hw : w < 2 ^ 53) (hr : r ≤ 54) :
    positionsNeeded w r ≤ 2 ^ r ↔ Serves w r ∨ r = 53 ∧ RoundedDown w := by
  have hsum := roundNat_of_lt_two_pow_54 (q := w + r) (by omega)
  have hnext : roundNat (w + r) + 1 < 2 ^ 54 := by
    rw [hsum]
    split_ifs <;> omega
  rw [positionsNeeded, Serves, RoundedDown, roundNat_of_lt_two_pow_54 hnext, hsum]
  by_cases hsmall : r ≤ 52
  · have hpow : 2 ^ r ≤ 2 ^ 52 := Nat.pow_le_pow_right (by decide) hsmall
    generalize 2 ^ r = p at hpow
    split_ifs <;> omega
  · obtain rfl | rfl : r = 53 ∨ r = 54 := by omega
    · split_ifs <;> omega
    · split_ifs <;> omega

theorem hammingBits_search_of_lt (hw : w < 2 ^ 53) : 1 ≤ hammingBits w ∧ hammingBits w ≤ 54 ∧
    positionsNeeded w (hammingBits w) ≤ 2 ^ hammingBits w ∧
      ∀ r, 1 ≤ r → r < hammingBits w → 2 ^ r < positionsNeeded w r := by
  have hlog : w.log2 ≤ 52 := by
    by_cases hzero : w = 0
    · rw [hzero]
      decide
    · exact Nat.le_of_lt_succ ((Nat.log2_lt hzero).2 hw)
  have hserves : Serves w (w.log2 + 2) := by
    have hlt : w < 2 ^ (w.log2 + 1) := Nat.lt_log2_self
    have hself : w.log2 + 1 < 2 ^ (w.log2 + 1) := Nat.lt_two_pow_self
    rw [Serves, Nat.pow_succ 2 (w.log2 + 1)]
    omega
  obtain ⟨hfits, hone, hle, hbelow⟩ := hammingBits_search (m := w.log2 + 2)
    (by omega) (by omega) ((positionsNeeded_le_iff hw (by omega)).2 (.inl hserves))
  exact ⟨hone, hle.trans (by omega), hfits, hbelow⟩

/-- A wider word never gets fewer check bits, rounded sums included. -/
theorem checkBits_mono {w' : Nat} (h : w ≤ w') (hw' : w' < 2 ^ 53) : checkBits w ≤ checkBits w' := by
  have hw : w < 2 ^ 53 := by omega
  obtain ⟨-, -, -, hbelow⟩ := hammingBits_search_of_lt hw
  obtain ⟨hone, hle, hfits, -⟩ := hammingBits_search_of_lt hw'
  have hfit : positionsNeeded w (hammingBits w') ≤ 2 ^ hammingBits w' := by
    rw [positionsNeeded_le_iff hw hle]
    rcases (positionsNeeded_le_iff hw' hle).1 hfits with hserves | ⟨heq, hround⟩
    · left
      rw [Serves] at hserves ⊢
      omega
    · rw [heq, Serves, RoundedDown]
      rw [RoundedDown] at hround
      omega
  apply Nat.succ_le_succ
  by_contra hlt
  have hshort := hbelow _ hone (not_le.1 hlt)
  omega

/-! ### The test on doubles -/

theorem wholeValue_two_pow (hr : r ≤ 54) : wholeValue (Float.ofNat (2 ^ r)) = some ((2 ^ r : Nat) : Int) := by
  by_cases hsmall : r < 53
  · exact (wholeValue_eq_some_iff (Nat.two_pow_pos r) (Nat.pow_lt_pow_right (by decide) hsmall)).2 rfl
  · obtain rfl | rfl : r = 53 ∨ r = 54 := by omega
    · decide +kernel
    · decide +kernel

theorem wholeValue_sum (hpos : 1 ≤ w) (hw : w < 2 ^ 53) (hone : 1 ≤ r) (hr : r ≤ 54) :
    wholeValue (Float.ofNat w + Float.ofNat r + 1) = some (positionsNeeded w r : Int) := by
  have hfirst := wholeValue_add (m := w) (n := r) (by omega) (by omega)
    ((wholeValue_eq_some_iff hpos hw).2 rfl) ((wholeValue_eq_some_iff hone (by omega)).2 rfl)
    (((Nat.log2_lt (by omega)).2 (by omega : w + r < 2 ^ 54)).trans (by decide))
  have hsum := roundNat_of_lt_two_pow_54 (q := w + r) (by omega)
  have hbounds : 0 < roundNat (w + r) ∧ roundNat (w + r) + 1 < 2 ^ 54 := by
    rw [hsum]
    split_ifs <;> omega
  exact wholeValue_add hbounds.1 Nat.one_pos hfirst
    ((wholeValue_eq_some_iff Nat.one_pos (by decide)).2 rfl)
    (((Nat.log2_lt (by omega)).2 hbounds.2).trans (by decide))

theorem two_pow_lt_sum_iff (hpos : 1 ≤ w) (hw : w < 2 ^ 53) (hone : 1 ≤ r) (hr : r ≤ 54) :
    Float.ofNat (2 ^ r) < Float.ofNat w + Float.ofNat r + 1 ↔ 2 ^ r < positionsNeeded w r :=
  lt_iff_of_wholeValue (wholeValue_two_pow hr) (wholeValue_sum hpos hw hone hr)

/-! ### The least number -/

theorem isLeast_hammingBits (hw : w < 2 ^ 53) (hround : ¬ RoundedDown w) :
    IsLeast {r | 1 ≤ r ∧ Serves w r} (hammingBits w) := by
  obtain ⟨hone, hle, hfits, hbelow⟩ := hammingBits_search_of_lt hw
  have hserves := ((positionsNeeded_le_iff hw hle).1 hfits).resolve_right fun h => hround h.2
  refine ⟨⟨hone, hserves⟩, fun r hr => ?_⟩
  by_contra hlt
  have hshort := hbelow r hr.1 (Nat.not_le.1 hlt)
  have hfit := (positionsNeeded_le_iff hw (by omega)).2 (.inl hr.2)
  omega

/-- For the two widths that are rounded down the search stops at 53. -/
theorem hammingBits_of_roundedDown (hround : RoundedDown w) : hammingBits w = 53 := by
  rcases hround with rfl | rfl
  · decide +kernel
  · decide +kernel

theorem isLeast_of_roundedDown (hround : RoundedDown w) :
    IsLeast {r | 1 ≤ r ∧ Serves w r} (hammingBits w + 1) := by
  rw [hammingBits_of_roundedDown hround]
  rw [RoundedDown] at hround
  refine ⟨⟨by decide, ?_⟩, fun r hr => ?_⟩
  · rw [Serves]
    omega
  · by_contra hlt
    have hserves : w + r + 1 ≤ 2 ^ r := hr.2
    by_cases hsmall : r ≤ 52
    · have hpow : 2 ^ r ≤ 2 ^ 52 := Nat.pow_le_pow_right (by decide) hsmall
      omega
    · obtain rfl : r = 53 := by omega
      omega

end search

/-- **The check bits of every width that a double counts exactly.** The search in double precision ends by
its own test, after the first number of check bits that passes it, and finds the least positive number
that serves, except for two widths, where it finds one less. -/
theorem hammingBits_least_unless_rounded (w : Nat) (hpos : 1 ≤ w) (hlt : w < 2 ^ 53) :
    (1 ≤ hammingBits w ∧
      (∀ r, 1 ≤ r → r < hammingBits w → Float.ofNat (2 ^ r) < Float.ofNat w + Float.ofNat r + 1) ∧
      ¬ Float.ofNat (2 ^ hammingBits w) < Float.ofNat w + Float.ofNat (hammingBits w) + 1) ∧
    (IsLeast {r | 1 ≤ r ∧ Serves w r} (hammingBits w) ↔ w ≠ 2 ^ 53 - 53 ∧ w ≠ 2 ^ 53 - 52) ∧
    (w = 2 ^ 53 - 53 ∨ w = 2 ^ 53 - 52 → IsLeast {r | 1 ≤ r ∧ Serves w r} (hammingBits w + 1)) ∧
    checkBits w = hammingBits w + 1 := by
  obtain ⟨hone, hle, hfits, hbelow⟩ := hammingBits_search_of_lt hlt
  refine ⟨⟨hone, fun r hr hbefore => ?_, ?_⟩, ⟨fun hleast => ?_, fun hexact => ?_⟩,
    isLeast_of_roundedDown, rfl⟩
  · exact (two_pow_lt_sum_iff hpos hlt hr (by omega)).2 (hbelow r hr hbefore)
  · rw [two_pow_lt_sum_iff hpos hlt hone hle]
    omega
  · -- Two least numbers of one set are equal.
    rw [← not_or]
    intro hround
    have hsame := hleast.unique (isLeast_of_roundedDown hround)
    omega
  · rw [← not_or] at hexact
    exact isLeast_hammingBits hlt hexact

theorem hammingBits_least_unless_rounded_before : 1 ≤ 9007199254740938 ∧ 9007199254740938 < 2 ^ 53 ∧
    IsLeast {r | 1 ≤ r ∧ Serves 9007199254740938 r} (hammingBits 9007199254740938) :=
  ⟨by decide, by decide,
    (hammingBits_least_unless_rounded 9007199254740938 (by decide) (by decide)).2.1.2 (by decide)⟩

/-- The first width for which the search ends too early. -/
theorem hammingBits_not_least :
    ¬ IsLeast {r | 1 ≤ r ∧ Serves 9007199254740939 r} (hammingBits 9007199254740939) := by
  intro h
  have hserves : Serves 9007199254740939 53 := h.1.2
  rw [Serves] at hserves
  omega

end MemoryCompiler.Ecc
