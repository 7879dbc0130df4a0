import Mathlib.Tactic
import MemoryCompiler.Ecc.Bits

/-!
# The least number of check bits

`r` check bits serve a word of `w` bits when `w + r + 1 ≤ 2 ^ r`. As long as the sums are exact in
double precision, `hammingBits` is the least positive number of check bits that serves
(`hammingBits_least`).
-/

namespace MemoryCompiler.Ecc

/-- `r` check bits are enough for a word of `w` bits. -/
def Serves (w r : Nat) : Prop := w + r + 1 ≤ 2 ^ r

theorem positionsNeeded_eq {w r : Nat} (h : w + r + 1 < 2 ^ 53) :
    positionsNeeded w r = w + r + 1 := by
  rw [positionsNeeded, Decimal.roundNat_of_lt (by omega : w + r < 2 ^ 53),
    Decimal.roundNat_of_lt h]

/-! ### The search -/

theorem hammingBits_search {w m : Nat} (hone : 1 ≤ m) (hm : m ≤ w.log2 + 3)
    (hfit : positionsNeeded w m ≤ 2 ^ m) :
    positionsNeeded w (hammingBits w) ≤ 2 ^ hammingBits w ∧ 1 ≤ hammingBits w ∧ hammingBits w ≤ m ∧
      ∀ k, 1 ≤ k → k < hammingBits w → 2 ^ k < positionsNeeded w k := by
  have hfuel : m ≤ 1 + (w.log2 + 3) := by omega
  have henough : enoughBits w m = true := decide_eq_true hfit
  obtain ⟨hfits, hfrom, hle, hbelow⟩ := leastFrom_spec hone hfuel henough
  exact ⟨of_decide_eq_true hfits, hfrom, hle, fun k hk hlt => not_le.1 (of_decide_eq_false (hbelow k hk hlt))⟩

theorem serves_log2_add_three (w : Nat) : Serves w (Nat.log2 w + 3) := by
  have hw : w < 2 ^ (Nat.log2 w + 1) := Nat.lt_log2_self
  have hl : Nat.log2 w < 2 ^ Nat.log2 w := Nat.lt_two_pow_self
  rw [Serves]
  rw [pow_succ] at hw
  rw [pow_add]
  omega

section exact

variable {w : Nat}

theorem log2_le_of_lt (hw : w < 2 ^ 52) : Nat.log2 w ≤ 51 := by
  by_cases h0 : w = 0
  · subst h0
    decide
  · have := (Nat.log2_lt h0).2 hw
    omega

theorem hammingBits_least (hw : w < 2 ^ 52) :
    Serves w (hammingBits w) ∧ 1 ≤ hammingBits w ∧
      ∀ k, 1 ≤ k → k < hammingBits w → ¬ Serves w k := by
  have hlog := log2_le_of_lt hw
  have hexact : ∀ k, k ≤ Nat.log2 w + 3 → positionsNeeded w k = w + k + 1 := fun k hk =>
    positionsNeeded_eq (by omega)
  have hthree := serves_log2_add_three w
  have hfit : positionsNeeded w (Nat.log2 w + 3) ≤ 2 ^ (Nat.log2 w + 3) := by
    rw [hexact _ (le_refl _)]
    exact hthree
  obtain ⟨hfits, hone, hle, hbelow⟩ :=
    hammingBits_search (by omega) (le_refl _) hfit
  refine ⟨?_, hone, fun k hk hlt => ?_⟩
  · rw [hexact _ hle] at hfits
    exact hfits
  · have := hbelow k hk hlt
    rw [hexact k (le_trans (Nat.le_of_lt hlt) hle)] at this
    rw [Serves]
    omega

theorem serves_hammingBits (hw : w < 2 ^ 52) : w + hammingBits w + 1 ≤ 2 ^ hammingBits w :=
  (hammingBits_least hw).1

theorem two_le_hammingBits (hpos : 1 ≤ w) (hw : w < 2 ^ 52) : 2 ≤ hammingBits w := by
  obtain ⟨hfits, hone, -⟩ := hammingBits_least hw
  rw [Serves] at hfits
  by_contra hlt
  have he : hammingBits w = 1 := by omega
  rw [he] at hfits
  omega

/-- One check bit fewer does not serve: the highest power of two is a position in use. -/
theorem two_pow_lt_positions (hpos : 1 ≤ w) (hw : w < 2 ^ 52) :
    2 ^ (hammingBits w - 1) < w + hammingBits w := by
  have htwo := two_le_hammingBits hpos hw
  have hshort := (hammingBits_least hw).2.2 (hammingBits w - 1) (by omega) (by omega)
  rw [Serves] at hshort
  omega

end exact

end MemoryCompiler.Ecc
