/-!
# Searches

`leastFrom enough fuel n` tries the numbers from `n` on and ends at the first that is enough. If one of
the numbers that it may try is enough, it finds the least of these (`leastFrom_spec`).
-/

namespace MemoryCompiler

/-- Tries `n`, `n + 1`, …, `fuel` of them, and ends at the first that is enough. -/
def leastFrom (enough : Nat → Bool) : Nat → Nat → Nat
  | 0, n => n
  | fuel + 1, n => if enough n then n else leastFrom enough fuel (n + 1)

theorem leastFrom_spec {enough : Nat → Bool} {fuel n m : Nat} (hnm : n ≤ m) (hfuel : m ≤ n + fuel)
    (hm : enough m = true) :
    enough (leastFrom enough fuel n) = true ∧ n ≤ leastFrom enough fuel n ∧ leastFrom enough fuel n ≤ m ∧
      ∀ k, n ≤ k → k < leastFrom enough fuel n → enough k = false := by
  induction fuel generalizing n with
  | zero =>
    obtain rfl : m = n := Nat.le_antisymm hfuel hnm
    exact ⟨hm, Nat.le_refl m, Nat.le_refl m, fun k hk hlt => absurd hk (Nat.not_le_of_lt hlt)⟩
  | succ fuel ih =>
    rw [leastFrom]
    by_cases hn : enough n = true
    · rw [if_pos hn]
      exact ⟨hn, Nat.le_refl n, hnm, fun k hk hlt => absurd hk (Nat.not_le_of_lt hlt)⟩
    · rw [if_neg hn]
      have hne : n ≠ m := fun he => hn (he ▸ hm)
      obtain ⟨henough, hle, hleast, hbelow⟩ := ih (n := n + 1) (by omega) (by omega)
      refine ⟨henough, by omega, hleast, fun k hk hlt => ?_⟩
      rcases Nat.eq_or_lt_of_le hk with rfl | hgt
      · exact Bool.eq_false_iff.2 hn
      · exact hbelow k hgt hlt

end MemoryCompiler
