/-!
# Numbers of the estimates

The formulas of the estimates are written once over a type of numbers with the four operations,
decimal constants, whole numbers and square roots. Doubles run them; the order of the operations
is part of the result there, because every operation rounds.
-/

namespace MemoryCompiler

/-- Whole numbers and square roots in a type of numbers. -/
class Scalar (α : Type) where
  ofCount : Nat → α
  root : α → α

instance : Scalar Float where
  ofCount := Float.ofNat
  root := Float.sqrt

end MemoryCompiler
