import MemoryCompiler.Decimal.Binary64
import MemoryCompiler.Search

/-!
# Number of check bits

A Hamming code with `r` check bits numbers its bits from 1 to `2 ^ r - 1`, so `r` check bits serve
a word of `w` bits when `w + r + 1 ≤ 2 ^ r`. The sum is taken in double precision: it is exact
below `2 ^ 53`, and above it is the nearest double.
-/

namespace MemoryCompiler.Ecc

-- Powers are those of the core library, also where another instance is in scope.
attribute [local instance (high)] instPowNat

/-- `width + r + 1`, added from the left in double precision. -/
def positionsNeeded (width r : Nat) : Nat :=
  Decimal.roundNat (Decimal.roundNat (width + r) + 1)

/-- Whether `r` check bits are enough, by the rounded sum. -/
def enoughBits (width r : Nat) : Bool := positionsNeeded width r ≤ 2 ^ r

/-- The number of Hamming check bits for a word, searched from one on; the search never goes further than
its fuel. -/
def hammingBits (width : Int) : Nat :=
  leastFrom (enoughBits width.toNat) (Nat.log2 width.toNat + 3) 1

/-- The Hamming check bits and the overall parity bit. -/
def checkBits (width : Int) : Nat := hammingBits width + 1

end MemoryCompiler.Ecc
