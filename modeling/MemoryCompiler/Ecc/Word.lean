import MemoryCompiler.Ecc.Layout

/-!
# Code words

Words are integers in two's complement without a limit of size, cut to the bits that a layout has.
`Layout.encode` adds check bits and parity; `Layout.decode` recomputes them. One wrong bit makes
the overall parity odd and is corrected; two wrong bits keep it even and leave a syndrome.
-/

namespace MemoryCompiler.Ecc

-- Powers are those of the core library, also where another instance is in scope.
attribute [local instance (high)] instPowNat

/-! ## Bits of an integer -/

/-- Bit `i` of an integer in two's complement. -/
def bit (x : Int) (i : Nat) : Bool := x / 2 ^ i % 2 == 1

/-- Moves an integer up by `k` bits, or down if `k` is negative. -/
def shift (x k : Int) : Int := if 0 ≤ k then x * 2 ^ k.toNat else x / 2 ^ (-k).toNat

/-- The lowest `n` bits; a negative count cuts nothing. -/
def lowBits (n x : Int) : Int := if n < 0 then x else x % 2 ^ n.toNat

def toggle (x : Int) (i : Nat) : Int := if bit x i then x - 2 ^ i else x + 2 ^ i

/-- Sets bit `k` if `b` holds; there are no bits below bit zero. -/
def setBit (x k : Int) (b : Bool) : Int :=
  if b && decide (0 ≤ k) && !bit x k.toNat then x + 2 ^ k.toNat else x

/-- Whether a positive integer has an odd number of ones; others count as having none. -/
def parity (x : Int) : Bool :=
  (List.range (Nat.log2 x.toNat + 1)).foldl (fun p i => p != x.toNat.testBit i) false

/-! ## Check bits -/

def coverParity (data : Int) (covered : List Nat) : Bool :=
  covered.foldl (fun p j => p != bit data j) false

/-- The number whose bit `i` is the `i`-th entry. -/
def ofBits : List Bool → Nat
  | [] => 0
  | b :: bs => b.toNat + 2 * ofBits bs

namespace Layout

/-- The check bits of a data word. -/
def check (l : Layout) (data : Int) : Nat := ofBits (l.coverage.map (coverParity data))

/-- The code word of a data word. -/
def encode (l : Layout) (data : Int) : Int :=
  let d := lowBits l.dataBits data
  let body := d + shift (l.check d) l.dataBits
  setBit body (l.dataBits + l.hammingBits) (parity body)

end Layout

/-- What is known about a received word. -/
structure Decoded where
  /-- The data, corrected if a wrong bit was found. -/
  data : Int
  /-- The position of a single wrong bit among data and check bits; zero if the check bits fit. -/
  syndrome : Nat
  /-- The parity is odd: one bit is wrong and has been put right. -/
  correctable : Bool
  /-- The parity is even, but the check bits do not fit. -/
  uncorrectable : Bool
deriving DecidableEq, Repr

namespace Layout

/-- The data after a correction at a position; a check bit or the parity bit needs none. -/
def correct (l : Layout) (data : Int) (syndrome : Nat) : Int :=
  match l.positions.idxOf? syndrome with
  | some j => toggle data j
  | none => data

/-- Reads a received word. -/
def decode (l : Layout) (code : Int) : Decoded :=
  let word := lowBits l.codeBits code
  let data := lowBits l.dataBits word
  let stored := (lowBits l.hammingBits (shift word (-l.dataBits))).toNat
  let syndrome := stored ^^^ l.check data
  let odd := parity word
  { data := if odd then l.correct data syndrome else data
    syndrome := syndrome
    correctable := odd
    uncorrectable := !odd && syndrome != 0 }

end Layout

end MemoryCompiler.Ecc
