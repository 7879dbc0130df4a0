import MemoryCompiler.Ecc.Bits

/-!
# Layout of the code

An extended Hamming code for words of a given width. Data bit `j` sits at the `j`-th position that
is no power of two, counted from 1; check bit `i` covers the data bits whose position has bit `i`
set. From the lowest bit up a code word holds the data bits, the check bits and one overall parity
bit. A width of zero or less has no data bits at all, but keeps one check bit.
-/

namespace MemoryCompiler.Ecc

-- Powers are those of the core library, also where another instance is in scope.
attribute [local instance (high)] instPowNat

/-- Where the bits of a code word lie and which of them each check bit covers. -/
structure Layout where
  /-- The width of a data word. -/
  dataBits : Int
  /-- The check bits without the overall parity bit. -/
  hammingBits : Nat
  /-- The position of each data bit. -/
  positions : List Nat
  /-- The data bits that each check bit covers. -/
  coverage : List (List Nat)
deriving DecidableEq, Repr

def isPowerOfTwo (n : Nat) : Bool := n == 2 ^ Nat.log2 n

/-- The first `count` positions that are no power of two, looked for up to `limit`. -/
def dataPositions (count limit : Nat) : List Nat :=
  ((List.range' 1 limit).filter fun p => !isPowerOfTwo p).take count

/-- The indices of the positions that have bit `i` set. -/
def coveredBy (positions : List Nat) (i : Nat) : List Nat :=
  (positions.zipIdx.filter fun p => p.1.testBit i).map Prod.snd

namespace Layout

/-- The layout for a word width. At most `hammingBits` of the first `width + hammingBits`
positions are powers of two, so there are enough data positions among them. -/
def ofWidth (width : Int) : Layout :=
  let r := Ecc.hammingBits width
  let positions := dataPositions width.toNat (width.toNat + r)
  { dataBits := width
    hammingBits := r
    positions := positions
    coverage := (List.range r).map (coveredBy positions) }

/-- The check bits with the overall parity bit. -/
def checkBits (l : Layout) : Nat := l.hammingBits + 1

def codeBits (l : Layout) : Int := l.dataBits + l.hammingBits + 1

end Layout

end MemoryCompiler.Ecc
