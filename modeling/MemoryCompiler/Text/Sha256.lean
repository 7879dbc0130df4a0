import MemoryCompiler.Text.Quoted

/-!
# SHA-256

The digest of a byte sequence: padding to blocks of 64 bytes, a schedule of 64 words a block and
64 rounds over eight registers. `hexDigest` writes the digest of a text as 64 hexadecimal digits.
-/

namespace MemoryCompiler.Text

namespace Sha256

-- Powers are those of the core library, also where another instance is in scope.
attribute [local instance (high)] instPowNat

/-- The fractional parts of the cube roots of the first 64 primes. -/
def roundConstants : Array UInt32 := #[
  0x428a2f98, 0x71374491, 0xb5c0fbcf, 0xe9b5dba5, 0x3956c25b, 0x59f111f1, 0x923f82a4, 0xab1c5ed5,
  0xd807aa98, 0x12835b01, 0x243185be, 0x550c7dc3, 0x72be5d74, 0x80deb1fe, 0x9bdc06a7, 0xc19bf174,
  0xe49b69c1, 0xefbe4786, 0x0fc19dc6, 0x240ca1cc, 0x2de92c6f, 0x4a7484aa, 0x5cb0a9dc, 0x76f988da,
  0x983e5152, 0xa831c66d, 0xb00327c8, 0xbf597fc7, 0xc6e00bf3, 0xd5a79147, 0x06ca6351, 0x14292967,
  0x27b70a85, 0x2e1b2138, 0x4d2c6dfc, 0x53380d13, 0x650a7354, 0x766a0abb, 0x81c2c92e, 0x92722c85,
  0xa2bfe8a1, 0xa81a664b, 0xc24b8b70, 0xc76c51a3, 0xd192e819, 0xd6990624, 0xf40e3585, 0x106aa070,
  0x19a4c116, 0x1e376c08, 0x2748774c, 0x34b0bcb5, 0x391c0cb3, 0x4ed8aa4a, 0x5b9cca4f, 0x682e6ff3,
  0x748f82ee, 0x78a5636f, 0x84c87814, 0x8cc70208, 0x90befffa, 0xa4506ceb, 0xbef9a3f7, 0xc67178f2]

structure Registers where
  a : UInt32
  b : UInt32
  c : UInt32
  d : UInt32
  e : UInt32
  f : UInt32
  g : UInt32
  h : UInt32

/-- The fractional parts of the square roots of the first eight primes. -/
def initial : Registers :=
  ⟨0x6a09e667, 0xbb67ae85, 0x3c6ef372, 0xa54ff53a, 0x510e527f, 0x9b05688c, 0x1f83d9ab, 0x5be0cd19⟩

def rotate (x : UInt32) (n : UInt32) : UInt32 := (x >>> n) ||| (x <<< (32 - n))

/-- The bytes of a text, a one bit, zeros up to 56 modulo 64 and the bit length in 8 bytes. -/
def padded (message : List UInt8) : List UInt8 :=
  let n := message.length
  let bits := 8 * n
  let filler := (119 - n % 64) % 64
  let size := (List.range 8).map fun i => UInt8.ofNat (bits / 256 ^ (7 - i))
  message ++ 0x80 :: List.replicate filler 0 ++ size

/-- Four bytes as a word, the first byte highest. -/
def wordOf (a b c d : UInt8) : UInt32 :=
  (a.toUInt32 <<< 24) ||| (b.toUInt32 <<< 16) ||| (c.toUInt32 <<< 8) ||| d.toUInt32

def words : List UInt8 → List UInt32
  | a :: b :: c :: d :: rest => wordOf a b c d :: words rest
  | _ => []

/-- Extends the 16 words of a block by one word after the other. -/
def schedule : Nat → Array UInt32 → Array UInt32
  | 0, w => w
  | n + 1, w =>
    let back (n : Nat) : UInt32 := w.getD (w.size - n) 0
    let x := back 15
    let y := back 2
    let s0 := rotate x 7 ^^^ rotate x 18 ^^^ (x >>> 3)
    let s1 := rotate y 17 ^^^ rotate y 19 ^^^ (y >>> 10)
    schedule n (w.push (back 16 + s0 + back 7 + s1))

/-- One round with a constant and a word of the schedule. -/
def step (r : Registers) (k w : UInt32) : Registers :=
  let s1 := rotate r.e 6 ^^^ rotate r.e 11 ^^^ rotate r.e 25
  let choice := (r.e &&& r.f) ^^^ (~~~r.e &&& r.g)
  let t1 := r.h + s1 + choice + k + w
  let s0 := rotate r.a 2 ^^^ rotate r.a 13 ^^^ rotate r.a 22
  let majority := (r.a &&& r.b) ^^^ (r.a &&& r.c) ^^^ (r.b &&& r.c)
  ⟨t1 + (s0 + majority), r.a, r.b, r.c, r.d + t1, r.e, r.f, r.g⟩

/-- Works one block into the registers. -/
def block (r : Registers) (ws : List UInt32) : Registers :=
  let w := schedule 48 ws.toArray
  let s := (List.range 64).foldl (fun s i => step s (roundConstants.getD i 0) (w.getD i 0)) r
  ⟨r.a + s.a, r.b + s.b, r.c + s.c, r.d + s.d, r.e + s.e, r.f + s.f, r.g + s.g, r.h + s.h⟩

/-- Works `n` blocks of 16 words into the registers. -/
def blocks : Nat → Registers → List UInt32 → Registers
  | 0, r, _ => r
  | n + 1, r, ws => blocks n (block r (ws.take 16)) (ws.drop 16)

/-- The digest as eight words. -/
def digest (message : List UInt8) : List UInt32 :=
  let ws := words (padded message)
  let r := blocks (ws.length / 16) initial ws
  [r.a, r.b, r.c, r.d, r.e, r.f, r.g, r.h]

end Sha256

/-- The digest of the UTF-8 bytes of a text, in hexadecimal. -/
def hexDigest (s : String) : String :=
  String.ofList ((Sha256.digest s.toUTF8.toList).flatMap fun w => hexChars 8 w.toNat)

end MemoryCompiler.Text
