/-!
# Binary64 numbers as dyadic rationals

A finite double is `± m · 2 ^ e` with a mantissa below `2 ^ 53`. `decode` reads the three fields
of its bits; everything that prints or compares a double exactly starts from here.
-/

namespace MemoryCompiler.Decimal

-- Powers are those of the core library, also where another instance is in scope.
attribute [local instance (high)] instPowNat

/-- The value `± mantissa · 2 ^ exponent`. -/
structure Dyadic where
  negative : Bool
  mantissa : Nat
  exponent : Int
deriving DecidableEq, Repr

/-- The number of mantissa bits of a double, the leading one included. -/
def mantissaBits : Nat := 53

def leastExponent : Int := -1074

/-- Reads a double; infinities and NaN have no value. -/
def decode (x : Float) : Option Dyadic :=
  let bits : Nat := x.toBits.toNat
  let fraction : Nat := bits % 2 ^ (52 : Nat)
  let biased : Nat := bits / 2 ^ (52 : Nat) % 2 ^ (11 : Nat)
  let negative := decide (2 ^ (63 : Nat) ≤ bits)
  if biased = 2047 then none
  else if biased = 0 then some ⟨negative, fraction, leastExponent⟩
  else some ⟨negative, fraction + 2 ^ (52 : Nat), (biased : Int) - 1075⟩

/-- The bits of a double carry a minus sign, as those of negative zero do. -/
def isNegative (x : Float) : Bool := decide (2 ^ (63 : Nat) ≤ x.toBits.toNat)

def isNegativeZero (x : Float) : Bool := x == 0 && isNegative x

/-- Numerator and denominator of `mantissa · 2 ^ exponent`, the sign left out. -/
def Dyadic.magnitude (d : Dyadic) : Nat × Nat :=
  if 0 ≤ d.exponent then (d.mantissa * 2 ^ d.exponent.toNat, 1)
  else (d.mantissa, 2 ^ (-d.exponent).toNat)

/-- The whole number a double stands for, if it stands for one. -/
def wholeValue (x : Float) : Option Int := do
  let d ← decode x
  let (num, den) := d.magnitude
  if num % den = 0 then
    let n : Int := (num / den : Nat)
    some (if d.negative then -n else n)
  else none

/-- The largest whole number below which every whole number is a double: `2 ^ 53 - 1`. -/
def safeLimit : Nat := 9007199254740991

/-- The nearest natural number with at most 53 significant bits, a tie going to the even
mantissa: what a sum of whole doubles keeps of `n`. -/
def roundNat (n : Nat) : Nat :=
  let extra := (Nat.log2 n + 1) - mantissaBits
  let unit := 2 ^ extra
  let q := n / unit
  let r := n % unit
  if unit < 2 * r ∨ (2 * r = unit ∧ q % 2 = 1 ∧ extra ≠ 0) then (q + 1) * unit else q * unit

theorem roundNat_of_lt {n : Nat} (h : n < 2 ^ (53 : Nat)) : roundNat n = n := by
  have hl : Nat.log2 n < 53 := by
    by_cases h0 : n = 0
    · subst h0; decide
    · exact (Nat.log2_lt h0).2 h
  have he : Nat.log2 n + 1 - mantissaBits = 0 := by simp only [mantissaBits]; omega
  simp [roundNat, he, Nat.mod_one]

end MemoryCompiler.Decimal
