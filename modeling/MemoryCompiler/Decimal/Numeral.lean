import MemoryCompiler.Decimal.Binary64
import MemoryCompiler.Text.Blank

/-!
# Reading numerals

`number?` reads a text as a double: blank characters around it are dropped; what is left is a
decimal numeral with an optional sign, point and exponent, an unsigned `0x`, `0o` or `0b`
numeral, or `Infinity` with an optional sign. Decimal values round to the nearest double.
-/

namespace MemoryCompiler.Decimal

def digitValue? (base : Nat) (c : Char) : Option Nat :=
  let v? : Option Nat :=
    if '0' ≤ c ∧ c ≤ '9' then some (c.toNat - '0'.toNat)
    else if 'a' ≤ c ∧ c ≤ 'f' then some (c.toNat - 'a'.toNat + 10)
    else if 'A' ≤ c ∧ c ≤ 'F' then some (c.toNat - 'A'.toNat + 10)
    else none
  v?.filter (· < base)

def isDigit (c : Char) : Bool := (digitValue? 10 c).isSome

/-- The number that digits of a base write, read from the left. -/
def digitsValue (base : Nat) (cs : List Char) : Nat :=
  cs.foldl (fun n c => n * base + (digitValue? base c).getD 0) 0

/-- A non-empty list of digits of a base, as a number. -/
def wholeNumeral? (base : Nat) (cs : List Char) : Option Nat :=
  if cs ≠ [] ∧ cs.all (fun c => (digitValue? base c).isSome) then some (digitsValue base cs) else none

/-- The double nearest to `digits · 10 ^ scale`. Beyond 400 decimal places on either side the
answer is an infinity or zero whatever the digits are. -/
def nearest (digits : Nat) (count : Nat) (scale : Int) : Float :=
  if digits = 0 then 0
  else if 400 < count + scale then Float.ofScientific 1 false 400
  else if count + scale < -400 then 0
  else if 0 ≤ scale then Float.ofScientific digits false scale.toNat
  else Float.ofScientific digits true (-scale).toNat

/-- Puts a minus sign before a number, also before zero. -/
def signed (negative : Bool) (x : Float) : Float := if negative then -x else x

/-- An optional sign: whether it is a minus, and what follows. -/
def splitSign : List Char → Bool × List Char
  | '-' :: cs => (true, cs)
  | '+' :: cs => (false, cs)
  | cs => (false, cs)

structure Parts where
  whole : List Char
  fraction : List Char
  /-- A point was written, with or without digits after it. -/
  hasPoint : Bool
  exponent : Int

def Parts.value (p : Parts) : Float :=
  let ds := p.whole ++ p.fraction
  let significant := ds.dropWhile (· == '0')
  nearest (digitsValue 10 ds) significant.length (p.exponent - p.fraction.length)

/-- An exponent after its letter: an optional sign and digits, with nothing behind. -/
def exponent? (cs : List Char) : Option Int := do
  let (negative, ds) := splitSign cs
  let n ← wholeNumeral? 10 ds
  some (if negative then -(n : Int) else n)

/-- What may follow the digits of a numeral: nothing, or an exponent. -/
def trailingExponent? : List Char → Option Int
  | [] => some 0
  | c :: cs => if c = 'e' ∨ c = 'E' then exponent? cs else none

/-- Splits an unsigned decimal numeral: digits, a point with digits, an exponent. -/
def parts? (cs : List Char) : Option Parts := do
  let whole := cs.takeWhile isDigit
  match cs.dropWhile isDigit with
  | '.' :: rest =>
    let fraction := rest.takeWhile isDigit
    let e ← trailingExponent? (rest.dropWhile isDigit)
    some ⟨whole, fraction, true, e⟩
  | rest =>
    let e ← trailingExponent? rest
    some ⟨whole, [], false, e⟩

/-- An unsigned decimal numeral with at least one digit beside the exponent. -/
def decimal? (cs : List Char) : Option Float := do
  let p ← parts? cs
  if p.whole = [] ∧ p.fraction = [] then none else some p.value

/-- An unsigned numeral in base 16, 8 or 2, after its two opening characters. -/
def based? : List Char → Option Float
  | '0' :: c :: ds =>
    let base? : Option Nat :=
      if c = 'x' ∨ c = 'X' then some 16
      else if c = 'o' ∨ c = 'O' then some 8
      else if c = 'b' ∨ c = 'B' then some 2
      else none
    base?.bind fun base => (wholeNumeral? base ds).map fun n => nearest n (n.log2 / 3) 0
  | _ => none

def infinity : Float := 1 / 0

/-- Reads characters without blanks around them; none at all count as zero. -/
def numberChars? (cs : List Char) : Option Float :=
  if cs = [] then some 0
  else
    match based? cs with
    | some x => some x
    | none =>
      let (negative, ds) := splitSign cs
      if ds = "Infinity".toList then some (signed negative infinity)
      else (decimal? ds).map (signed negative)

/-- The double that a text denotes. -/
def number? (s : String) : Option Float := numberChars? (Text.trimChars s.toList)

end MemoryCompiler.Decimal
