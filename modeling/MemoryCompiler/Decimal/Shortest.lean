import MemoryCompiler.Decimal.Binary64

/-!
# Shortest decimal text of a double

`shortest` finds the fewest significant digits that read back as the same double, and among
those the digits nearest to it, a tie going to the even digit. `text` lays them out: positional
while the decimal point stays within 21 places on the left and 6 zeros on the right, else with an
exponent.
-/

namespace MemoryCompiler.Decimal

-- Powers are those of the core library, also where another instance is in scope.
attribute [local instance (high)] instPowNat

/-- The value `digits · 10 ^ scale`. -/
structure Digits where
  digits : Nat
  scale : Int
deriving DecidableEq, Repr

def digitChars (n : Nat) : List Char := Nat.toDigits 10 n

def digitCount (n : Nat) : Nat := (digitChars n).length

def natText (n : Nat) : String := String.ofList (digitChars n)

def intText (n : Int) : String :=
  if n < 0 then "-" ++ natText n.natAbs else natText n.natAbs

/-- The reals that round to a dyadic value, all three bounds as multiples of `2 ^ shift`: the
value lies between `low` and `high`, and the bounds themselves belong exactly when `closed`. -/
structure Interval where
  low : Nat
  value : Nat
  high : Nat
  shift : Int
  closed : Bool

/-- The gap below a power of two is half the gap above it, except at the smallest exponent. -/
def roundingInterval (d : Dyadic) : Interval :=
  let m := d.mantissa
  let narrow := m = 2 ^ (52 : Nat) ∧ leastExponent < d.exponent
  { low := if narrow then 4 * m - 1 else 4 * m - 2
    value := 4 * m
    high := 4 * m + 2
    shift := d.exponent - 2
    closed := m % 2 == 0 }

/-- The factors that bring `a · 2 ^ shift` and `b · 10 ^ scale` to one unit. -/
def commonUnit (shift scale : Int) : Nat × Nat :=
  (2 ^ shift.toNat * 10 ^ (-scale).toNat, 10 ^ scale.toNat * 2 ^ (-shift).toNat)

/-- The decimal exponent of the first digit of `m · 2 ^ shift`, for a positive `m`. -/
def leadingPlace (m : Nat) (shift : Int) : Int :=
  if 0 ≤ shift then (digitCount (m * 2 ^ shift.toNat) : Int) - 1
  else
    let lift : Nat := 400
    (digitCount (m * 10 ^ lift / 2 ^ (-shift).toNat) : Int) - 1 - lift

/-- The best point of the grid `c · 10 ^ scale` that rounds to the double, if there is one. -/
def gridPoint (r : Interval) (scale : Int) : Option Nat :=
  let (binary, decimal) := commonUnit r.shift scale
  let low := r.low * binary
  let value := r.value * binary
  let high := r.high * binary
  let fits (c : Nat) : Bool :=
    let p := c * decimal
    if r.closed then decide (low ≤ p) && decide (p ≤ high) else decide (low < p) && decide (p < high)
  let below := value / decimal
  let above := below + 1
  match fits below, fits above with
  | true, true =>
    let down := value - below * decimal
    let up := above * decimal - value
    if down < up ∨ (down = up ∧ below % 2 = 0) then some below else some above
  | true, false => some below
  | false, true => some above
  | false, false => none

/-- Tries the grids with `n`, `n + 1`, … digits, `fuel` of them. -/
def firstGrid (r : Interval) (first : Int) : Nat → Nat → Option Digits
  | 0, _ => none
  | fuel + 1, n =>
    let scale := first + 1 - n
    match gridPoint r scale with
    | some c => some ⟨c, scale⟩
    | none => firstGrid r first fuel (n + 1)

/-- Moves the zeros at the end of the digits into the scale. -/
def stripZeros : Nat → Digits → Digits
  | 0, d => d
  | fuel + 1, d =>
    if d.digits ≠ 0 ∧ d.digits % 10 = 0 then stripZeros fuel ⟨d.digits / 10, d.scale + 1⟩ else d

/-- The shortest digits of a positive dyadic value; 17 digits always suffice. -/
def shortest (d : Dyadic) : Digits :=
  let r := roundingInterval d
  match firstGrid r (leadingPlace r.value r.shift) 18 1 with
  | some s => stripZeros 20 s
  | none => ⟨0, 0⟩

/-- Where a number is written positionally and where with an exponent. -/
structure Layout where
  /-- The most places before the decimal point. -/
  placesBefore : Nat
  /-- The most zeros between the decimal point and the first digit. -/
  zerosAfter : Nat
deriving DecidableEq, Repr

/-- Numbers up to 21 places, and fractions with fewer than 6 leading zeros, are positional. -/
def standardLayout : Layout := ⟨21, 5⟩

def zeros (n : Nat) : List Char := List.replicate n '0'

/-- An exponent carries its sign always. -/
def exponentChars (e : Int) : List Char :=
  'e' :: (if e < 0 then '-' else '+') :: digitChars e.natAbs

def Digits.layOut (layout : Layout) (d : Digits) : List Char :=
  let ds := digitChars d.digits
  let point : Int := d.scale + ds.length
  if (ds.length : Int) ≤ point ∧ point ≤ layout.placesBefore then
    ds ++ zeros (point - ds.length).toNat
  else if 0 < point ∧ point ≤ layout.placesBefore then
    ds.take point.toNat ++ '.' :: ds.drop point.toNat
  else if -(layout.zerosAfter : Int) ≤ point ∧ point ≤ 0 then
    '0' :: '.' :: zeros (-point).toNat ++ ds
  else
    match ds with
    | [] => []
    | [c] => c :: exponentChars (point - 1)
    | c :: rest => c :: '.' :: rest ++ exponentChars (point - 1)

/-- The text of the three doubles that have no digits, and `0` for both zeros. -/
def text (x : Float) : String :=
  match decode x with
  | none => if x.isNaN then "NaN" else if isNegative x then "-Infinity" else "Infinity"
  | some d =>
    if d.mantissa = 0 then "0"
    else
      let body := String.ofList ((shortest d).layOut standardLayout)
      if d.negative then "-" ++ body else body

end MemoryCompiler.Decimal
