import MemoryCompiler.Decimal.Binary64

/-!
# Order and rounding of doubles

The larger and the smaller of two doubles, where NaN wins over every number and negative zero lies
below zero, the clamping to an interval, and the rounding to a whole number with halves going up.
-/

namespace MemoryCompiler.Decimal

def larger (a b : Float) : Float :=
  if a.isNaN then a
  else if b.isNaN then b
  else if a < b then b
  else if b < a then a
  else if isNegative a then b else a

def smaller (a b : Float) : Float :=
  if a.isNaN then a
  else if b.isNaN then b
  else if a < b then a
  else if b < a then b
  else if isNegative a then a else b

/-- The nearest point of an interval; an empty one counts as its upper end. -/
def clamp (x low high : Float) : Float := smaller high (larger low x)

def largest (first : Float) (xs : List Float) : Float := xs.foldl larger first

def smallest (first : Float) (xs : List Float) : Float := xs.foldl smaller first

/-- The nearest whole number of a dyadic number, a half going up. -/
def Dyadic.roundHalfUp (d : Dyadic) : Int :=
  let (num, den) := d.magnitude
  let n : Int := if d.negative then -(num : Int) else num
  (2 * n + den) / (2 * den)

/-- Rounds a double to a whole number, a half going up; the sign stays with a result of zero. -/
def nearestWhole (x : Float) : Float :=
  match decode x with
  | none => x
  | some d =>
    if 0 ≤ d.exponent then x
    else
      let n := d.roundHalfUp
      if n = 0 ∧ d.negative then -0.0 else Float.ofInt n

end MemoryCompiler.Decimal
