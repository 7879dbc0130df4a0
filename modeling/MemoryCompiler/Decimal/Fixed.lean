import MemoryCompiler.Decimal.Shortest

/-!
# Fixed decimal places

`fixed n x` writes `x` with exactly `n` places after the point. The exact value of the double is
rounded, a half going away from zero. Negative zero loses its sign, and from `10 ^ 21` on the
number is written in its shortest form instead.
-/

namespace MemoryCompiler.Decimal

-- Powers are those of the core library, also where another instance is in scope.
attribute [local instance (high)] instPowNat

/-- The nearest natural number to `num / den`, a half going up. -/
def roundHalfUp (num den : Nat) : Nat := (2 * num + den) / (2 * den)

/-- The digits of `n` with a point before the last `places` of them. -/
def pointed (places n : Nat) : List Char :=
  let ds := digitChars n
  let full := zeros (places + 1 - ds.length) ++ ds
  if places = 0 then full
  else full.take (full.length - places) ++ '.' :: full.drop (full.length - places)

/-- The bound from which fixed places give way to the shortest form. -/
def fixedLimit : Nat := 10 ^ (21 : Nat)

/-- `x` with `places` digits after the point. -/
def fixed (places : Nat) (x : Float) : String :=
  match decode x with
  | none => text x
  | some d =>
    let (num, den) := d.magnitude
    if fixedLimit * den ≤ num then text x
    else
      let body := String.ofList (pointed places (roundHalfUp (num * 10 ^ places) den))
      if d.negative ∧ d.mantissa ≠ 0 then "-" ++ body else body

end MemoryCompiler.Decimal
