/-!
# Width of a text

Columns are counted in 16-bit code units: a character outside the basic plane takes two. `pad`
fills a text with spaces up to a width and never cuts it.
-/

namespace MemoryCompiler.Text

-- Sums start from the zero of the core library, also where another instance is in scope.
attribute [local instance (high)] Zero.ofOfNat0

/-- The number of 16-bit code units of one character. -/
def charUnits (c : Char) : Nat := if c.toNat < 0x10000 then 1 else 2

def units (s : String) : Nat := (s.toList.map charUnits).sum

def spaces (n : Nat) : String := String.ofList (List.replicate n ' ')

/-- Fills `s` with spaces on the right up to `n` units. -/
def pad (s : String) (n : Nat) : String := s ++ spaces (n - units s)

def widest (ss : List String) : Nat := (ss.map units).foldl max 0

theorem units_append (a b : String) : units (a ++ b) = units a + units b := by
  simp [units]

theorem units_spaces (n : Nat) : units (spaces n) = n := by
  simp [units, spaces, charUnits]

theorem units_pad (s : String) (n : Nat) : units (pad s n) = max (units s) n := by
  rw [pad, units_append, units_spaces]; omega

end MemoryCompiler.Text
