import MemoryCompiler.Decimal.Shortest
import MemoryCompiler.Ecc.Layout
import MemoryCompiler.Text.Width

/-!
# Exclusive-or equations

The check bits and the syndrome are sums without carry of many bits. An equation is written with
eight terms a line; a line that goes on starts with the operator, two columns before the column of
the first term.
-/

namespace MemoryCompiler.Rtl

/-- A target that is the exclusive or of some terms. -/
structure Equation where
  target : String
  terms : List String
deriving DecidableEq, Repr

def termsPerLine : Nat := 8

/-- Cuts a list into runs of `n`; the last one may be shorter. -/
def runsOf {α : Type} (n : Nat) (xs : List α) : List (List α) :=
  (List.range ((xs.length + (n - 1)) / n)).map fun k => (xs.drop (n * k)).take n

namespace Equation

/-- The text in front of the first term. -/
def lead (e : Equation) : String := "  assign " ++ e.target ++ " = "

/-- The text in front of the terms of a line that goes on. -/
def continuation (e : Equation) : String := Text.spaces (Text.units e.lead - 2) ++ "^ "

def termText (terms : List String) : String := " ^ ".intercalate terms

/-- The lines of an equation; none if it has no terms. -/
def lines (e : Equation) : List String :=
  let runs := runsOf termsPerLine e.terms
  runs.mapIdx fun k run =>
    (if k = 0 then e.lead else e.continuation) ++ termText run
      ++ (if k + 1 = runs.length then ";" else "")

end Equation

def bitOf (net : String) (i : Nat) : String := net ++ "[" ++ Decimal.natText i ++ "]"

/-- Each check bit is the sum of the data bits that it covers. -/
def checkEquations (l : Ecc.Layout) : List Equation :=
  l.coverage.mapIdx fun i covered => ⟨bitOf "check" i, covered.map (bitOf "data_i")⟩

/-- Each syndrome bit is the received check bit added to what it should be. -/
def syndromeEquations (l : Ecc.Layout) : List Equation :=
  l.coverage.mapIdx fun i covered =>
    ⟨bitOf "syndrome" i, bitOf "check" i :: covered.map (bitOf "data")⟩

end MemoryCompiler.Rtl
