import MemoryCompiler.Text.Width

/-!
# Tables in reports

A table is a header and rows of cells, written between vertical bars. The line below the header
has as many hyphens as each head has columns, three at least. Cells are written as they are.
-/

namespace MemoryCompiler.Report

structure Table where
  headers : List String
  rows : List (List String)
deriving DecidableEq, Repr

/-- One line of a table. -/
def rowLine (cells : List String) : String := "| " ++ " | ".intercalate cells ++ " |"

/-- The hyphens below a head. -/
def rule (header : String) : String :=
  String.ofList (List.replicate (max 3 (Text.units header)) '-')

def Table.lines (t : Table) : List String :=
  [rowLine t.headers, rowLine (t.headers.map rule)] ++ t.rows.map rowLine

theorem Table.length_lines (t : Table) : t.lines.length = t.rows.length + 2 := by
  simp [Table.lines]

/-- A document of some lines, each ended by a line feed. -/
def documentText (lines : List String) : String := "\n".intercalate lines ++ "\n"

end MemoryCompiler.Report
