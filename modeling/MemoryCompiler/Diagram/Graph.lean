import MemoryCompiler.Decimal.Shortest

/-!
# Graphs of a diagram

A diagram is a graph whose nodes are boxes and whose edges are lines. Sizes and coordinates are
filled in step by step, so a graph may lack them.
-/

namespace MemoryCompiler.Diagram

structure Point (α : Type) where
  x : α
  y : α
deriving DecidableEq, Repr

/-- A box of the diagram. -/
structure Node where
  id : String
  /-- The text in the box; the identifier stands in for a missing one. -/
  label : Option String := none
  category : Option String := none
  attrs : List (String × String) := []
  x : Option Float := none
  y : Option Float := none
  width : Option Float := none
  height : Option Float := none
deriving DecidableEq, Repr

/-- A line between two boxes. -/
structure Edge where
  id : Option String := none
  source : String
  target : String
  label : Option String := none
  attrs : List (String × String) := []
  points : List (Point Float) := []
deriving DecidableEq, Repr

structure Graph where
  nodes : List Node
  edges : List Edge
deriving DecidableEq, Repr

namespace Node

def isSized (n : Node) : Bool := n.width.isSome && n.height.isSome

def attr? (n : Node) (name : String) : Option String := n.attrs.lookup name

end Node

def Edge.attr? (e : Edge) (name : String) : Option String := e.attrs.lookup name

/-- The identifier of the `i`-th edge; edges without one are numbered. -/
def Edge.name (i : Nat) (e : Edge) : String := e.id.getD ("e" ++ Decimal.natText i)

end MemoryCompiler.Diagram
