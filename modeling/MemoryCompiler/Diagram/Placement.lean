import MemoryCompiler.Diagram.Graph
import MemoryCompiler.Document.Text
import MemoryCompiler.Text.Collation

/-!
# Placing the boxes

Coordinates come from a layouter outside. It is asked with the boxes in a hinted order, category by
category, and the lines between them; its answer names boxes and lines by their identifiers and is
read back into the graph. What the answer leaves out stays as it was, at the origin.
-/

namespace MemoryCompiler.Diagram

/-- The rules of placement. -/
structure PlacementRules where
  direction : String
  /-- The options that tune the layouter. -/
  options : List (String × String)
  /-- The categories in the order of their boxes. -/
  categoryOrder : List String
deriving DecidableEq, Repr

namespace PlacementRules

def textOr (d : Document) (other : String) : String := if d.isMissing then other else d.plain

def standardOrder : List String := ["io", "ctrl", "compute", "mem"]

/-- The options before any is overridden. -/
def baseOptions (direction betweenLayers betweenNodes : String) : List (String × String) :=
  [("elk.algorithm", "org.eclipse.elk.layered"),
    ("elk.direction", direction),
    ("elk.edgeRouting", "ORTHOGONAL"),
    ("elk.layered.spacing.nodeNodeBetweenLayers", betweenLayers),
    ("elk.spacing.nodeNode", betweenNodes),
    ("org.eclipse.elk.layered.considerModelOrder.strategy", "NODES_AND_EDGES")]

/-- Reads rules; extra options come over the standard ones. -/
def ofDocument (d : Document) : PlacementRules :=
  let direction := textOr (d.field "direction") "RIGHT"
  let base := baseOptions direction (textOr (d.field "node_node_between_layers") "50")
    (textOr (d.field "node_node") "30")
  { direction := direction
    options := (((d.field "options").fields?).getD []).foldl
      (fun known f => Document.setField f.1 f.2.plain known) base
    categoryOrder :=
      match (d.field "category_order").items? with
      | some names => names.filterMap Document.text?
      | none => standardOrder }

/-- The rules that hold unless others are given. -/
def standard : PlacementRules := ofDocument .undefined

/-- The place of a category; the last mention counts, and an unlisted one comes after all. -/
def rank (r : PlacementRules) (category : Option String) : Nat :=
  match r.categoryOrder.reverse.idxOf? (category.getD "") with
  | some i => r.categoryOrder.length - 1 - i
  | none => r.categoryOrder.length + 1

/-- One box comes before another: by category, then by identifier. -/
def before (r : PlacementRules) (a b : Node) : Bool :=
  if r.rank a.category ≠ r.rank b.category then decide (r.rank a.category < r.rank b.category)
  else Text.comesBefore a.id b.id

/-- The boxes in the hinted order; boxes that are level stay as they are. -/
def hintedOrder (r : PlacementRules) (nodes : List Node) : List Node :=
  nodes.mergeSort fun a b => !r.before b a

end PlacementRules

/-! ## Asking -/

/-- A box with the size that the layouter has to keep room for. -/
structure BoxRequest where
  id : String
  width : Float
  height : Float
deriving DecidableEq, Repr

structure LineRequest where
  id : String
  source : String
  target : String
deriving DecidableEq, Repr

/-- What the layouter is asked for. -/
structure PlacementRequest where
  options : List (String × String)
  boxes : List BoxRequest
  lines : List LineRequest
deriving DecidableEq, Repr

def defaultWidth : Float := 120

def defaultHeight : Float := 60

def Graph.placementRequest (g : Graph) (r : PlacementRules) : PlacementRequest where
  options := r.options
  boxes := (r.hintedOrder g.nodes).map fun n =>
    ⟨n.id, n.width.getD defaultWidth, n.height.getD defaultHeight⟩
  lines := g.edges.mapIdx fun i e => ⟨e.name i, e.source, e.target⟩

/-! ## Reading the answer -/

structure PlacedBox where
  id : String
  x : Option Float
  y : Option Float
  width : Option Float
  height : Option Float
deriving DecidableEq, Repr

/-- A stretch of a line from its start over its bends to its end. -/
structure Section where
  start : Point Float
  bends : List (Point Float)
  finish : Point Float
deriving DecidableEq, Repr

def Section.points (s : Section) : List (Point Float) := s.start :: s.bends ++ [s.finish]

structure PlacedLine where
  id : String
  sections : List Section
deriving DecidableEq, Repr

/-- What the layouter answers. -/
structure Placement where
  boxes : List PlacedBox
  lines : List PlacedLine
deriving DecidableEq, Repr

namespace Placement

/-- The box of an identifier; of several the last counts. -/
def box? (p : Placement) (id : String) : Option PlacedBox := p.boxes.reverse.find? fun b => b.id == id

/-- The points of the line of an identifier; of several lines the last counts. -/
def points (p : Placement) (id : String) : List (Point Float) :=
  match p.lines.reverse.find? fun l => l.id == id with
  | some l => l.sections.flatMap Section.points
  | none => []

def placeNode (p : Placement) (n : Node) : Node :=
  let b := p.box? n.id
  { n with
    x := some ((b.bind PlacedBox.x).getD 0)
    y := some ((b.bind PlacedBox.y).getD 0)
    width := (b.bind PlacedBox.width).or n.width
    height := (b.bind PlacedBox.height).or n.height }

end Placement

/-- Puts all boxes and lines of a graph in their places. -/
def Graph.place (g : Graph) (p : Placement) : Graph where
  nodes := g.nodes.map p.placeNode
  edges := g.edges.mapIdx fun i e => { e with points := p.points (e.name i) }

end MemoryCompiler.Diagram
