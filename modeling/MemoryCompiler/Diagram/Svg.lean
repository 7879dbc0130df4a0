import MemoryCompiler.Decimal.Numeral
import MemoryCompiler.Decimal.Order
import MemoryCompiler.Diagram.Markup
import MemoryCompiler.Diagram.Placement
import MemoryCompiler.Diagram.Route

/-!
# Drawings

A placed graph as an SVG document: optional frames around the boxes of each category, the lines
with arrowheads, the boxes, and all labels on top. The canvas starts at the origin and ends a
margin beyond the last box.
-/

namespace MemoryCompiler.Diagram

/-- What is drawn beside the graph itself. -/
structure DrawingRules where
  title : Option String := none
  showClusters : Bool := false

/-! ## Class names -/

def inClassName (c : Char) : Bool := c.isAlphanum || c == '_' || c == '-'

/-- Replaces each run of other characters by one hyphen; `inRun` tells of a run just replaced. -/
def hyphenate (inRun : Bool) : List Char → List Char
  | [] => []
  | c :: cs =>
    if inClassName c then c :: hyphenate false cs
    else if inRun then hyphenate true cs
    else '-' :: hyphenate true cs

/-- A text as a class name: small letters, digits, underscores and inner hyphens. -/
def className (s : String) : String :=
  let cs := (hyphenate false s.toList).dropWhile (· == '-')
  String.ofList ((cs.reverse.dropWhile (· == '-')).reverse.map Char.toLower)

def styledCategories : List String := ["mem", "compute", "ctrl", "io"]

/-- The styled category of a box, in small letters; any other counts as control. -/
def styledCategory (category : Option String) : String :=
  let c := (category.getD "").toLower
  if styledCategories.contains c then c else "ctrl"

/-! ## Geometry -/

def coordinate (x : Float) : String := Decimal.text x

namespace Node

/-- The left edge of a box; one that was not placed is at the origin. -/
def left (n : Node) : Float := n.x.getD 0

/-- The upper edge of a box. -/
def upper (n : Node) : Float := n.y.getD 0

def drawnWidth (n : Node) : Float := n.width.getD defaultWidth

def drawnHeight (n : Node) : Float := n.height.getD defaultHeight

end Node

/-- The space kept free to the right of and below all boxes. -/
def canvasMargin : Float := 40

/-- The width of the canvas; boxes without a width do not count for it. -/
def Graph.canvasWidth (g : Graph) : Float :=
  (g.nodes.map fun n => n.left + n.width.getD 0).foldr Decimal.larger 0 + canvasMargin

/-- The height of the canvas; boxes without a height do not count for it. -/
def Graph.canvasHeight (g : Graph) : Float :=
  (g.nodes.map fun n => n.upper + n.height.getD 0).foldr Decimal.larger 0 + canvasMargin

/-! ## Frames -/

def frameMargin : Float := 14

def frameTitle : Float := 16

/-- The frame around some boxes. -/
def frame (category : String) (first : Node) (rest : List Node) : Markup :=
  let low (f : Node → Float) : Float := Decimal.smallest (f first) (rest.map f)
  let high (f : Node → Float) : Float := Decimal.largest (f first) (rest.map f)
  let x := low Node.left - frameMargin
  let y := low Node.upper - (frameMargin + frameTitle)
  let right := high (fun n => n.left + n.drawnWidth) + frameMargin
  let bottom := high (fun n => n.upper + n.drawnHeight) + frameMargin
  .empty "rect" [("class", "cluster " ++ className category), ("x", coordinate x),
    ("y", coordinate y), ("width", coordinate (right - x)), ("height", coordinate (bottom - y)),
    ("rx", "10"), ("ry", "10")]

/-- The categories of some boxes, each once, in the order of their first boxes. -/
def categoriesOf (nodes : List Node) : List String :=
  nodes.foldl (fun known n =>
    let c := styledCategory n.category
    if known.contains c then known else known ++ [c]) []

def Graph.frames (g : Graph) : List Markup :=
  (categoriesOf g.nodes).filterMap fun c =>
    match g.nodes.filter fun n => styledCategory n.category == c with
    | [] => none
    | first :: rest => some (frame c first rest)

/-! ## Boxes -/

def Node.box (n : Node) : Markup :=
  .element "g" [("class", "node " ++ styledCategory n.category), ("data-id", n.id)]
    (Markup.onLines "      " [.empty "rect" [("x", coordinate n.left), ("y", coordinate n.upper),
      ("width", coordinate n.drawnWidth), ("height", coordinate n.drawnHeight), ("rx", "6"),
      ("ry", "6")]] ++ [.verbatim "\n    "])

/-- The label of a node, in the middle of its box. -/
def Node.labelText (n : Node) : Markup :=
  .element "text" [("class", "nodeLabel " ++ styledCategory n.category),
    ("x", coordinate (n.left + n.drawnWidth / 2)), ("y", coordinate (n.upper + n.drawnHeight / 2)),
    ("text-anchor", "middle"), ("dominant-baseline", "middle")] [.text (n.label.getD n.id)]

/-! ## Lines -/

/-- The path of a line: a move to the first point and a line to each other one. -/
def pathData (points : List (Point Float)) : String :=
  " ".intercalate (points.mapIdx fun i p =>
    (if i = 0 then "M" else "L") ++ coordinate p.x ++ "," ++ coordinate p.y)

/-- A line that carries more than one bit is drawn as a bus. -/
def Edge.isBus (e : Edge) : Bool :=
  match (e.attr? "width").bind Decimal.number? with
  | some w => decide (1 < w)
  | none => false

/-- A line that has at least two points. -/
def Edge.line? (e : Edge) : Option Markup :=
  let points := route e.points
  if points.length < 2 then none
  else some (.empty "path" [("class", if e.isBus then "edge bus" else "edge"),
    ("d", pathData points), ("marker-end", "url(#arrowhead)")])

/-- The label of a line that has at least two points, unless it is blank. -/
def Edge.labelText? (e : Edge) : Option Markup := do
  let text := Text.trim (← e.label)
  let p ← labelAnchor? (route e.points)
  if text = "" then none
  else some (.element "text" [("class", "edgeLabel"), ("x", coordinate p.x),
    ("y", coordinate (p.y - 6)), ("text-anchor", "middle")] [.text text])

/-! ## The whole drawing -/

def arrowhead : Markup :=
  .element "marker" [("id", "arrowhead"), ("markerWidth", "8"), ("markerHeight", "6"),
    ("refX", "7"), ("refY", "3"), ("orient", "auto"), ("markerUnits", "strokeWidth")]
    (Markup.onLines "    " [.empty "path" [("d", "M0,0 L8,3 L0,6 z"), ("fill", "#222")]]
      ++ [.verbatim "\n  "])

/-- A group whose pieces stand on lines of their own. -/
def group (name : String) (pieces : List Markup) : Markup :=
  .element "g" [("class", name)] (Markup.onLines "    " pieces ++ [.verbatim "\n"])

def titleElement (title : Option String) : List Markup :=
  match title with
  | none => []
  | some t => if t = "" then [] else [.element "title" [] [.text t]]

/-- The drawing as a tree. -/
def Graph.drawing (g : Graph) (css : String) (rules : DrawingRules) : Markup :=
  let w := coordinate g.canvasWidth
  let h := coordinate g.canvasHeight
  .element "svg" [("xmlns", "http://www.w3.org/2000/svg"), ("width", w), ("height", h),
    ("viewBox", "0 0 " ++ w ++ " " ++ h)]
    (Markup.onLines "" (titleElement rules.title ++ [
      .element "style" [] [.verbatim ("\n" ++ css ++ "\n")],
      .element "defs" [] (Markup.onLines "  " [arrowhead] ++ [.verbatim "\n"]),
      group "clusters" (if rules.showClusters then g.frames else []),
      group "wires" (g.edges.filterMap Edge.line?),
      group "nodes" (g.nodes.map Node.box),
      group "labels" (g.nodes.map Node.labelText ++ g.edges.filterMap Edge.labelText?)])
    ++ [.verbatim "\n"])

def Graph.svg (g : Graph) (css : String) (rules : DrawingRules) : String :=
  Markup.document (g.drawing css rules)

end MemoryCompiler.Diagram
