import MemoryCompiler.Decimal.Order
import MemoryCompiler.Diagram.Graph
import MemoryCompiler.Document

/-!
# Sizes of the boxes

A box grows with the square root of its metric, which is one of its attributes or a default of its
category. The area is split by the aspect of the category; width and height are clamped and then
snapped to a grid. Boxes that have both sizes keep them.
-/

namespace MemoryCompiler.Diagram

/-- What a category prescribes. -/
structure CategorySizing where
  metric : Float
  /-- Width over height. -/
  aspect : Float
deriving DecidableEq, Repr

/-- The rules of sizing. -/
structure SizeRules where
  /-- The area of a box with metric zero. -/
  baseArea : Float
  /-- The area added for each unit of the root of the metric. -/
  growth : Float
  minWidth : Float
  maxWidth : Float
  minHeight : Float
  maxHeight : Float
  /-- The step of widths and heights; a step up to one means none. -/
  grid : Float
  defaultMetric : Float
  /-- The attributes that may hold the metric, the first one winning. -/
  metricAttrs : List String
  categories : List (String × CategorySizing)
deriving DecidableEq, Repr

namespace SizeRules

/-- The rules that hold unless others are given. -/
def standard : SizeRules where
  baseArea := 6400
  growth := 1400
  minWidth := 90
  maxWidth := 300
  minHeight := 40
  maxHeight := 160
  grid := 10
  defaultMetric := 1
  metricAttrs := ["metric", "ports"]
  categories := [("mem", ⟨8, 1.6⟩), ("compute", ⟨5, 1.3⟩), ("ctrl", ⟨3, 1.8⟩), ("io", ⟨4, 0.6⟩)]

def defaultAspect : Float := 1.4

def readCategory (known : List (String × CategorySizing)) (name : String) (d : Document) :
    CategorySizing where
  metric := ((d.field "metric").finite?).getD
    (((known.lookup name).map CategorySizing.metric).getD standard.defaultMetric)
  aspect := ((d.field "aspect").finite?).getD
    (((known.lookup name).map CategorySizing.aspect).getD defaultAspect)

/-- Reads rules; what is missing or is no finite number keeps its standard value. -/
def ofDocument (d : Document) : SizeRules :=
  let value (name : String) (other : Float) : Float := ((d.field name).finite?).getD other
  { baseArea := value "base_area" standard.baseArea
    growth := value "k" standard.growth
    minWidth := value "min_w" standard.minWidth
    maxWidth := value "max_w" standard.maxWidth
    minHeight := value "min_h" standard.minHeight
    maxHeight := value "max_h" standard.maxHeight
    grid := value "grid" standard.grid
    defaultMetric := value "default_metric" standard.defaultMetric
    metricAttrs :=
      match (d.field "metric_attrs").items? with
      | some names => names.filterMap Document.text?
      | none => standard.metricAttrs
    categories := (((d.field "categories").fields?).getD []).foldl
      (fun known f => Document.setField f.1 (readCategory known f.1 f.2) known)
      standard.categories }

def defaultCategory : String := "ctrl"

/-- The number an attribute spells, if it is zero or more. -/
def attrMetric? (n : Node) (name : String) : Option Float :=
  ((n.attr? name).bind fun t => (Document.text t).finite?).filter fun x => 0 ≤ x

def metric (r : SizeRules) (n : Node) (category : String) : Float :=
  (r.metricAttrs.findSome? (attrMetric? n)).getD
    (((r.categories.lookup category).map CategorySizing.metric).getD r.defaultMetric)

/-- Rounds to a multiple of the grid. -/
def snap (grid x : Float) : Float :=
  if grid ≤ 1 then x else Decimal.nearestWhole (x / grid) * grid

/-- Width and height for a metric and an aspect. -/
def boxSize (r : SizeRules) (metric aspect : Float) : Float × Float :=
  let area := r.baseArea + r.growth * (Decimal.larger 0 metric).sqrt
  (snap r.grid (Decimal.clamp (area * aspect).sqrt r.minWidth r.maxWidth),
    snap r.grid (Decimal.clamp (area / aspect).sqrt r.minHeight r.maxHeight))

/-- Gives a box its size, unless it has one. -/
def sizeNode (r : SizeRules) (n : Node) : Node :=
  if n.isSized then n
  else
    let category := n.category.getD defaultCategory
    let aspect := ((r.categories.lookup category).map CategorySizing.aspect).getD defaultAspect
    let (w, h) := r.boxSize (r.metric n category) aspect
    { n with width := some w, height := some h }

end SizeRules

def Graph.size (g : Graph) (r : SizeRules) : Graph := { g with nodes := g.nodes.map r.sizeNode }

end MemoryCompiler.Diagram
