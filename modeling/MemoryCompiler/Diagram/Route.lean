import MemoryCompiler.Diagram.Graph

/-!
# Routes of lines

A line is drawn with horizontal and vertical segments only: where two points differ in both
coordinates a corner goes between them. Its label stands at the middle of its longest segment.
-/

namespace MemoryCompiler.Diagram

variable {α : Type}

/-- The points after `last`, each after a corner if it needs one. -/
def routeFrom [BEq α] (last : Point α) : List (Point α) → List (Point α)
  | [] => []
  | p :: rest =>
    if last.x != p.x && last.y != p.y then ⟨p.x, last.y⟩ :: p :: routeFrom p rest
    else p :: routeFrom p rest

/-- The points of a line with corners put in. -/
def route [BEq α] : List (Point α) → List (Point α)
  | [] => []
  | p :: rest => p :: routeFrom p rest

def segments (points : List (Point α)) : List (Point α × Point α) := points.zip points.tail

section

variable [Add α] [Sub α] [Div α] [OfScientific α] [LT α] [DecidableLT α] [LE α] [DecidableLE α]

def distance (a b : α) : α := if a < b then b - a else a - b

/-- The length of a segment along the axes. -/
def segmentLength (s : Point α × Point α) : α := distance s.1.x s.2.x + distance s.1.y s.2.y

/-- The first longest of some segments. The best one so far comes with its length, if it has one;
a segment without a length never takes over. -/
def longestFrom (best : Point α × Point α) (length : Option α) :
    List (Point α × Point α) → Point α × Point α
  | [] => best
  | s :: rest =>
    let longer : Bool := match length with
      | none => decide ((0.0 : α) ≤ segmentLength s)
      | some l => decide (l < segmentLength s)
    if longer then longestFrom s (some (segmentLength s)) rest else longestFrom best length rest

def middle (s : Point α × Point α) : Point α := ⟨(s.1.x + s.2.x) / 2.0, (s.1.y + s.2.y) / 2.0⟩

/-- The middle of the longest segment of a line; a line without segments has none. -/
def labelAnchor? (points : List (Point α)) : Option (Point α) :=
  match segments points with
  | [] => none
  | s :: rest => some (middle (longestFrom s none (s :: rest)))

end

end MemoryCompiler.Diagram
