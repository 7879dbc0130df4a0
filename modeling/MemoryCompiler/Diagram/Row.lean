import MemoryCompiler.Diagram.Placement

/-!
# Boxes in a row

The plainest layouter: the boxes stand side by side in the requested order, and a line runs from
the right edge of its source to the left edge of its target.
-/

namespace MemoryCompiler.Diagram

/-- The space around and between the boxes of a row. -/
def rowGap : Float := 50

def rowBoxes (x : Float) : List BoxRequest → List PlacedBox
  | [] => []
  | b :: rest =>
    ⟨b.id, some x, some rowGap, some b.width, some b.height⟩ :: rowBoxes (x + b.width + rowGap) rest

/-- The middle of the left edge of a box, moved by a share of its width. -/
def sidePoint (boxes : List PlacedBox) (id : String) (share : Float) : Point Float :=
  match boxes.find? fun b => b.id == id with
  | some b => ⟨b.x.getD 0 + share * b.width.getD 0, b.y.getD 0 + b.height.getD 0 / 2⟩
  | none => ⟨0, 0⟩

/-- The placement of a request in a row. -/
def rowPlacement (r : PlacementRequest) : Placement :=
  let boxes := rowBoxes rowGap r.boxes
  { boxes
    lines := r.lines.map fun l =>
      ⟨l.id, [⟨sidePoint boxes l.source 1, [], sidePoint boxes l.target 0⟩]⟩ }

end MemoryCompiler.Diagram
