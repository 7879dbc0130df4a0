import MemoryCompiler.Diagram.Connectivity
import MemoryCompiler.Diagram.Sizing
import MemoryCompiler.Diagram.Svg

/-!
# Block diagrams

The block diagram of a design: the graph of its top level, sized and placed by the standard rules
and drawn under the base name of the design.
-/

namespace MemoryCompiler.Diagram

/-- The sized graph of a design. -/
def blockGraph (d : Rtl.Design) : Graph := (ofDesign d).size .standard

/-- What the layouter is asked for. -/
def blockRequest (d : Rtl.Design) : PlacementRequest := (blockGraph d).placementRequest .standard

def blockSvg (d : Rtl.Design) (css : String) (p : Placement) : String :=
  ((blockGraph d).place p).svg css { title := some d.baseName }

end MemoryCompiler.Diagram
