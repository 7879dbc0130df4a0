/-!
# Style sheet

The colours and line widths of the drawings that the command line makes.
-/

namespace MemoryCompiler.Diagram

def styleSheetLines : List String :=
  ["svg \x7b background: #ffffff; font-family: \"Inter\", \"Helvetica Neue\", Arial, sans-serif; \x7d",
    "",
    ".node rect \x7b stroke: #334155; stroke-width: 1.2; \x7d",
    ".node.mem rect \x7b fill: #dbeafe; \x7d",
    ".node.compute rect \x7b fill: #fde68a; \x7d",
    ".node.ctrl rect \x7b fill: #e9d5ff; \x7d",
    ".node.io rect \x7b fill: #e2e8f0; \x7d",
    "",
    ".cluster \x7b fill: none; stroke: #cbd5e1; stroke-dasharray: 4 3; \x7d",
    "",
    ".edge \x7b fill: none; stroke: #222222; stroke-width: 1.1; \x7d",
    ".edge.bus \x7b stroke-width: 1.8; \x7d",
    "",
    ".nodeLabel \x7b font-size: 12px; font-weight: 600; fill: #0f172a; \x7d",
    ".edgeLabel \x7b",
    "  font-size: 10px;",
    "  fill: #1f2937;",
    "  paint-order: stroke;",
    "  stroke: #ffffff;",
    "  stroke-width: 2.6px;",
    "\x7d",
    ""]

def styleSheet : String := "\n".intercalate styleSheetLines

end MemoryCompiler.Diagram
