import MemoryCompiler.Rtl.Design
import MemoryCompiler.Rtl.Equation

/-!
# Verilog text

The text of a module: a header of comments and directives, the declaration with parameters and
ports, the body that belongs to the role, and the end. Top level and power wrapper are written out
from their nets, assignments and instances; the other bodies follow from the ports and from the
layout of the code.
-/

namespace MemoryCompiler.Rtl

/-- The last thing in a list closes it, the others are followed by a comma. -/
def commaLines (items : List String) : List String :=
  items.mapIdx fun i t => t ++ (if i + 1 < items.length then "," else "")

/-- The range of a declaration; a single bit has none, and an empty parameter name is no name. -/
def rangeText (width : Nat) (param : Option String) : String :=
  match param.filter (· ≠ "") with
  | some p => "[" ++ p ++ "-1:0]"
  | none => if 1 < width then "[" ++ Decimal.natText (width - 1) ++ ":0]" else ""

/-- A range padded to the widest one and a blank; nothing where no range is written at all. -/
def rangeColumn (widest : Nat) (range : String) : String :=
  if 0 < widest then Text.pad range widest ++ " " else ""

/-! ## Header and declaration -/

/-- The comments and directives that open a file. -/
def headerLines (d : Design) (m : Module) : List String :=
  ["// " ++ m.name ++ ": " ++ m.role.title,
    "// Generated by sram-compiler for " ++ d.config.label ++ ". Do not edit.",
    "// Configuration fingerprint: " ++ d.fingerprint,
    "`timescale 1ns / 1ps",
    "`default_nettype none",
    ""]

def portLines (ports : List Port) : List String :=
  let range (p : Port) : String := rangeText p.width p.widthParam
  let column := Text.widest (ports.map range)
  commaLines (ports.map fun p =>
    "  " ++ Text.pad p.direction.text 6 ++ " wire " ++ rangeColumn column (range p) ++ p.name)

def paramLines (params : List Param) : List String :=
  let column := Text.widest (params.map Param.name)
  commaLines (params.map fun p =>
    "  parameter " ++ Text.pad p.name column ++ " = " ++ p.value.text)

def declarationLines (m : Module) : List String :=
  (if m.params = [] then ["module " ++ m.name ++ " ("]
   else ("module " ++ m.name ++ " #(") :: paramLines m.params ++ [") ("])
  ++ portLines m.ports ++ [");"]

/-! ## Structural bodies -/

def instanceLines (i : Instance) : List String :=
  let column := Text.widest (i.connections.map Connection.port)
  (if i.params = [] then ["  " ++ i.moduleName ++ " " ++ i.name ++ " ("]
   else
    ("  " ++ i.moduleName ++ " #(")
      :: commaLines (i.params.map fun p => "    ." ++ p.name ++ "(" ++ p.expr ++ ")")
      ++ ["  ) " ++ i.name ++ " ("])
  ++ commaLines (i.connections.map fun c =>
    "    ." ++ Text.pad c.port column ++ " (" ++ c.expr ++ ")")
  ++ ["  );"]

def netLines (nets : List Net) : List String :=
  let range (n : Net) : String := rangeText n.width n.widthParam
  let column := Text.widest (nets.map range)
  nets.map fun n => "  wire " ++ rangeColumn column (range n) ++ n.name ++ ";"

def assignLines (assigns : List Assign) : List String :=
  assigns.map fun a => "  assign " ++ a.lhs ++ " = " ++ a.rhs ++ ";"

def withGap (lines : List String) : List String := if lines = [] then [] else lines ++ [""]

/-- Nets, assignments and instances; an empty line stands between two instances. -/
def structuralBody (m : Module) : List String :=
  withGap (netLines m.nets) ++ withGap (assignLines m.assigns)
    ++ List.intercalate [""] (m.instances.map instanceLines)

/-! ## Bodies of the other roles -/

/-- The array: one memory a bank, selected by the upper part of the address. -/
def coreBody (m : Module) : List String :=
  let access := if m.hasPort "ret_en" then "ce & ~ret_en" else "ce"
  let powered := if m.hasPort "bank_en" then " && bank_en[b]" else ""
  ["  wire [ADDR_WIDTH-1:0]       bank_sel  = addr / BANK_DEPTH;",
    "  wire [ADDR_WIDTH-1:0]       bank_addr = addr % BANK_DEPTH;",
    "  wire                        access    = " ++ access ++ ";",
    "  wire [BANKS*CODE_WIDTH-1:0] bank_rdata;",
    "  reg  [ADDR_WIDTH-1:0]       bank_sel_q;",
    "",
    "  always @(posedge clk) begin",
    "    if (access && !we) bank_sel_q <= bank_sel;",
    "  end",
    "",
    "  genvar b;",
    "  generate",
    "    for (b = 0; b < BANKS; b = b + 1) begin : g_bank",
    "      reg [CODE_WIDTH-1:0] mem [0:BANK_DEPTH-1];",
    "      reg [CODE_WIDTH-1:0] q;",
    "",
    "      always @(posedge clk) begin",
    "        if (access" ++ powered ++ " && bank_sel == b) begin",
    "          if (we) mem[bank_addr] <= wdata;",
    "          else    q <= mem[bank_addr];",
    "        end",
    "      end",
    "",
    "      assign bank_rdata[b*CODE_WIDTH +: CODE_WIDTH] = q;",
    "    end",
    "  endgenerate",
    "",
    "  assign rdata = bank_rdata[bank_sel_q*CODE_WIDTH +: CODE_WIDTH];"]

/-- The clock gate: a latch that is open while the clock is low. -/
def clockGateBody : List String :=
  ["  reg en_latch;",
    "",
    "  // Transparent while clk is low.",
    "  always @(*) begin",
    "    if (!clk) en_latch = en;",
    "  end",
    "",
    "  assign gclk = clk & en_latch;"]

def checkRange (l : Ecc.Layout) : String :=
  "[" ++ Decimal.intText (l.hammingBits - 1) ++ ":0]"

/-- The encoder: check bits, then parity, check bits and data side by side. -/
def encoderBody (l : Ecc.Layout) : List String :=
  ["  wire " ++ checkRange l ++ " check;", ""]
  ++ (checkEquations l).flatMap Equation.lines
  ++ ["", "  assign code_o = \x7b^\x7bcheck, data_i\x7d, check, data_i\x7d;"]

/-- A wire of the decoder, its range padded to that of the data. -/
def decoderWire (range rest : String) : String :=
  "  wire " ++ Text.pad range (Text.units "[DATA_WIDTH-1:0]") ++ " " ++ rest

/-- A data bit is toggled when the parity is odd and the syndrome is its position. -/
def correctionLine (l : Ecc.Layout) (position j : Nat) : String :=
  "  assign " ++ bitOf "data_o" j ++ " = " ++ bitOf "data" j ++ " ^ (parity_err & (syndrome == "
    ++ Decimal.natText l.hammingBits ++ "'d" ++ Decimal.natText position ++ "));"

/-- The decoder: syndrome, flags and corrected data. -/
def decoderBody (l : Ecc.Layout) : List String :=
  [decoderWire "[DATA_WIDTH-1:0]" "data       = code_i[DATA_WIDTH-1:0];",
    decoderWire (checkRange l)
      ("check      = code_i[DATA_WIDTH +: " ++ Decimal.natText l.hammingBits ++ "];"),
    decoderWire (checkRange l) "syndrome;",
    decoderWire "" "parity_err = ^code_i;",
    ""]
  ++ (syndromeEquations l).flatMap Equation.lines
  ++ ["",
    "  assign correctable_o   = parity_err;",
    "  assign uncorrectable_o = ~parity_err & (|syndrome);",
    ""]
  ++ l.positions.mapIdx fun j position => correctionLine l position j

/-! ## Modules -/

/-- A module that encodes or decodes in a design without a layout. -/
structure MissingLayout where
  moduleName : String
deriving DecidableEq, Repr

def MissingLayout.message (e : MissingLayout) : String :=
  e.moduleName ++ ": design has no ECC layout"

/-- The layout of a design that a module asks for. -/
def Design.layoutFor (d : Design) (m : Module) : Except MissingLayout Ecc.Layout :=
  match d.ecc with
  | some l => .ok l
  | none => .error ⟨m.name⟩

def bodyLines (d : Design) (m : Module) : Except MissingLayout (List String) :=
  match m.role with
  | .top | .powerWrapper => .ok (structuralBody m)
  | .core => .ok (coreBody m)
  | .clockGate => .ok clockGateBody
  | .eccEncoder => (d.layoutFor m).map encoderBody
  | .eccDecoder => (d.layoutFor m).map decoderBody

def joinLines (lines : List String) : String := "\n".intercalate lines

def Design.moduleText (d : Design) (m : Module) : Except MissingLayout String := do
  let body ← bodyLines d m
  return joinLines (headerLines d m ++ declarationLines m ++ [""] ++ body
    ++ ["", "endmodule", "", "`default_nettype wire", ""])

/-- A file of generated text. -/
structure Artifact where
  /-- The name of the file. -/
  name : String
  /-- The module that the file holds. -/
  moduleName : String
  text : String
deriving DecidableEq, Repr, Inhabited

/-- The files of a design, one a module. -/
def Design.artifacts (d : Design) : Except MissingLayout (List Artifact) :=
  d.modules.mapM fun m => return ⟨m.name ++ ".v", m.name, ← d.moduleText m⟩

end MemoryCompiler.Rtl
