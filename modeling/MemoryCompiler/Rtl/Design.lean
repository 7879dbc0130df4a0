import MemoryCompiler.Config.Label
import MemoryCompiler.Rtl.Netlist

/-!
# The design of a configuration

`Config.design` decides which modules a configuration needs and how they are wired: the top level,
the array core, and for each feature that is on a power wrapper, a clock gate, an encoder and a
decoder. Inside the top level the array reads and writes code words on the nets `wcode` and
`rcode`; without check bits these are the data themselves.
-/

namespace MemoryCompiler

namespace Rtl

-- Powers are those of the core library, also where another instance is in scope.
attribute [local instance (high)] instPowNat

/-- Whether addresses of `w` bits reach `depth` words. -/
def reaches (depth w : Nat) : Bool := depth ≤ 2 ^ w

/-- The width of an address, searched from zero on, but one at least. -/
def addrWidth (depth : Int) : Nat :=
  max 1 (leastFrom (reaches depth.toNat) (Nat.log2 depth.toNat + 1) 0)

def input (name : String) : Port := ⟨name, .input, 1, none⟩

def output (name : String) : Port := ⟨name, .output, 1, none⟩

/-- An input whose width is a parameter. -/
def inputBus (name : String) (width : Nat) (param : String) : Port :=
  ⟨name, .input, width, some param⟩

/-- An output whose width is a parameter. -/
def outputBus (name : String) (width : Nat) (param : String) : Port :=
  ⟨name, .output, width, some param⟩

def wholeParam (name : String) (n : Nat) : Param := ⟨name, .whole n⟩

/-- Hands each parameter down under its own name. -/
def passParams (params : List Param) : List Setting := params.map fun p => ⟨p.name, p.name⟩

/-- Connects each port to the net of its own name. -/
def passPorts (ports : List Port) : List Connection := ports.map fun p => ⟨p.name, p.name⟩

end Rtl

namespace Config

open Rtl

/-- The layout of the code words, if there are check bits. -/
def eccLayout (c : Config) : Option Ecc.Layout :=
  if c.eccEnable then some (Ecc.Layout.ofWidth c.width) else none

def eccBits (c : Config) : Nat := (c.eccLayout.map Ecc.Layout.checkBits).getD 0

def codeWidth (c : Config) : Nat := c.width + c.eccBits

def addrWidth (c : Config) : Nat := Rtl.addrWidth c.depth

def bankDepth (c : Config) : ParamValue := ParamValue.quotient c.depth c.banks

/-! ## The array -/

/-- The parameters of the core and of its power wrapper. -/
def arrayParams (c : Config) : List Param :=
  [wholeParam "DEPTH" c.depth, wholeParam "ADDR_WIDTH" c.addrWidth,
    wholeParam "CODE_WIDTH" c.codeWidth, wholeParam "BANKS" c.banks, ⟨"BANK_DEPTH", c.bankDepth⟩]

/-- The ports of the core and of its power wrapper, which differ in how they see the power of the
banks. -/
def arrayPorts (c : Config) (powerPorts : List Port) : List Port :=
  [input "clk", input "ce", input "we", inputBus "addr" c.addrWidth "ADDR_WIDTH",
    inputBus "wdata" c.codeWidth "CODE_WIDTH", outputBus "rdata" c.codeWidth "CODE_WIDTH"]
  ++ powerPorts ++ (if c.retentionMode then [input "ret_en"] else [])

/-- The array of bit cells. -/
def coreModule (c : Config) : Module where
  name := c.baseName ++ "_core"
  role := .core
  params := c.arrayParams
  ports := c.arrayPorts (if c.powerGating then [inputBus "bank_en" c.banks "BANKS"] else [])

/-- The wrapper that turns the banks put to sleep off. -/
def powerWrapper (c : Config) : Module where
  name := c.baseName ++ "_pg_wrap"
  role := .powerWrapper
  params := c.arrayParams
  ports := c.arrayPorts [inputBus "sleep" c.banks "BANKS"]
  nets := [⟨"bank_en", c.banks, some "BANKS"⟩]
  assigns := [⟨"bank_en", "~sleep"⟩]
  instances := [{
    moduleName := c.coreModule.name
    name := "u_core"
    params := passParams c.arrayParams
    connections := passPorts c.coreModule.ports }]

/-- The module that the top level uses as its array. -/
def arrayModule (c : Config) : Module := if c.powerGating then c.powerWrapper else c.coreModule

/-! ## Clock gate, encoder and decoder -/

/-- The gate in front of the clock of the array. -/
def clockGate (c : Config) : Module where
  name := c.baseName ++ "_cg"
  role := .clockGate
  params := []
  ports := [input "clk", input "en", output "gclk"]

def eccParams (c : Config) : List Param :=
  [wholeParam "DATA_WIDTH" c.width, wholeParam "CHECK_BITS" c.eccBits,
    wholeParam "CODE_WIDTH" c.codeWidth]

/-- The encoder of written words. -/
def eccEncoder (c : Config) : Module where
  name := c.baseName ++ "_ecc_enc"
  role := .eccEncoder
  params := c.eccParams
  ports := [inputBus "data_i" c.width "DATA_WIDTH", outputBus "code_o" c.codeWidth "CODE_WIDTH"]

/-- The decoder of read words. -/
def eccDecoder (c : Config) : Module where
  name := c.baseName ++ "_ecc_dec"
  role := .eccDecoder
  params := c.eccParams
  ports := [inputBus "code_i" c.codeWidth "CODE_WIDTH", outputBus "data_o" c.width "DATA_WIDTH",
    output "correctable_o", output "uncorrectable_o"]

/-! ## The top level -/

def topParams (c : Config) : List Param :=
  [wholeParam "DEPTH" c.depth, wholeParam "ADDR_WIDTH" c.addrWidth, wholeParam "DATA_WIDTH" c.width,
    wholeParam "CODE_WIDTH" c.codeWidth, wholeParam "BANKS" c.banks, ⟨"BANK_DEPTH", c.bankDepth⟩]
  ++ (if c.eccEnable then [wholeParam "CHECK_BITS" c.eccBits] else [])

def topPorts (c : Config) : List Port :=
  [input "clk", input "ce", input "we", inputBus "addr" c.addrWidth "ADDR_WIDTH",
    inputBus "wdata" c.width "DATA_WIDTH", outputBus "rdata" c.width "DATA_WIDTH"]
  ++ (if c.powerGating then [inputBus "sleep" c.banks "BANKS"] else [])
  ++ (if c.retentionMode then [input "ret_en"] else [])
  ++ (if c.eccEnable then [output "ecc_correctable", output "ecc_uncorrectable"] else [])

def topNets (c : Config) : List Net :=
  [⟨"wcode", c.codeWidth, some "CODE_WIDTH"⟩, ⟨"rcode", c.codeWidth, some "CODE_WIDTH"⟩]
  ++ (if c.clockGating then [⟨"gclk", 1, none⟩] else [])

/-- The clock gate lets the clock through while the memory is accessed. -/
def clockGateInstance (c : Config) : Instance where
  moduleName := c.clockGate.name
  name := "u_cg"
  params := []
  connections := [⟨"clk", "clk"⟩, ⟨"en", if c.retentionMode then "ce & ~ret_en" else "ce"⟩,
    ⟨"gclk", "gclk"⟩]

def arrayWire (c : Config) (port : String) : String :=
  if port = "clk" then (if c.clockGating then "gclk" else "clk")
  else if port = "wdata" then "wcode"
  else if port = "rdata" then "rcode"
  else port

/-- The array works on code words. -/
def arrayInstance (c : Config) : Instance where
  moduleName := c.arrayModule.name
  name := if c.powerGating then "u_pg" else "u_core"
  params := passParams c.arrayParams
  connections := c.arrayModule.ports.map fun p => ⟨p.name, c.arrayWire p.name⟩

def encoderInstance (c : Config) : Instance where
  moduleName := c.eccEncoder.name
  name := "u_ecc_enc"
  params := passParams c.eccParams
  connections := [⟨"data_i", "wdata"⟩, ⟨"code_o", "wcode"⟩]

def decoderInstance (c : Config) : Instance where
  moduleName := c.eccDecoder.name
  name := "u_ecc_dec"
  params := passParams c.eccParams
  connections := [⟨"code_i", "rcode"⟩, ⟨"data_o", "rdata"⟩,
    ⟨"correctable_o", "ecc_correctable"⟩, ⟨"uncorrectable_o", "ecc_uncorrectable"⟩]

/-- The top level. -/
def topModule (c : Config) : Module where
  name := c.baseName
  role := .top
  params := c.topParams
  ports := c.topPorts
  nets := c.topNets
  assigns := if c.eccEnable then [] else [⟨"wcode", "wdata"⟩, ⟨"rdata", "rcode"⟩]
  instances :=
    (if c.clockGating then [c.clockGateInstance] else [])
    ++ (if c.eccEnable then [c.encoderInstance] else [])
    ++ [c.arrayInstance]
    ++ (if c.eccEnable then [c.decoderInstance] else [])

/-! ## The whole -/

def modules (c : Config) : List Module :=
  [c.topModule, c.coreModule]
  ++ (if c.powerGating then [c.powerWrapper] else [])
  ++ (if c.clockGating then [c.clockGate] else [])
  ++ (if c.eccEnable then [c.eccEncoder, c.eccDecoder] else [])

/-- The design of a configuration. -/
def design (c : Config) : Design where
  config := c
  baseName := c.baseName
  fingerprint := c.fingerprint
  addrWidth := c.addrWidth
  bankDepth := c.bankDepth
  codeWidth := c.codeWidth
  ecc := c.eccLayout
  modules := c.modules

end Config

end MemoryCompiler
