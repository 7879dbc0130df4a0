import MemoryCompiler.Complaint

/-!
# Configurations

The nine fields that describe one memory: its geometry, its operating point and four optional
features.
-/

namespace MemoryCompiler

/-- The fields of a configuration, in the order in which they are checked and listed. -/
inductive ConfigField where
  | depth
  | width
  | banks
  | voltage
  | processNode
  | powerGating
  | clockGating
  | retentionMode
  | eccEnable
deriving DecidableEq, Repr, Inhabited

namespace ConfigField

def all : List ConfigField :=
  [depth, width, banks, voltage, processNode, powerGating, clockGating, retentionMode, eccEnable]

def name : ConfigField → String
  | depth => "depth"
  | width => "width"
  | banks => "banks"
  | voltage => "voltage"
  | processNode => "process_node"
  | powerGating => "power_gating"
  | clockGating => "clock_gating"
  | retentionMode => "retention_mode"
  | eccEnable => "ecc_enable"

theorem mem_all (f : ConfigField) : f ∈ all := by cases f <;> decide

end ConfigField

/-- One memory configuration. -/
structure Config where
  /-- Number of words. -/
  depth : Nat
  /-- Bits per word. -/
  width : Nat
  banks : Nat
  /-- Supply voltage in volts. -/
  voltage : Float
  /-- Process node in nanometres. -/
  processNode : Nat
  powerGating : Bool
  clockGating : Bool
  retentionMode : Bool
  eccEnable : Bool
deriving DecidableEq, Repr

namespace Config

def get (c : Config) : ConfigField → Document
  | .depth => .ofNat c.depth
  | .width => .ofNat c.width
  | .banks => .ofNat c.banks
  | .voltage => .number c.voltage
  | .processNode => .ofNat c.processNode
  | .powerGating => .boolean c.powerGating
  | .clockGating => .boolean c.clockGating
  | .retentionMode => .boolean c.retentionMode
  | .eccEnable => .boolean c.eccEnable

/-- The configuration as a record with all nine fields. -/
def toDocument (c : Config) : Document :=
  .record (ConfigField.all.map fun f => (f.name, c.get f))

end Config

end MemoryCompiler
