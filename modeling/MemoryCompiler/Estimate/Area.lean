import MemoryCompiler.Config
import MemoryCompiler.Ecc.Bits
import MemoryCompiler.Estimate.Scalar
import MemoryCompiler.Process.Table

/-!
# Area

The bit-cell array plus its periphery. The periphery starts as a share of the array that grows
with the square root of the banks; error correction adds check columns and logic, power gating and
retention a share of the array each, clock gating some gates a bank, in this order.
-/

namespace MemoryCompiler

/-- Areas in mm², and the share of the array in the whole. -/
structure AreaEstimate (α : Type) where
  bitcell : α
  periphery : α
  total : α
  efficiency : α
  perBank : α
deriving Repr

namespace AreaEstimate

variable {α : Type} [Add α] [Mul α] [Div α] [OfScientific α] [Scalar α]

open Scalar (ofCount root)

/-- Gates of the error-correction logic per bit of a word. -/
def eccGatesPerBit : Nat := 14

/-- Gates of the clock gate of one bank. -/
def clockGateGates : Nat := 6

/-- Area of the bit cells in µm². -/
def bitcellArea (c : Config) (n : ProcessNode α) : α :=
  ofCount c.depth * ofCount c.width * n.bitcellArea

/-- Adds to the periphery when a feature is on. -/
def addWhen (on : Bool) (extra : α) (periphery : α) : α := if on then periphery + extra else periphery

/-- Area of the periphery in µm². -/
def peripheryArea (c : Config) (n : ProcessNode α) : α :=
  let cells := bitcellArea c n
  let banked := cells * 0.35 * root (ofCount c.banks)
  let columns := addWhen c.eccEnable
    (ofCount c.depth * ofCount (Ecc.checkBits c.width) * n.bitcellArea) banked
  let logic := addWhen c.eccEnable (ofCount c.width * ofCount eccGatesPerBit * n.gateArea) columns
  let switches := addWhen c.powerGating (cells * 0.04) logic
  let bias := addWhen c.retentionMode (cells * 0.02) switches
  addWhen c.clockGating (ofCount c.banks * ofCount clockGateGates * n.gateArea) bias

/-- The area estimate of a configuration at a node. -/
def ofNode (c : Config) (n : ProcessNode α) : AreaEstimate α :=
  let bitcell := bitcellArea c n / 1e6
  let periphery := peripheryArea c n / 1e6
  let total := bitcell + periphery
  { bitcell, periphery, total, efficiency := bitcell / total, perBank := total / ofCount c.banks }

end AreaEstimate

def Config.area (c : Config) (table : ProcessTable) : Except UnknownNode (AreaEstimate Float) :=
  (table.lookup c.processNode).map (AreaEstimate.ofNode c)

end MemoryCompiler
