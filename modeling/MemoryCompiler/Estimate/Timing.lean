import MemoryCompiler.Config
import MemoryCompiler.Estimate.Scalar
import MemoryCompiler.Process.Table

/-!
# Timing

An access takes a base time, the delay of the lines, which grows with the square root of the rows
of a bank, and a drive delay, which shrinks with the voltage above the threshold. A cycle adds
setup and hold, and the stages of error correction and clock gating. The model covers a window of
supply voltages only.
-/

namespace MemoryCompiler

/-- Times in ns and the highest frequency in MHz. -/
structure TimingEstimate (α : Type) where
  access : α
  cycle : α
  maxFrequency : α
deriving Repr

namespace TimingEstimate

variable {α : Type} [Add α] [Sub α] [Mul α] [Div α] [OfScientific α] [Scalar α]

open Scalar (ofCount root)

def accessTime (c : Config) (n : ProcessNode α) (voltage : α) : α :=
  n.baseAccess + n.wireDelay * root (ofCount c.depth / ofCount c.banks)
    + n.driveDelay / (voltage - n.vTh)

def cycleTime (c : Config) (n : ProcessNode α) (voltage : α) : α :=
  let held := accessTime c n voltage + n.setupHold
  let corrected := if c.eccEnable then held + n.eccStage else held
  if c.clockGating then corrected + 0.02 else corrected

/-- The timing estimate of a configuration at a node and a supply voltage. -/
def ofNode (c : Config) (n : ProcessNode α) (voltage : α) : TimingEstimate α :=
  let cycle := cycleTime c n voltage
  { access := accessTime c n voltage, cycle, maxFrequency := 1000.0 / cycle }

end TimingEstimate

/-- An operating point outside the window of the model. -/
structure RangeError where
  quantity : String
  value : Document
  low : Float
  high : Float
  processNode : Nat
  /-- The lower bound itself is outside. -/
  lowExcluded : Bool

def RangeError.message (e : RangeError) : String :=
  e.quantity ++ " " ++ e.value.shown ++ " is outside the supported range "
    ++ (if e.lowExcluded then "(" else "[") ++ Decimal.text e.low ++ ", " ++ Decimal.text e.high
    ++ "] for the " ++ nodeText e.processNode ++ "nm model"

/-- Why an estimate is refused. -/
inductive EstimateError where
  | unknownNode (cause : UnknownNode)
  | outOfRange (cause : RangeError)
  | badActivity (value : Document)

def EstimateError.message : EstimateError → String
  | unknownNode e => e.complaint.message
  | outOfRange e => e.message
  | badActivity value => "Activity factor " ++ value.shown ++ " is outside [0, 1]"

/-- Refuses a supply voltage outside the window of the node. -/
def Config.checkVoltage (c : Config) (n : ProcessNode Float) : Except EstimateError Unit :=
  if c.voltage < n.vMin || n.vMax < c.voltage then
    .error (.outOfRange ⟨"voltage", .number c.voltage, n.vMin, n.vMax, c.processNode, false⟩)
  else .ok ()

/-- The constants of the node of a configuration. -/
def Config.node (c : Config) (table : ProcessTable) : Except EstimateError (ProcessNode Float) :=
  match table.lookup c.processNode with
  | .ok n => .ok n
  | .error e => .error (.unknownNode e)

/-- The timing estimate under a process table. -/
def Config.timing (c : Config) (table : ProcessTable) :
    Except EstimateError (TimingEstimate Float) := do
  let n ← c.node table
  c.checkVoltage n
  return TimingEstimate.ofNode c n c.voltage

end MemoryCompiler
