import MemoryCompiler.Estimate.Area
import MemoryCompiler.Estimate.Timing

/-!
# Power

Dynamic power is switched capacitance times the square of the voltage, the frequency and the
activity factor; clock gating scales it down. Static power is area times leakage density times
voltage; power gating scales it down. Retention power, in µW, is a share of the static power and
zero without retention.
-/

namespace MemoryCompiler

/-- Powers in mW, the retention power in µW, and the operating point they hold at. -/
structure PowerEstimate (α : Type) where
  dynamic : α
  static : α
  total : α
  retention : α
  activity : α
  frequency : α
deriving Repr

namespace PowerEstimate

variable {α : Type} [Add α] [Sub α] [Mul α] [Div α] [OfScientific α] [Scalar α]

open Scalar (ofCount)

/-- The bits stored for one word. -/
def storedWidth (c : Config) : Nat := c.width + (if c.eccEnable then Ecc.checkBits c.width else 0)

/-- The capacitance that switches in one cycle, pF. -/
def capacitance (c : Config) (n : ProcessNode α) : α :=
  n.columnCap * ofCount (storedWidth c) * ofCount c.banks

/-- Dynamic power at a voltage, a frequency and an activity factor. -/
def dynamicPower (c : Config) (n : ProcessNode α) (voltage frequency activity : α) : α :=
  let toggling := capacitance c n * (voltage * voltage) * frequency * activity / 1000.0
  if c.clockGating then toggling * 0.75 else toggling

/-- Static power at a voltage. -/
def staticPower (c : Config) (n : ProcessNode α) (voltage : α) : α :=
  let leaking := (AreaEstimate.ofNode c n).total * n.leakage * voltage
  if c.powerGating then leaking * 0.4 else leaking

/-- The power estimate of a configuration at a node and an operating point. -/
def ofNode (c : Config) (n : ProcessNode α) (voltage frequency activity : α) : PowerEstimate α :=
  let dynamic := dynamicPower c n voltage frequency activity
  let static := staticPower c n voltage
  { dynamic, static, total := dynamic + static
    retention := if c.retentionMode then static * 0.1 * 1000.0 else ofCount 0
    activity, frequency }

end PowerEstimate

def defaultActivity : Float := 0.1

def defaultSweep : List Float := [0.01, 0.05, 0.1, 0.2, 0.5]

def checkActivity (activity : Document) : Except EstimateError Float :=
  match activity with
  | .undefined => .ok defaultActivity
  | .number a => if a.isFinite && 0 ≤ a && a ≤ 1 then .ok a else .error (.badActivity activity)
  | _ => .error (.badActivity activity)

/-- The frequency asked for, at most the highest one; the highest where none is given. -/
def checkFrequency (c : Config) (highest : Float) (frequency : Document) :
    Except EstimateError Float :=
  let refusal : EstimateError :=
    .outOfRange ⟨"frequency_mhz", frequency, 0, highest, c.processNode, true⟩
  match frequency with
  | .undefined => .ok highest
  | .number f => if f.isFinite && 0 < f && !(highest < f) then .ok f else .error refusal
  | _ => .error refusal

/-- The power estimate under a process table. The activity is checked first, then the node, the
voltage and the frequency. -/
def Config.power (c : Config) (activity frequency : Document) (table : ProcessTable) :
    Except EstimateError (PowerEstimate Float) := do
  let a ← checkActivity activity
  let n ← c.node table
  let timing ← c.timing table
  let f ← checkFrequency c timing.maxFrequency frequency
  return PowerEstimate.ofNode c n c.voltage f a

/-- The power estimates over a list of activity factors; the first refusal wins. -/
def Config.sweep (c : Config) (factors : List Document) (frequency : Document)
    (table : ProcessTable) : Except EstimateError (List (Document × PowerEstimate Float)) :=
  factors.mapM fun a => do return (a, ← c.power a frequency table)

end MemoryCompiler
