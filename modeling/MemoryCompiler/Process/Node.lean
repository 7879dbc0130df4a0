import MemoryCompiler.Complaint

/-!
# Process nodes

The thirteen constants that the area, timing and power models are fitted with at one process
node, over any type of numbers: the estimates run on doubles, their laws speak of reals.
-/

namespace MemoryCompiler

/-- The constants of a process node, in the order in which override tables are checked. -/
inductive Constant where
  | bitcellArea
  | gateArea
  | leakage
  | columnCap
  | baseAccess
  | wireDelay
  | driveDelay
  | vTh
  | setupHold
  | eccStage
  | vMin
  | vMax
  | vNominal
deriving DecidableEq, Repr, Inhabited

namespace Constant

def all : List Constant :=
  [bitcellArea, gateArea, leakage, columnCap, baseAccess, wireDelay, driveDelay, vTh, setupHold,
   eccStage, vMin, vMax, vNominal]

def name : Constant → String
  | bitcellArea => "bitcell_area_um2"
  | gateArea => "gate_area_um2"
  | leakage => "leakage_mw_per_mm2"
  | columnCap => "column_cap_pf"
  | baseAccess => "base_access_ns"
  | wireDelay => "wire_delay_ns"
  | driveDelay => "drive_delay_ns_v"
  | vTh => "v_th"
  | setupHold => "setup_hold_ns"
  | eccStage => "ecc_stage_ns"
  | vMin => "v_min"
  | vMax => "v_max"
  | vNominal => "v_nominal"

theorem mem_all (c : Constant) : c ∈ all := by cases c <;> decide

end Constant

/-- The constants of one process node. -/
structure ProcessNode (α : Type) where
  /-- Area of a six-transistor bit cell, µm². -/
  bitcellArea : α
  /-- Area of a gate of the size of a two-input NAND, µm². -/
  gateArea : α
  /-- Leakage power, mW per mm² and volt of supply. -/
  leakage : α
  /-- Switched capacitance of one column in one bank, pF. -/
  columnCap : α
  /-- Access time apart from wires and drivers, ns. -/
  baseAccess : α
  /-- Delay of word and bit lines, ns per square root of the rows. -/
  wireDelay : α
  /-- Drive delay, ns times the volts above the threshold. -/
  driveDelay : α
  /-- Threshold voltage. -/
  vTh : α
  /-- Setup and hold time, ns. -/
  setupHold : α
  /-- Delay of the error-correction stage, ns. -/
  eccStage : α
  /-- The lowest supply voltage the model covers. -/
  vMin : α
  /-- The highest supply voltage the model covers. -/
  vMax : α
  /-- The nominal supply voltage. -/
  vNominal : α
deriving DecidableEq, Repr

namespace ProcessNode

def get {α : Type} (n : ProcessNode α) : Constant → α
  | .bitcellArea => n.bitcellArea
  | .gateArea => n.gateArea
  | .leakage => n.leakage
  | .columnCap => n.columnCap
  | .baseAccess => n.baseAccess
  | .wireDelay => n.wireDelay
  | .driveDelay => n.driveDelay
  | .vTh => n.vTh
  | .setupHold => n.setupHold
  | .eccStage => n.eccStage
  | .vMin => n.vMin
  | .vMax => n.vMax
  | .vNominal => n.vNominal

def ofFn {α : Type} (f : Constant → α) : ProcessNode α where
  bitcellArea := f .bitcellArea
  gateArea := f .gateArea
  leakage := f .leakage
  columnCap := f .columnCap
  baseAccess := f .baseAccess
  wireDelay := f .wireDelay
  driveDelay := f .driveDelay
  vTh := f .vTh
  setupHold := f .setupHold
  eccStage := f .eccStage
  vMin := f .vMin
  vMax := f .vMax
  vNominal := f .vNominal

/-- The node whose constants a check yields, asked for in order; the first failure wins. -/
def build {ε α : Type} (f : Constant → Except ε α) : Except ε (ProcessNode α) := do
  return {
    bitcellArea := ← f .bitcellArea
    gateArea := ← f .gateArea
    leakage := ← f .leakage
    columnCap := ← f .columnCap
    baseAccess := ← f .baseAccess
    wireDelay := ← f .wireDelay
    driveDelay := ← f .driveDelay
    vTh := ← f .vTh
    setupHold := ← f .setupHold
    eccStage := ← f .eccStage
    vMin := ← f .vMin
    vMax := ← f .vMax
    vNominal := ← f .vNominal }

def map {α β : Type} (f : α → β) (n : ProcessNode α) : ProcessNode β := ofFn fun c => f (n.get c)

@[simp] theorem get_ofFn {α : Type} (f : Constant → α) (c : Constant) : (ofFn f).get c = f c := by
  cases c <;> rfl

@[simp] theorem ofFn_get {α : Type} (n : ProcessNode α) : ofFn n.get = n := rfl

theorem ext_get {α : Type} {m n : ProcessNode α} (h : ∀ c, m.get c = n.get c) : m = n := by
  rw [← ofFn_get m, ← ofFn_get n, funext h]

theorem build_eq_ok_iff {ε α : Type} {f : Constant → Except ε α} {n : ProcessNode α} :
    build f = .ok n ↔ ∀ c, f c = .ok (n.get c) := by
  constructor
  · intro h
    simp only [build, bind_eq_ok_iff] at h
    obtain ⟨_, h1, _, h2, _, h3, _, h4, _, h5, _, h6, _, h7, _, h8, _, h9, _, h10, _, h11, _, h12, _,
      h13, hn⟩ := h
    cases hn
    intro c
    cases c <;> assumption
  · intro h
    simp only [build, h]
    rfl

end ProcessNode

end MemoryCompiler
