import MemoryCompiler.Config.Label
import MemoryCompiler.Decimal.Fixed
import MemoryCompiler.Report.Summary
import MemoryCompiler.Report.Table

/-!
# Comparison reports

Several configurations side by side: their fields, their power and their area and speed, one row a
configuration in each of three tables.
-/

namespace MemoryCompiler.Report

open Decimal (fixed natText)

/-- A summary under the name of its configuration. -/
structure ComparisonRow where
  name : String
  summary : Summary

namespace ComparisonRow

/-- The row as a record: the name, then the fields of the summary. -/
def toDocument (r : ComparisonRow) : Document :=
  .record (("config_name", .text r.name) :: (r.summary.toDocument.fields?.getD []))

def configCells (r : ComparisonRow) : List String :=
  let c := r.summary.config
  [r.name, natText c.depth, natText c.width, natText c.banks, Decimal.text c.voltage ++ "V",
    natText c.processNode ++ "nm", ", ".intercalate c.featureTags]

def powerCells (r : ComparisonRow) : List String :=
  let p := r.summary.power
  [r.name, fixed 3 p.dynamic, fixed 3 p.static, fixed 3 p.total, fixed 1 p.retention]

def areaCells (r : ComparisonRow) : List String :=
  let a := r.summary.area
  let t := r.summary.timing
  [r.name, fixed 4 a.total, fixed 1 (a.efficiency * 100), fixed 2 t.access, fixed 1 t.maxFrequency]

end ComparisonRow

def configTable (rows : List ComparisonRow) : Table where
  headers := ["Config", "Depth", "Width", "Banks", "Voltage", "Process", "Power Features"]
  rows := rows.map ComparisonRow.configCells

def powerTable (rows : List ComparisonRow) : Table where
  headers := ["Config", "Dynamic Power (mW)", "Static Power (mW)", "Total Power (mW)",
    "Retention Power (µW)"]
  rows := rows.map ComparisonRow.powerCells

def areaTable (rows : List ComparisonRow) : Table where
  headers := ["Config", "Total Area (mm²)", "Area Efficiency (%)", "Access Time (ns)",
    "Max Frequency (MHz)"]
  rows := rows.map ComparisonRow.areaCells

def comparison (rows : List ComparisonRow) : String :=
  documentText
    (["# SRAM Configuration Comparison Report", "", "## Configuration Summary", ""]
      ++ (configTable rows).lines ++ ["", "## Power Comparison", ""]
      ++ (powerTable rows).lines ++ ["", "## Area Comparison", ""]
      ++ (areaTable rows).lines)

end MemoryCompiler.Report
