import MemoryCompiler.Decimal.Fixed
import MemoryCompiler.Report.Summary
import MemoryCompiler.Report.Table
import MemoryCompiler.Rtl.Design

/-!
# Design reports

The report of one configuration: its fields, its estimates and the modules generated for it.
-/

namespace MemoryCompiler.Report

open Decimal (fixed natText)

/-- A switch in words. -/
def yesNo (on : Bool) : String := if on then "yes" else "no"

def fieldTable (c : Config) : Table where
  headers := ["Parameter", "Value"]
  rows := [
    ["Depth", natText c.depth ++ " words"],
    ["Width", natText c.width ++ " bits"],
    ["Banks", natText c.banks],
    ["Voltage", Decimal.text c.voltage ++ " V"],
    ["Process", natText c.processNode ++ " nm"],
    ["Power gating", yesNo c.powerGating],
    ["Clock gating", yesNo c.clockGating],
    ["Retention", yesNo c.retentionMode],
    ["ECC", if c.eccEnable then "yes (" ++ natText (c.codeWidth - c.width) ++ " check bits)"
      else "no"]]

def areaMetrics (a : AreaEstimate Float) : Table where
  headers := ["Metric", "Value"]
  rows := [
    ["Bit-cell area (mm²)", fixed 4 a.bitcell],
    ["Periphery area (mm²)", fixed 4 a.periphery],
    ["Total area (mm²)", fixed 4 a.total],
    ["Area per bank (mm²)", fixed 4 a.perBank],
    ["Area efficiency (%)", fixed 1 (a.efficiency * 100)]]

def timingMetrics (t : TimingEstimate Float) : Table where
  headers := ["Metric", "Value"]
  rows := [
    ["Access time (ns)", fixed 2 t.access],
    ["Cycle time (ns)", fixed 2 t.cycle],
    ["Max frequency (MHz)", fixed 1 t.maxFrequency]]

def powerMetrics (p : PowerEstimate Float) : Table where
  headers := ["Metric", "Value"]
  rows := [
    ["Dynamic power (mW)", fixed 3 p.dynamic],
    ["Static power (mW)", fixed 3 p.static],
    ["Total power (mW)", fixed 3 p.total],
    ["Retention power (µW)", fixed 1 p.retention]]

/-- A heading between empty lines. -/
def heading (title : String) : List String := ["", "## " ++ title, ""]

/-- The report of a summary under a name. -/
def designReport (name : String) (s : Summary) : String :=
  documentText
    (["# SRAM Design Report: " ++ name, "", s.config.label]
      ++ heading "Configuration" ++ (fieldTable s.config).lines
      ++ heading "Area" ++ (areaMetrics s.area).lines
      ++ heading "Timing" ++ (timingMetrics s.timing).lines
      ++ heading ("Power (activity " ++ Decimal.text s.power.activity ++ ", "
        ++ fixed 1 s.power.frequency ++ " MHz)") ++ (powerMetrics s.power).lines
      ++ heading "Modules"
      ++ s.config.modules.map fun m => "- `" ++ m.name ++ "` (" ++ m.role.name ++ ")")

end MemoryCompiler.Report
