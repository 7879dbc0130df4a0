import MemoryCompiler.Estimate.Power

/-!
# Summaries

A summary gathers the estimates of one configuration. The estimates are also written as records,
field by field in a fixed order, for the analysis files.
-/

namespace MemoryCompiler

def AreaEstimate.toDocument (a : AreaEstimate Float) : Document :=
  .record [("bitcell_area_mm2", .number a.bitcell), ("periphery_area_mm2", .number a.periphery),
    ("total_area_mm2", .number a.total), ("area_efficiency", .number a.efficiency),
    ("bank_area_mm2", .number a.perBank)]

def TimingEstimate.toDocument (t : TimingEstimate Float) : Document :=
  .record [("access_time_ns", .number t.access), ("cycle_time_ns", .number t.cycle),
    ("max_frequency_mhz", .number t.maxFrequency)]

def PowerEstimate.toDocument (p : PowerEstimate Float) : Document :=
  .record [("dynamic_power_mw", .number p.dynamic), ("static_power_mw", .number p.static),
    ("total_power_mw", .number p.total), ("retention_power_uw", .number p.retention),
    ("activity_factor", .number p.activity), ("frequency_mhz", .number p.frequency)]

/-- A configuration with its estimates. -/
structure Summary where
  config : Config
  area : AreaEstimate Float
  timing : TimingEstimate Float
  power : PowerEstimate Float

namespace Summary

def toDocument (s : Summary) : Document :=
  .record [("configuration", s.config.toDocument), ("area", s.area.toDocument),
    ("timing", s.timing.toDocument), ("power", s.power.toDocument)]

end Summary

namespace Config

/-- The area estimate, refused as the other estimates are. -/
def areaEstimate (c : Config) (table : ProcessTable) :
    Except EstimateError (AreaEstimate Float) := do
  let n ← c.node table
  return AreaEstimate.ofNode c n

/-- The estimates of a configuration at its highest frequency; area, timing and power are asked
for in this order. -/
def summarize (c : Config) (activity : Document) (table : ProcessTable) :
    Except EstimateError Summary := do
  return {
    config := c
    area := ← c.areaEstimate table
    timing := ← c.timing table
    power := ← c.power activity .undefined table }

def areaTimingAnalysis (c : Config) (table : ProcessTable) : Except EstimateError Document := do
  let area ← c.areaEstimate table
  let timing ← c.timing table
  return .record [("area", area.toDocument), ("timing", timing.toDocument)]

/-- The power estimates over some activity factors as a record, one field a factor; a factor that
comes again keeps its first place. -/
def powerAnalysis (c : Config) (table : ProcessTable) (factors : List Document) :
    Except EstimateError Document := do
  let entries ← factors.mapM fun a => do
    let p ← c.power a .undefined table
    return ("activity_" ++ a.plain, p.toDocument)
  return .ofFields entries

end Config

end MemoryCompiler
