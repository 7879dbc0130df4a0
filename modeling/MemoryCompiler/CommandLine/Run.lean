import MemoryCompiler.CommandLine.Options
import MemoryCompiler.Config.Check
import MemoryCompiler.Diagram.Block
import MemoryCompiler.Diagram.StyleSheet
import MemoryCompiler.Process.Override
import MemoryCompiler.Report.Comparison
import MemoryCompiler.Report.Design
import MemoryCompiler.Rtl.Publication
import MemoryCompiler.Template.Reference

/-!
# Runs of the compiler

A run does what its options ask for and answers the files it wrote, in order: the help, the list of
templates, a comparison, or the files of one configuration. Every estimate and check of a run uses
one process table, the built-in one with the overrides merged in.
-/

namespace MemoryCompiler.CommandLine

open Files (Fault Path Program)

/-- Why a run failed. -/
inductive Failure where
  | usage (cause : UsageError)
  | source (cause : SourceError)
  | override (cause : OverrideError)
  | config (cause : ConfigError)
  | estimate (cause : EstimateError)
  | layout (cause : Rtl.MissingLayout)
  | publication (cause : Rtl.PublicationError)
  | file (cause : Fault)

def Failure.message : Failure → String
  | usage e => e.message
  | source e => e.message
  | override e => e.complaint.message
  | config e => e.complaint.message
  | estimate e => e.message
  | layout e => e.message
  | publication e => e.message
  | file e => e.text

/-- What a run depends on beside its options. -/
structure Environment where
  log : Log.Threshold
  /-- Places the boxes of a diagram. -/
  layouter : Diagram.PlacementRequest → Diagram.Placement
  /-- Reads a text in YAML, or answers nothing. -/
  yaml : String → Option Document := Document.Yaml.parse?
  /-- Checks a record against the schema of a configuration. -/
  check : List (String × Document) → Except (List SchemaIssue) Config := Config.checkSchema

/-- A program that may fail. -/
abbrev Job := ExceptT Failure Program

namespace Job

/-- Goes on with a value that may be an error. -/
def check {ε α : Type} (cause : ε → Failure) (value : Except ε α) : Job α :=
  ExceptT.mk (pure (value.mapError cause))

/-- Goes on with the result of a program that may be an error. -/
def attempt {ε α : Type} (cause : ε → Failure) (program : Program (Except ε α)) : Job α :=
  ExceptT.mk do return (← program).mapError cause

def print (text : String) : Job Unit :=
  ExceptT.lift (Program.ask (.print ⟨.output, [text]⟩))

/-- Tells how the run goes on. -/
def tell (e : Environment) (text : String) : Job Unit :=
  ExceptT.lift (Program.log e.log "cli" .info [text])

/-- Writes a file of the output directory under a heading and answers its path. -/
def writeFile (o : Options) (name text : String) : Job Path := do
  let path := (Path.ofText o.output).join name
  attempt .file (Program.ask (.write path text))
  return path

end Job

open Job

/-- A document as the text of a file. -/
def fileText (d : Document) : String := d.indented ++ "\n"

def processTable (e : Environment) (o : Options) : Job ProcessTable := do
  match o.tech with
  | some file =>
    if file = "" then return .standard
    else
      let overrides ← attempt .source (ConfigSource.readDocument e.yaml file).run
      let table ← check .override (ProcessTable.standard.merge overrides)
      tell e ("process table: " ++ file)
      return table
  | none => return .standard

/-- Prints the templates. -/
def listConfigs (e : Environment) (o : Options) : Job Unit := do
  print "Available configurations:"
  let templates ← attempt .source (ConfigSource.loadTemplates e.yaml o.templates).run
  templates.lines.forM fun line => print ("  " ++ line)

def comparisonRow (e : Environment) (o : Options) (table : ProcessTable) (reference : String) :
    Job Report.ComparisonRow := do
  let source ← attempt .source (ConfigSource.resolveWith e.yaml reference o.templates).run
  let c ← check .config (Config.ofDocumentWith e.check source.raw table)
  return ⟨source.name, ← check .estimate (c.summarize .undefined table)⟩

def writeComparison (e : Environment) (o : Options) (table : ProcessTable)
    (references : List String) : Job (List Path) := do
  let rows ← references.mapM (comparisonRow e o table)
  let json ← writeFile o "comparison_report.json"
    (fileText (.list (rows.map Report.ComparisonRow.toDocument)))
  let markdown ← writeFile o "comparison_report.md" (Report.comparison rows)
  tell e ("comparison report: " ++ json.text)
  return [json, markdown]

def writeVerilog (e : Environment) (o : Options) (c : Config) : Job (List Path) := do
  let directory := (Path.ofText o.output).join "verilog"
  let artifacts ← check .layout c.design.artifacts
  let names ← attempt .publication (Rtl.publish e.log directory artifacts)
  tell e ("verilog: " ++ Decimal.natText names.length ++ " module(s) in " ++ directory.text)
  return names.map directory.join

def writePowerAnalysis (e : Environment) (o : Options) (c : Config) (table : ProcessTable) :
    Job (List Path) := do
  let analysis ← check .estimate (c.powerAnalysis table (defaultSweep.map .number))
  let path ← writeFile o "power_analysis.json" (fileText analysis)
  tell e ("power analysis: " ++ path.text)
  return [path]

def writeAreaAnalysis (e : Environment) (o : Options) (c : Config) (table : ProcessTable) :
    Job (List Path) := do
  let analysis ← check .estimate (c.areaTimingAnalysis table)
  let path ← writeFile o "area_timing_analysis.json" (fileText analysis)
  tell e ("area and timing analysis: " ++ path.text)
  return [path]

def writeDiagram (e : Environment) (o : Options) (name : String) (c : Config) :
    Job (List Path) := do
  let placement := e.layouter (Diagram.blockRequest c.design)
  let path ← writeFile o (name ++ "_diagram.svg")
    (Diagram.blockSvg c.design Diagram.styleSheet placement)
  tell e ("block diagram: " ++ path.text)
  return [path]

def writeReport (o : Options) (name : String) (c : Config) (table : ProcessTable) :
    Job (List Path) := do
  let summary ← check .estimate (c.summarize .undefined table)
  return [← writeFile o (name ++ "_report.md") (Report.designReport name summary)]

/-- The paths of an action that an option asks for. -/
def onlyIf (asked : Bool) (action : Job (List Path)) : Job (List Path) :=
  if asked then action else return []

def compileConfig (e : Environment) (o : Options) (table : ProcessTable) (reference : String) :
    Job (List Path) := do
  let source ← attempt .source (ConfigSource.resolveWith e.yaml reference o.templates).run
  let c ← check .config (Config.ofDocumentWith e.check source.raw table)
  let verilog ← onlyIf o.generateVerilog (writeVerilog e o c)
  let power ← onlyIf o.powerAnalysis (writePowerAnalysis e o c table)
  let area ← onlyIf o.areaAnalysis (writeAreaAnalysis e o c table)
  let diagram ← onlyIf o.diagram (writeDiagram e o source.name c)
  let report ← writeReport o source.name c table
  tell e ("compilation complete, output in " ++ o.output)
  return verilog ++ power ++ area ++ diagram ++ report

/-- Does what the options ask for. -/
def perform (e : Environment) (o : Options) : Job (List Path) := do
  if o.help then
    print usage
    return []
  else if o.listConfigs then
    listConfigs e o
    return []
  else
    let table ← processTable e o
    attempt .file (Program.ask (.makeDirectories (Path.ofText o.output)))
    match o.compare, o.config with
    | some references, _ => writeComparison e o table references
    | none, some reference =>
      if reference = "" then throw (.usage .nothingToDo)
      else compileConfig e o table reference
    | none, none => throw (.usage .nothingToDo)

/-- Runs a command line and answers the files it wrote. -/
def run (e : Environment) (arguments : List String) : Program (Except Failure (List Path)) :=
  ExceptT.run do
    let o ← check .usage (Options.ofArguments arguments)
    perform e o

end MemoryCompiler.CommandLine
