/-!
# Options of the command line

`Options.ofArguments` reads the words of a command line. Every option stands on its own, so their
order does not matter, except that the names to compare go on to the next word with two dashes, the
short word for help included; of an option that is repeated the last one counts.
-/

namespace MemoryCompiler.CommandLine

/-- What a command line asks for. -/
structure Options where
  /-- The reference of the configuration to compile. -/
  config : Option String := none
  output : String := "output"
  generateVerilog : Bool := false
  powerAnalysis : Bool := false
  areaAnalysis : Bool := false
  diagram : Bool := false
  /-- The references of configurations to compare. -/
  compare : Option (List String) := none
  listConfigs : Bool := false
  /-- The templates document; the compiler's own if none is given. -/
  templates : Option String := none
  /-- The document with overrides of the process table. -/
  tech : Option String := none
  help : Bool := false
deriving DecidableEq, Repr

/-- The text that explains the options. -/
def usage : String :=
  "\n".intercalate [
    "Usage: sram-compiler [options]",
    "  --config <name|file>     template name or .json/.yaml configuration file",
    "  --output <dir>           output directory (default: output)",
    "  --generate-verilog       write RTL to <output>/verilog",
    "  --power-analysis         write power_analysis.json over the activity sweep",
    "  --area-analysis          write area_timing_analysis.json",
    "  --diagram                write <name>_diagram.svg",
    "  --compare <names...>     write comparison_report.json and .md",
    "  --list-configs           list the available templates",
    "  --templates <file>       templates document (default: config/sram_configs.yaml)",
    "  --tech <file>            process-node overrides merged into the built-in table"]

/-- Why a command line is refused. -/
inductive UsageError where
  | missingValue (option : String)
  | nothingToCompare
  | unknownArgument (argument : String)
  | nothingToDo

def UsageError.message (e : UsageError) : String :=
  let sentence := match e with
    | missingValue option => option ++ " expects a value"
    | nothingToCompare => "--compare expects at least one configuration"
    | unknownArgument argument => "Unknown argument '" ++ argument ++ "'"
    | nothingToDo => "Specify a configuration with --config or a set with --compare"
  sentence ++ "\n" ++ usage

namespace Options

/-- Words that start with two dashes are options, never values. -/
def isOption (word : String) : Bool :=
  match word.toList with
  | '-' :: '-' :: _ => true
  | _ => false

def setSwitch? (o : Options) (word : String) : Option Options :=
  match word with
  | "--generate-verilog" => some { o with generateVerilog := true }
  | "--power-analysis" => some { o with powerAnalysis := true }
  | "--area-analysis" => some { o with areaAnalysis := true }
  | "--diagram" => some { o with diagram := true }
  | "--list-configs" => some { o with listConfigs := true }
  | "--help" => some { o with help := true }
  | "-h" => some { o with help := true }
  | _ => none

def setValue? (o : Options) (word value : String) : Option Options :=
  match word with
  | "--config" => some { o with config := some value }
  | "--output" => some { o with output := value }
  | "--templates" => some { o with templates := some value }
  | "--tech" => some { o with tech := some value }
  | _ => none

def takesValue (word : String) : Bool := (setValue? {} word "").isSome

/-- Reads words on top of the options before them. -/
def read (o : Options) : List String → Except UsageError Options
  | [] => .ok o
  | word :: rest =>
    if word = "--compare" then
      match rest.takeWhile fun w => !isOption w with
      | [] => .error .nothingToCompare
      | names => read { o with compare := some names } (rest.dropWhile fun w => !isOption w)
    else
      match setSwitch? o word with
      | some o => read o rest
      | none =>
        if takesValue word then
          match rest with
          | value :: rest =>
            if isOption value then .error (.missingValue word)
            else read ((setValue? o word value).getD o) rest
          | [] => .error (.missingValue word)
        else .error (.unknownArgument word)
termination_by words => words.length
decreasing_by
  · have := (List.dropWhile_suffix (fun w => !isOption w) (l := rest)).length_le
    simp only [List.length_cons]; omega
  · simp
  · simp only [List.length_cons]; omega

/-- Reads the words of a command line. -/
def ofArguments (words : List String) : Except UsageError Options := read {} words

end Options

end MemoryCompiler.CommandLine
