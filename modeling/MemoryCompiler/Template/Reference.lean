import MemoryCompiler.Complaint
import MemoryCompiler.Document.Json
import MemoryCompiler.Document.Yaml.Stream
import MemoryCompiler.Files.Program
import MemoryCompiler.Template

/-!
# References to configurations

A reference that ends like a document file is one; any other names a template. `resolveWith` reads what
it refers to and gives it a name: that of the template, or that of the file without its ending. The
reader of YAML is a parameter, which refuses a text by answering nothing; `resolve` uses the reader of
this library.
-/

namespace MemoryCompiler

open Files (Path Program)

/-- A record to be checked as a configuration, under its name. -/
structure ConfigSource where
  name : String
  raw : Document

/-- Why a reference leads nowhere. -/
inductive SourceError where
  | unreadable (file : String)
  | malformed (file : String)
  | template (file : String) (cause : TemplateError)
  | unknown (reference : String) (names : List String)

namespace SourceError

/-- The complaint about a reference that names no template. -/
def complaint? : SourceError → Option Complaint
  | unknown reference names =>
    some ⟨"config", .text reference, "a configuration file or one of: " ++ ", ".intercalate names⟩
  | _ => none

def message : SourceError → String
  | unreadable file => "Cannot read " ++ file
  | malformed file => "Cannot parse " ++ file
  | template file cause => cause.message file
  | unknown reference names =>
    (⟨"config", .text reference, "a configuration file or one of: " ++ ", ".intercalate names⟩ :
      Complaint).message

end SourceError

namespace ConfigSource

/-- A text without an ending, whatever the case of its ASCII letters. -/
def withoutEnding? (ending s : String) : Option String :=
  let stem := s.toList.take (s.length - ending.length)
  let last := s.toList.drop (s.length - ending.length)
  if last.map Char.toLower = ending.toList then some (String.ofList stem) else none

/-- A text without the ending of a document file. -/
def fileStem? (s : String) : Option String :=
  ((withoutEnding? ".json" s).or (withoutEnding? ".yaml" s)).or (withoutEnding? ".yml" s)

/-- What a reference means among some templates. -/
def ofTemplate (templates : TemplateSet) (reference : String) : Except SourceError ConfigSource :=
  match templates.get? reference with
  | some raw => .ok ⟨reference, raw⟩
  | none => .error (.unknown reference templates.names)

/-- The name of a file that a reference is the path of, without its ending; a reference with another
ending, or with a slash at its end, is no such path. -/
def fileName? (reference : String) : Option String := do
  let _ ← fileStem? reference
  fileStem? (Path.ofText reference).name

section reading

variable (yaml : String → Option Document)

/-- Reads the text of a file by its ending: JSON, or else YAML. -/
def documentOf? (file text : String) : Option Document :=
  if (withoutEnding? ".json" file).isSome then Document.Json.parse? text else yaml text

def readDocument (file : String) : ExceptT SourceError Program Document := do
  match ← ExceptT.lift (Program.ask (.read (.ofText file))) with
  | .error _ => throw (.unreadable file)
  | .ok text =>
    match documentOf? yaml file text with
    | some d => return d
    | none => throw (.malformed file)

/-- The templates of a file, or those that come with the compiler. -/
def loadTemplates (file? : Option String) : ExceptT SourceError Program TemplateSet := do
  match file? with
  | none => return .standard
  | some file =>
    match TemplateSet.ofDocument (← readDocument yaml file) with
    | .ok t => return t
    | .error cause => throw (.template file cause)

/-- Finds what a reference refers to. -/
def resolveWith (reference : String) (templates : Option String) :
    ExceptT SourceError Program ConfigSource := do
  match fileName? reference with
  | some stem => return ⟨stem, ← readDocument yaml reference⟩
  | none =>
    match ofTemplate (← loadTemplates yaml templates) reference with
    | .ok source => return source
    | .error e => throw e

end reading

/-- Finds what a reference refers to, with the reader of YAML in use. -/
def resolve (reference : String) (templates : Option String) :
    ExceptT SourceError Program ConfigSource :=
  resolveWith Document.Yaml.parse? reference templates

end ConfigSource

end MemoryCompiler
