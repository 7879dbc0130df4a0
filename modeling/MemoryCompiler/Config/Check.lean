import MemoryCompiler.Config.Schema
import MemoryCompiler.Process.Table

/-!
# Checking configurations

`Config.ofDocument` accepts a record whose nine fields keep their rules, that has no other field,
whose banks divide its depth and whose process node the table covers. The first violation is
reported, in that order; the four features default to off.

The check of the schema, which reports all the issues of a record, is a parameter of
`Config.ofDocumentWith`: the first issue is turned into a refusal, and without one the rules between
fields are checked. `Config.checkSchema` is the check in use.
-/

namespace MemoryCompiler

/-- Why a value is refused as a configuration. -/
inductive ConfigError where
  | notARecord (value : Document)
  | badValue (field : ConfigField) (value : Document)
  | tooLarge (field : ConfigField) (maximum : Nat) (value : Document)
  | unknownField (name : String) (value : Document)
  | noIssue (value : Document)
  | banksExceedDepth (banks depth : Nat)
  | banksUneven (banks depth : Nat)
  | unknownNode (cause : UnknownNode)

/-- What each field has to be. -/
def ConfigField.expected : ConfigField → String
  | .depth => "a positive integer number of words"
  | .width => "a positive integer number of bits per word"
  | .banks => "a positive integer number of banks"
  | .voltage => "a positive supply voltage in volts"
  | .processNode => "a positive integer process node in nm"
  | .powerGating | .clockGating | .retentionMode | .eccEnable => "a boolean"

/-- The field, value and expectation of a refusal. -/
def ConfigError.complaint : ConfigError → Complaint
  | notARecord value => ⟨"configuration", value, "a record of configuration fields"⟩
  | badValue f value =>
    ⟨f.name, value, if value.isUndefined then f.expected ++ " (required)" else f.expected⟩
  | tooLarge f maximum value =>
    ⟨f.name, value, f.expected ++ " no larger than " ++ Decimal.natText maximum⟩
  | unknownField name value =>
    ⟨name, value, "no such field (known fields: "
      ++ ", ".intercalate (ConfigField.all.map ConfigField.name) ++ ")"⟩
  | noIssue value => ⟨"configuration", value, "[]"⟩
  | banksExceedDepth banks depth =>
    ⟨"banks", .ofNat banks, "at most depth (" ++ Decimal.natText depth ++ ")"⟩
  | banksUneven banks depth =>
    ⟨"banks", .ofNat banks, "a divisor of depth (" ++ Decimal.natText depth ++ ")"⟩
  | unknownNode e => e.complaint

/-- An issue as a refusal of the record. Of the unknown fields the first is named. -/
def SchemaIssue.toError (fields : List (String × Document)) : SchemaIssue → ConfigError
  | invalid f => .badValue f (Document.fieldIn fields f.name)
  | tooLarge f maximum => .tooLarge f maximum (Document.fieldIn fields f.name)
  | unknownFields names =>
    let name := names.head?.getD "?"
    .unknownField name (Document.fieldIn fields name)

namespace Config

/-- The rules that tie fields to each other and to the table. -/
def checkTogether (c : Config) (table : ProcessTable) : Except ConfigError Unit :=
  if c.depth < c.banks then .error (.banksExceedDepth c.banks c.depth)
  else if c.depth % c.banks ≠ 0 then .error (.banksUneven c.banks c.depth)
  else
    match table.lookup c.processNode with
    | .ok _ => .ok ()
    | .error e => .error (.unknownNode e)

/-- Reads a value as a configuration under a process table, with a given check of the schema. -/
def ofDocumentWith (check : List (String × Document) → Except (List SchemaIssue) Config)
    (raw : Document) (table : ProcessTable) : Except ConfigError Config :=
  match raw with
  | .record fields =>
    match check fields with
    | .error (issue :: _) => .error (issue.toError fields)
    | .error [] => .error (.noIssue raw)
    | .ok c => do
      checkTogether c table
      return c
  | _ => .error (.notARecord raw)

/-- Reads a value as a configuration under a process table. -/
def ofDocument (raw : Document) (table : ProcessTable) : Except ConfigError Config :=
  ofDocumentWith checkSchema raw table

end Config

end MemoryCompiler
