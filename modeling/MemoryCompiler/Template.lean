import MemoryCompiler.Document.Text

/-!
# Templates

A templates document names configurations under `example_configs`. `TemplateSet.ofDocument` reads
one; the records in it are checked only when they are used. `TemplateSet.standard` holds the
templates that come with the compiler.
-/

namespace MemoryCompiler

/-- Named configuration records, in property order. What is not among them is looked up behind them, in
the record that was given the name of the parent. -/
structure TemplateSet where
  entries : List (String × List (String × Document))
  inherited : List (String × Document) := []

/-- Why a document is refused as a templates document. -/
inductive TemplateError where
  | noTemplates
  | notARecord (name : String)

/-- The sentence of a refusal; `source` says where the document is from. -/
def TemplateError.message (source : String) : TemplateError → String
  | noTemplates => source ++ ": expected a top-level 'example_configs' mapping"
  | notARecord name => source ++ ": template '" ++ name ++ "' is not a mapping"

namespace TemplateSet

def entryOf (field : String × Document) : Except TemplateError (String × List (String × Document)) :=
  match field.2 with
  | .record fields => .ok (field.1, fields)
  | _ => .error (.notARecord field.1)

/-- A record of this name becomes the parent of the others. -/
def parentName : String := "__proto__"

/-- The names under which every record has something, whatever was written into it: its parent, and
operations that are no documents. -/
def builtInNames : List String :=
  [parentName, "constructor", "hasOwnProperty", "isPrototypeOf", "propertyIsEnumerable", "toLocaleString",
    "toString", "valueOf", "__defineGetter__", "__defineSetter__", "__lookupGetter__", "__lookupSetter__"]

/-- The templates among some named records. -/
def ofEntries (named : List (String × List (String × Document))) : TemplateSet where
  entries := named.filter fun e => e.1 != parentName
  inherited := (named.lookup parentName).getD []

/-- Reads a templates document; the first value that is no record is reported. -/
def ofDocument (d : Document) : Except TemplateError TemplateSet :=
  match d.field "example_configs" with
  | .record fields => do return ofEntries (← fields.mapM entryOf)
  | _ => .error .noTemplates

def names (t : TemplateSet) : List String := t.entries.map Prod.fst

/-- What is found behind the templates. An operation that every record has counts as nothing. -/
def behind (t : TemplateSet) (name : String) : Document :=
  match t.inherited.lookup name with
  | some value => value
  | none => if name = parentName then .record t.inherited else .undefined

/-- The record of a template, or what stands behind the templates under the name. -/
def get? (t : TemplateSet) (name : String) : Option Document :=
  match t.entries.lookup name with
  | some fields => some (.record fields)
  | none => (some (t.behind name)).filter Document.countsAsTrue

/-- The line of a template in a list: its name, geometry and process node as written. -/
def line (entry : String × List (String × Document)) : String :=
  let value (name : String) : String := (Document.fieldIn entry.2 name).plain
  entry.1 ++ ": " ++ value "depth" ++ "x" ++ value "width" ++ ", " ++ value "banks" ++ " banks, "
    ++ value "process_node" ++ "nm"

def lines (t : TemplateSet) : List String := t.entries.map line

/-- The fields of a template: its geometry, voltage and node, and the features it mentions. -/
def fieldsOf (depth width banks : Nat) (voltage : Float) (node : Nat)
    (features : List (String × Bool)) : List (String × Document) :=
  [("depth", .ofNat depth), ("width", .ofNat width), ("banks", .ofNat banks),
    ("voltage", .number voltage), ("process_node", .ofNat node)]
    ++ features.map fun f => (f.1, .boolean f.2)

def features (power clock retention ecc : Bool) : List (String × Bool) :=
  [("power_gating", power), ("clock_gating", clock), ("retention_mode", retention),
    ("ecc_enable", ecc)]

/-- The templates that come with the compiler. -/
def standard : TemplateSet where
  entries := [
    ("low_power_1kx32", fieldsOf 1024 32 4 0.9 28 (features true true true false)),
    ("high_performance_4kx64", fieldsOf 4096 64 8 0.8 16 (features false true false false)),
    ("ultra_low_power_512x16", fieldsOf 512 16 2 0.65 7 (features true true true false)),
    ("ecc_protected_2kx32", fieldsOf 2048 32 4 1.0 28 (features true false false true)),
    ("legacy_256x8", fieldsOf 256 8 1 1.8 180 [])]

end TemplateSet

end MemoryCompiler
