import MemoryCompiler.Config

/-!
# The schema of a configuration

What each field of a configuration record has to be on its own, as data (`ConfigField.schema`), and the
check of a record against it. The check goes over the fields in order and reports every check that
fails, then all the names that are no field's at once. A record without issues is read as a
configuration, in which the features that are not given are off.
-/

namespace MemoryCompiler

/-- The checks that a schema chains on a number. -/
inductive NumberCheck where
  | whole
  | positive
  | safe
  | finite

/-- What a field has to be: a number that passes some checks, or a truth value that may be missing. -/
inductive FieldSchema where
  | number (checks : List NumberCheck)
  | switch

def ConfigField.schema : ConfigField → FieldSchema
  | .depth | .width | .banks | .processNode => .number [.whole, .positive, .safe]
  | .voltage => .number [.finite, .positive]
  | .powerGating | .clockGating | .retentionMode | .eccEnable => .switch

/-- What the check of a record reports. -/
inductive SchemaIssue where
  | invalid (field : ConfigField)
  | tooLarge (field : ConfigField) (maximum : Nat)
  | unknownFields (names : List String)

namespace NumberCheck

def passes : NumberCheck → Float → Bool
  | whole, x => (Decimal.wholeValue x).isSome
  | positive, x => 0 < x
  | safe, x => -Float.ofNat Decimal.safeLimit ≤ x && x ≤ Float.ofNat Decimal.safeLimit
  | finite, x => x.isFinite

/-- What is reported of a number that does not pass. -/
def issue (f : ConfigField) (x : Float) : NumberCheck → SchemaIssue
  | safe => if Float.ofNat Decimal.safeLimit < x then .tooLarge f Decimal.safeLimit else .invalid f
  | whole | positive | finite => .invalid f

end NumberCheck

def ConfigField.issues (f : ConfigField) (value : Document) : List SchemaIssue :=
  match f.schema with
  | .number checks =>
    match value with
    | .number x =>
      if x.isNaN then [.invalid f]
      else (checks.filter fun c => !c.passes x).map (NumberCheck.issue f x)
    | _ => [.invalid f]
  | .switch =>
    match value with
    | .boolean _ | .undefined => []
    | _ => [.invalid f]

namespace Document

/-- The number of a value that was checked to be a positive whole number. -/
def toCount : Document → Nat
  | number x => ((Decimal.wholeValue x).getD 0).toNat
  | _ => 0

def toNumber : Document → Float
  | number x => x
  | _ => 0

/-- The truth value of a switch; one that is not given is off. -/
def toSwitch : Document → Bool
  | boolean b => b
  | _ => false

end Document

namespace Config

def unknownNames (fields : List (String × Document)) : List String :=
  (fields.map Prod.fst).filter fun name => !(ConfigField.all.map ConfigField.name).contains name

/-- The issue of all the unknown fields together, if there are any. -/
def unknownIssues (fields : List (String × Document)) : List SchemaIssue :=
  match unknownNames fields with
  | [] => []
  | names => [.unknownFields names]

/-- The issues of a record: those of its fields in order, then that of the unknown ones. -/
def schemaIssues (fields : List (String × Document)) : List SchemaIssue :=
  (ConfigField.all.flatMap fun f => f.issues (Document.fieldIn fields f.name)) ++ unknownIssues fields

/-- The configuration of a record without issues. -/
def ofFields (fields : List (String × Document)) : Config :=
  let value (f : ConfigField) : Document := Document.fieldIn fields f.name
  { depth := (value .depth).toCount
    width := (value .width).toCount
    banks := (value .banks).toCount
    voltage := (value .voltage).toNumber
    processNode := (value .processNode).toCount
    powerGating := (value .powerGating).toSwitch
    clockGating := (value .clockGating).toSwitch
    retentionMode := (value .retentionMode).toSwitch
    eccEnable := (value .eccEnable).toSwitch }

def checkSchema (fields : List (String × Document)) : Except (List SchemaIssue) Config :=
  match schemaIssues fields with
  | [] => .ok (ofFields fields)
  | issues => .error issues

end Config

end MemoryCompiler
