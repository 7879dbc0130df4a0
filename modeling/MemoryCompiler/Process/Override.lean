import MemoryCompiler.Process.Table

/-!
# Overriding process constants

An override document `process_nodes: (node: (constant: value))` patches a table. A patch of a
node of the table may give some constants and leaves the others; a patch of a new node has to give
all. Every constant is a positive finite number, and every patched node keeps its threshold below
its voltage window. The first violation in the order of the document is reported and the table
stays as it was.
-/

namespace MemoryCompiler

/-- Why an override document is refused; `key` is the node as the document spells it. -/
inductive OverrideError where
  | notAMapping (value : Document)
  | badNode (key : String)
  | badPatch (key : String) (value : Document)
  | unknownConstant (key name : String) (value : Document)
  | badConstant (key : String) (constant : Constant) (value : Document)
  | missingConstant (key : String) (constant : Constant)
  | badWindow (key : String) (vTh vMin vMax : Float)

namespace OverrideError

def constantNames : String := ", ".intercalate (Constant.all.map Constant.name)

/-- The field, value and expectation of a refusal. -/
def complaint : OverrideError → Complaint
  | notAMapping value => ⟨"process_nodes", value, "a mapping of node (nm) to constants"⟩
  | badNode key => ⟨"process_nodes", .text key, "positive integer node keys (nm)"⟩
  | badPatch key value => ⟨"process_nodes." ++ key, value, "a mapping of constants"⟩
  | unknownConstant key name value =>
    ⟨"process_nodes." ++ key ++ "." ++ name, value, "one of " ++ constantNames⟩
  | badConstant key c value =>
    ⟨"process_nodes." ++ key ++ "." ++ c.name, value, "a positive number"⟩
  | missingConstant key c =>
    ⟨"process_nodes." ++ key ++ "." ++ c.name, .undefined, "a positive number for a new node"⟩
  | badWindow key vTh vMin vMax =>
    ⟨"process_nodes." ++ key ++ ".v_min", .number vMin,
      "v_th < v_min <= v_max (v_th=" ++ Decimal.text vTh ++ ", v_max=" ++ Decimal.text vMax ++ ")"⟩

end OverrideError

namespace ProcessTable

/-- The node that a key of the document names: a numeral of a positive whole number. -/
def nodeOfKey? (key : String) : Option Nat := do
  let x ← (Document.text key).finite?
  match Decimal.wholeValue x with
  | some (.ofNat n) => if 0 < n then some n else none
  | _ => none

/-- The first field of a patch that names no constant. -/
def unknownConstant? (fields : List (String × Document)) : Option (String × Document) :=
  fields.find? fun f => !(Constant.all.map Constant.name).contains f.1

/-- One constant of a patched node: the value given, else the value before. -/
def patchedConstant (key : String) (fields : List (String × Document))
    (before : Option (ProcessNode Float)) (c : Constant) : Except OverrideError Float :=
  let given := Document.fieldIn fields c.name
  if given.isUndefined then
    match before with
    | some n => .ok (n.get c)
    | none => .error (.missingConstant key c)
  else
    match given.finite? with
    | some x => if x ≤ 0 then .error (.badConstant key c given) else .ok x
    | none => .error (.badConstant key c given)

/-- The threshold lies below the window and the window is not empty. -/
def hasWindow (n : ProcessNode Float) : Bool := !(n.vMax < n.vMin || n.vMin ≤ n.vTh)

/-- The node that a patch makes of the constants before. -/
def patchNode (key : String) (fields : List (String × Document))
    (before : Option (ProcessNode Float)) : Except OverrideError (ProcessNode Float) :=
  match unknownConstant? fields with
  | some (name, value) => .error (.unknownConstant key name value)
  | none =>
    match ProcessNode.build (patchedConstant key fields before) with
    | .error e => .error e
    | .ok n => if hasWindow n then .ok n else .error (.badWindow key n.vTh n.vMin n.vMax)

/-- Applies one entry of the document. -/
def applyPatch (t : ProcessTable) (entry : String × Document) : Except OverrideError ProcessTable :=
  match nodeOfKey? entry.1 with
  | none => .error (.badNode entry.1)
  | some node =>
    match entry.2 with
    | .record fields =>
      match patchNode entry.1 fields (t.find? node) with
      | .error e => .error e
      | .ok n => .ok (t.insert node n)
    | other => .error (.badPatch entry.1 other)

/-- Applies the entries of a document in order. -/
def applyPatches : ProcessTable → List (String × Document) → Except OverrideError ProcessTable
  | t, [] => .ok t
  | t, e :: es =>
    match applyPatch t e with
    | .error err => .error err
    | .ok t' => applyPatches t' es

/-- Merges an override document into a table. A document without overrides changes nothing. -/
def merge (t : ProcessTable) (overrides : Document) : Except OverrideError ProcessTable :=
  match overrides.field "process_nodes" with
  | .undefined | .null => .ok t
  | .record entries => applyPatches t entries
  | other => .error (.notAMapping other)

end ProcessTable

end MemoryCompiler
