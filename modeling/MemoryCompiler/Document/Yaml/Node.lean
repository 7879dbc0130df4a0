import MemoryCompiler.Document.Text
import MemoryCompiler.Document.Yaml.Scalar

/-!
# YAML nodes

A node is a scalar, a flow collection in brackets, or a block collection that its indentation
holds together. The readers call each other on what is left of the text; a call either passes a
character or goes from a kind of node to a narrower one, so fuel in proportion to the text is
enough.
-/

namespace MemoryCompiler.Document.Yaml

/-- Where a node stands: between the brackets of a flow collection, before the colon of a block
record, or in a block, which may let further block collections start or not. -/
inductive Stand where
  | inFlow
  | beforeColon
  | inBlock (collections : Bool)

/-- What a reader finds at a place: a malformed text, nothing of its kind, or a value. -/
inductive Finding where
  | malformed
  | nothing
  | value (d : Document) (behind : Cursor)

namespace Finding

/-- Another reader's finding where the first found nothing. -/
def otherwise (f : Finding) (g : Unit → Finding) : Finding :=
  match f with
  | nothing => g ()
  | _ => f

/-- The value and the place behind it; nothing at all reads as null. -/
def orNull? (f : Finding) (here : Cursor) : Option (Document × Cursor) :=
  match f with
  | malformed => none
  | nothing => some (.null, here)
  | value d behind => some (d, behind)

/-- The finding of a scalar reader. -/
def ofScalar : Option (Option (Document × Cursor)) → Finding
  | none => malformed
  | some none => nothing
  | some (some (d, behind)) => value d behind

end Finding

/-! ## Fields -/

/-- A key as a field name; lists within a list have no name. -/
def keyName? (key : Document) : Option String :=
  match key with
  | .list items => if items.any fun x => x.items?.isSome then none else some key.plain
  | _ => some key.plain

/-- The fields of a block record so far, the last one first, and a key that waits for its value. -/
structure Gathered where
  fields : List (String × Document)
  waiting : Option Document

namespace Gathered

def isEmpty (g : Gathered) : Bool := g.fields.isEmpty && g.waiting.isNone

/-- Adds a field; a name may occur once only. -/
def add? (g : Gathered) (key value : Document) : Option Gathered := do
  let name ← keyName? key
  if g.fields.any fun f => f.1 = name then none else some ⟨(name, value) :: g.fields, none⟩

/-- Gives a waiting key the value null. -/
def settle? (g : Gathered) : Option Gathered :=
  match g.waiting with
  | some key => g.add? key .null
  | none => some g

def close (g : Gathered) (behind : Cursor) : Finding :=
  if g.isEmpty then .nothing
  else
    match g.settle? with
    | some g => .value (ofFields g.fields.reverse) behind
    | none => .malformed

end Gathered

/-- An entry of a flow collection: a node alone, or a key with its value. -/
structure Entry where
  key : Document
  value : Option Document

/-- The record of some entries; a node alone is a key with the value null. -/
def entriesRecord? (entries : List Entry) : Option Document := do
  let g ← entries.foldlM (fun (g : Gathered) e => g.add? e.key (e.value.getD .null)) ⟨[], none⟩
  some (ofFields g.fields.reverse)

/-- The list of some entries; a key with its value is a record of one field. -/
def entriesList? (entries : List Entry) : Option Document := do
  let items ← entries.mapM fun e =>
    if e.value.isSome then entriesRecord? [e] else some e.key
  some (.list items)

/-! ## Nodes -/

/-- Whether a block collection is left malformed: something stands behind an entry on its line, or
deeper than the collection. -/
def strays (line indent : Nat) (c : Cursor) : Bool :=
  !c.rest.isEmpty && (c.line == line || indent < c.indent)

def beforeMark (c : Cursor) : Cursor := c.advanceBy (c.rest.takeWhile isBlank).length

mutual

/-- Reads a node. Lines that carry on a scalar are indented by `indent` or more. -/
def node : Nat → Stand → Nat → Cursor → Finding
  | 0, _, _, _ => .malformed
  | fuel + 1, .inBlock true, indent, c =>
    ((blockList fuel c.column c []).otherwise fun _ =>
      blockRecord fuel c.column indent c ⟨[], none⟩).otherwise fun _ =>
        (flowCollection fuel indent c).otherwise fun _ => .ofScalar (scalar? false indent c)
  | fuel + 1, .inFlow, indent, c =>
    (flowCollection fuel indent c).otherwise fun _ => .ofScalar (scalar? true indent c)
  | fuel + 1, _, indent, c =>
    (flowCollection fuel indent c).otherwise fun _ => .ofScalar (scalar? false indent c)

/-- Reads the items of a block list at an indentation; `items` are those before, the last first. -/
def blockList : Nat → Nat → Cursor → List Document → Finding
  | 0, _, _, _ => .malformed
  | fuel + 1, indent, c, items =>
    if c.sawTab && !c.rest.isEmpty then if items.isEmpty then .nothing else .malformed
    else if c.current? != some '-' || !c.gapFollows then
      if items.isEmpty then .nothing else .value (.list items.reverse) c
    else
      let (inner, breaks) := c.advance.skipGap true
      if 0 < breaks && inner.indent ≤ indent then blockList fuel indent inner (.null :: items)
      else
        match (node fuel (.inBlock true) (indent + 1) inner).orNull? inner with
        | none => .malformed
        | some (item, behind) =>
          let after := behind.skip
          if strays inner.line indent after then .malformed
          else if after.indent < indent then .value (.list (item :: items).reverse) after
          else blockList fuel indent after (item :: items)

/-- Reads the value behind a mark of a block record that stands at an indentation. A value on a line
of its own lies deeper; only a list may stand as deep as the record. -/
def blockValue : Nat → Nat → Bool → Cursor → Finding
  | 0, _, _, _ => .malformed
  | fuel + 1, indent, collections, c =>
    let (c, breaks) := c.skipGap true
    let found :=
      if breaks = 0 then node fuel (.inBlock collections) (indent + 1) c
      else if indent < c.indent then node fuel (.inBlock true) (indent + 1) c
      else if c.indent = indent then blockList fuel c.column c []
      else .nothing
    found.otherwise fun _ => .value .null c

/-- Reads the fields of a block record at an indentation, behind those that were gathered. What
turns out to be a single node is that node. -/
def blockRecord : Nat → Nat → Nat → Cursor → Gathered → Finding
  | 0, _, _, _, _ => .malformed
  | fuel + 1, indent, flowIndent, c, g =>
    let next (found : Finding) (add : Document → Option Gathered) : Finding :=
      match found with
      | .value d behind =>
        match add d with
        | some g =>
          let after := behind.skip
          if strays c.line indent after then .malformed
          else if after.indent < indent then g.close after
          else blockRecord fuel indent flowIndent after g
        | none => .malformed
      | _ => .malformed
    if c.rest.isEmpty then g.close c
    else if c.sawTab && g.waiting.isNone then if g.isEmpty then .nothing else .malformed
    else if c.current? == some '?' && c.gapFollows then
      match g.settle? with
      | some g =>
        next (blockValue fuel indent true c.advance) fun key => some { g with waiting := some key }
      | none => .malformed
    else if c.current? == some ':' && c.gapFollows then
      match g.waiting with
      | some key => next (blockValue fuel indent true c.advance) (g.add? key)
      | none => .malformed
    else
      match node fuel .beforeColon flowIndent c with
      | .malformed => .malformed
      | .nothing => g.close c
      | .value key behind =>
        let mark := beforeMark behind
        if behind.line ≠ c.line then if g.isEmpty then .value key behind else .malformed
        else if mark.current? != some ':' then if g.isEmpty then .value key mark else .malformed
        else if !mark.gapFollows then .malformed
        else
          match g.settle? with
          | some g => next (blockValue fuel indent false mark.advance) (g.add? key)
          | none => .malformed

/-- Reads a list in brackets or a record in braces. -/
def flowCollection : Nat → Nat → Cursor → Finding
  | 0, _, _ => .malformed
  | fuel + 1, indent, c =>
    let finished (entries? : Option (List Entry × Cursor))
        (build : List Entry → Option Document) : Finding :=
      match entries? with
      | some (entries, behind) =>
        match build entries with
        | some d => .value d behind
        | none => .malformed
      | none => .malformed
    if c.current? == some '[' then finished (flowEntries? fuel ']' indent c.advance []) entriesList?
    else if c.current? == some '\x7b' then
      finished (flowEntries? fuel '\x7d' indent c.advance []) entriesRecord?
    else .nothing

/-- Reads entries up to the closing bracket; `entries` are those before, the last first. -/
def flowEntries? : Nat → Char → Nat → Cursor → List Entry → Option (List Entry × Cursor)
  | 0, _, _, _, _ => none
  | fuel + 1, closing, indent, c, entries =>
    let c := c.skip
    if c.current? == some closing then some (entries.reverse, c.advance)
    else if c.rest.isEmpty || c.current? == some ',' then none
    else
      let explicit := c.current? == some '?' && c.gapFollows
      let c := if explicit then c.advance.skip else c
      match (node fuel .inFlow indent c).orNull? c with
      | none => none
      | some (key, behind) =>
        let mark := behind.skip
        let entry? : Option (Entry × Cursor) :=
          if (explicit || mark.line == c.line) && mark.current? == some ':' then
            let inner := mark.advance.skip
            match (node fuel .inFlow indent inner).orNull? inner with
            | some (value, behind) => some (⟨key, some value⟩, behind.skip)
            | none => none
          else some (⟨key, if explicit then some .null else none⟩, mark)
        match entry? with
        | none => none
        | some (entry, after) =>
          if after.current? == some ',' then
            flowEntries? fuel closing indent after.advance (entry :: entries)
          else if after.current? == some closing then
            some ((entry :: entries).reverse, after.advance)
          else none

end

end MemoryCompiler.Document.Yaml
