import MemoryCompiler.Document
import MemoryCompiler.Document.Yaml.Cursor

/-!
# YAML scalars

Texts in single quotes, in double quotes with escapes, and plain ones. A text that goes over
several lines is folded: one line break reads as a blank, more of them as one break less. A plain
scalar stands for a null, a truth value or a number where its spelling says so.
-/

namespace MemoryCompiler.Document.Yaml

/-- What a gap of some line breaks reads as. -/
def folded (breaks : Nat) : List Char :=
  if breaks = 1 then [' '] else List.replicate (breaks - 1) '\n'

/-- A text that was read, the last character first, and the place behind it. -/
abbrev Scanned := List Char × Cursor

/-! ## Quoted scalars -/

/-- A character that may stand between quotes. -/
def inQuotes (c : Char) : Bool := c == '\t' || 0x20 ≤ c.toNat

/-- Reads behind an opening single quote; `read` and `blanks` are reversed. -/
def singleQuoted? : Nat → Cursor → List Char → List Char → Option Scanned
  | 0, _, _, _ => none
  | fuel + 1, c, read, blanks =>
    match c.rest with
    | [] => none
    | '\'' :: '\'' :: _ => singleQuoted? fuel (c.advanceBy 2) ('\'' :: blanks ++ read) []
    | '\'' :: _ => some (blanks ++ read, c.advance)
    | ch :: _ =>
      if isBreak ch then
        let (c, breaks) := c.skipGap false
        singleQuoted? fuel c ((folded breaks).reverse ++ read) []
      else if c.atSeparator || !inQuotes ch then none
      else if isBlank ch then singleQuoted? fuel c.advance read (ch :: blanks)
      else singleQuoted? fuel c.advance (ch :: blanks ++ read) []

def letterEscape? (c : Char) : Option Char :=
  let table : List (Char × Nat) :=
    [('0', 0x00), ('a', 0x07), ('b', 0x08), ('t', 0x09), ('\t', 0x09), ('n', 0x0a), ('v', 0x0b),
      ('f', 0x0c), ('r', 0x0d), ('e', 0x1b), (' ', 0x20), ('"', 0x22), ('/', 0x2f), ('\\', 0x5c),
      ('N', 0x85), ('_', 0xa0), ('L', 0x2028), ('P', 0x2029)]
  (table.lookup c).map Char.ofNat

/-- The number of digits behind the letter of a numeric escape. -/
def escapeDigits? (c : Char) : Option Nat :=
  if c = 'x' then some 2 else if c = 'u' then some 4 else if c = 'U' then some 8 else none

def hexDigits? (count : Nat) (cs : List Char) : Option Nat :=
  if (cs.take count).length = count then Decimal.wholeNumeral? 16 (cs.take count) else none

/-- The character of a number; one that names none reads as the replacement character. -/
def codeChar (n : Nat) : Char := if n.isValidChar then Char.ofNat n else Char.ofNat 0xfffd

/-- Reads a numeric escape behind its backslash: the character and how many were read. Two
four-digit escapes may make up one character between them. -/
def numericEscape? (letter : Char) (cs : List Char) : Option (Char × Nat) := do
  let count ← escapeDigits? letter
  let n ← hexDigits? count cs
  let whole := some (codeChar n, count + 1)
  if 0xd800 ≤ n ∧ n < 0xdc00 then
    match cs.drop count with
    | '\\' :: 'u' :: more =>
      match hexDigits? 4 more with
      | some low =>
        if 0xdc00 ≤ low ∧ low < 0xe000 then
          some (codeChar (0x10000 + (n - 0xd800) * 0x400 + (low - 0xdc00)), count + 7)
        else whole
      | none => whole
    | _ => whole
  else whole

/-- Reads behind an opening double quote; `read` and `blanks` are reversed. -/
def doubleQuoted? : Nat → Cursor → List Char → List Char → Option Scanned
  | 0, _, _, _ => none
  | fuel + 1, c, read, blanks =>
    match c.rest with
    | [] => none
    | '"' :: _ => some (blanks ++ read, c.advance)
    | '\\' :: e :: more =>
      if isBreak e then
        doubleQuoted? fuel (c.advance.skipGap false).1 (blanks ++ read) []
      else
        match letterEscape? e with
        | some ch => doubleQuoted? fuel (c.advanceBy 2) (ch :: blanks ++ read) []
        | none =>
          match numericEscape? e more with
          | some (ch, n) => doubleQuoted? fuel (c.advanceBy (n + 1)) (ch :: blanks ++ read) []
          | none => none
    | ch :: _ =>
      if isBreak ch then
        let (c, breaks) := c.skipGap false
        doubleQuoted? fuel c ((folded breaks).reverse ++ read) []
      else if c.atSeparator || !inQuotes ch then none
      else if isBlank ch then doubleQuoted? fuel c.advance read (ch :: blanks)
      else doubleQuoted? fuel c.advance (ch :: blanks ++ read) []

/-! ## Plain scalars -/

/-- A character that may stand in a plain scalar. -/
def isPrintable (c : Char) : Bool :=
  let n := c.toNat
  !(n ≤ 0x08 || n == 0x0b || n == 0x0c || (0x0e ≤ n && n ≤ 0x1f) || (0x7f ≤ n && n ≤ 0x84)
    || (0x86 ≤ n && n ≤ 0x9f) || n == 0xfffe || n == 0xffff)

/-- The marks that no plain scalar starts with. -/
def openingMarks : List Char := "#&*!|>'\"%@`".toList

/-- Whether a plain scalar may start at the place. -/
def startsPlain (c : Cursor) (inFlow : Bool) : Bool :=
  match c.current? with
  | none => false
  | some ch =>
    if isGap ch || isFlowMark ch || openingMarks.contains ch then false
    else if ch == '?' || ch == '-' then
      !(c.gapFollows || (inFlow && c.next?.any isFlowMark))
    else true

/-- Whether a plain scalar ends before the character at the place. -/
def endsPlain (c : Cursor) (ch : Char) (inFlow : Bool) : Bool :=
  if ch == ':' then c.gapFollows || (inFlow && c.next?.any isFlowMark)
  else if ch == '#' then c.previous.any isGap
  else c.atSeparator || (inFlow && isFlowMark ch)

/-- How far a plain scalar has been read. -/
structure Plain where
  /-- The text, reversed. -/
  text : List Char
  /-- The blanks after it, which count only if more text follows on the line. -/
  blanks : List Char
  /-- The line of the break before the place, if nothing came after the break yet. -/
  breakLine : Option Nat
  /-- The place behind the text. -/
  mark : Cursor

def Plain.push (p : Plain) (c : Cursor) (ch : Char) : Plain :=
  let p := match p.breakLine with
    | some line =>
      { p with text := (folded (c.line - line)).reverse ++ p.text, blanks := [], breakLine := none }
    | none => p
  if isBlank ch then { p with blanks := ch :: p.blanks }
  else { p with text := ch :: p.blanks ++ p.text, blanks := [], mark := c.advance }

/-- Reads on in a plain scalar. A line that is indented less than the scalar ends it, and the place
goes back behind the text. -/
def plainScalar? (inFlow : Bool) (indent : Nat) : Nat → Cursor → Plain → Option Scanned
  | 0, _, _ => none
  | fuel + 1, c, p =>
    match c.rest with
    | [] => some (p.text, c)
    | ch :: _ =>
      if endsPlain c ch inFlow then some (p.text, c)
      else if isBreak ch && ch != ':' && ch != '#' then
        let after := (c.skipGap false).1
        if indent ≤ after.indent then
          plainScalar? inFlow indent fuel after { p with breakLine := some c.line }
        else some (p.text, { p.mark with sawTab := after.sawTab })
      else if isBlank ch || isPrintable ch then
        plainScalar? inFlow indent fuel c.advance (p.push c ch)
      else none

/-! ## What plain scalars stand for -/

/-- The spellings of a word: small, with a capital, and in capitals. -/
def spellings (word : String) : List String := [word, word.capitalize, word.toUpper]

/-- A whole number: decimal, or with a small letter for another base. -/
def wholeNumber? (cs : List Char) : Option Float :=
  let (negative, ds) := Decimal.splitSign cs
  let based (base : Nat) (digits : List Char) : Option Float :=
    (Decimal.wholeNumeral? base digits).map fun n =>
      Decimal.signed negative (Decimal.nearest n (n.log2 / 3) 0)
  match ds with
  | ['0'] => some 0
  | '0' :: 'b' :: digits => based 2 digits
  | '0' :: 'o' :: digits => based 8 digits
  | '0' :: 'x' :: digits => based 16 digits
  | _ => based 10 ds

/-- A number with a point or an exponent; without a digit before the point it has no sign. -/
def pointNumber? (cs : List Char) : Option Float :=
  let (negative, ds) := Decimal.splitSign cs
  match Decimal.parts? ds with
  | some p =>
    if p.whole ≠ [] then some (Decimal.signed negative p.value)
    else if p.fraction ≠ [] ∧ ds = cs then some p.value
    else none
  | none => none

/-- An infinity or NaN, behind a point. -/
def namedNumber? (cs : List Char) : Option Float :=
  let (negative, ds) := Decimal.splitSign cs
  if [".inf", ".Inf", ".INF"].contains (String.ofList ds) then
    some (Decimal.signed negative Decimal.infinity)
  else if [".nan", ".NaN", ".NAN"].contains (String.ofList cs) then some (0 / 0)
  else none

/-- The value of a plain scalar. -/
def resolve (cs : List Char) : Document :=
  let s := String.ofList cs
  if s = "~" ∨ (spellings "null").contains s then null
  else if (spellings "true").contains s then boolean true
  else if (spellings "false").contains s then boolean false
  else
    match ((wholeNumber? cs).or (pointNumber? cs)).or (namedNumber? cs) with
    | some x => number x
    | none => text s

/-! ## Scalars -/

/-- Reads a scalar at a place: nothing when none starts there, and no answer when one is malformed. A
plain scalar is resolved. -/
def scalar? (inFlow : Bool) (indent : Nat) (c : Cursor) : Option (Option (Document × Cursor)) :=
  let fuel := c.rest.length + 1
  let finished (s : Scanned) : Option (Document × Cursor) :=
    some (.text (String.ofList s.1.reverse), s.2)
  match c.current? with
  | some '\'' => (singleQuoted? fuel c.advance [] []).map finished
  | some '"' => (doubleQuoted? fuel c.advance [] []).map finished
  | _ =>
    if startsPlain c inFlow then
      (plainScalar? inFlow indent fuel c ⟨[], [], none, c⟩).map fun s =>
        if s.1 = [] then none else some (resolve s.1.reverse, s.2)
    else some none

end MemoryCompiler.Document.Yaml
