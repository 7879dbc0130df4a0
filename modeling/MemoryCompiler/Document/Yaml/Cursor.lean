/-!
# A place in a YAML text

A cursor is what is left of the text together with where it stands: line, column, the indentation
of the line, and whether a tab came before the first token of the line. The gaps between tokens are
blanks, comments and line breaks; `skipGap` passes them and counts the breaks.
-/

namespace MemoryCompiler.Document.Yaml

/-- A place in the text. -/
structure Cursor where
  rest : List Char
  /-- The character before the place. -/
  previous : Option Char
  line : Nat
  column : Nat
  /-- The blanks at the start of the line. -/
  indent : Nat
  /-- A tab stands in the gap before the place. -/
  sawTab : Bool
deriving Repr

namespace Cursor

def start (text : List Char) : Cursor := ⟨text, none, 0, 0, 0, false⟩

def current? (c : Cursor) : Option Char := c.rest.head?

def next? (c : Cursor) : Option Char := c.rest.tail.head?

/-- Passes one character of a line. -/
def advance (c : Cursor) : Cursor :=
  match c.rest with
  | [] => c
  | ch :: rest => { c with rest := rest, previous := some ch, column := c.column + 1 }

def advanceBy : Nat → Cursor → Cursor
  | 0, c => c
  | n + 1, c => advanceBy n c.advance

end Cursor

/-! ## Classes of characters -/

def isBlank (c : Char) : Bool := c == ' ' || c == '\t'

def isBreak (c : Char) : Bool := c == '\n' || c == '\r'

def isGap (c : Char) : Bool := isBlank c || isBreak c

/-- The characters that structure flow collections. -/
def isFlowMark (c : Char) : Bool := c == ',' || c == '[' || c == ']' || c == '\x7b' || c == '\x7d'

/-- There is a gap character at the place after the current one. -/
def Cursor.gapFollows (c : Cursor) : Bool := c.next?.any isGap

/-! ## Gaps -/

namespace Cursor

/-- Passes a line break; a carriage return and a line feed count as one. -/
def passBreak (c : Cursor) : Cursor :=
  match c.rest with
  | '\r' :: '\n' :: rest => ⟨rest, some '\n', c.line + 1, 0, c.indent, false⟩
  | ch :: rest => ⟨rest, some ch, c.line + 1, 0, c.indent, false⟩
  | [] => c

def passBlanks (c : Cursor) : Cursor :=
  let blanks := c.rest.takeWhile isBlank
  { c with
    rest := c.rest.dropWhile isBlank
    previous := blanks.getLast?.or c.previous
    column := c.column + blanks.length
    sawTab := c.sawTab || blanks.contains '\t' }

def passComment (c : Cursor) : Cursor :=
  let text := c.rest.takeWhile fun ch => !isBreak ch
  { c with
    rest := c.rest.dropWhile fun ch => !isBreak ch
    previous := text.getLast?.or c.previous
    column := c.column + text.length }

/-- Passes the indentation at the start of a line and keeps its depth. -/
def passIndent (c : Cursor) : Cursor :=
  let blanks := c.rest.takeWhile (· == ' ')
  { c with
    rest := c.rest.dropWhile (· == ' ')
    previous := blanks.getLast?.or c.previous
    column := c.column + blanks.length
    indent := blanks.length }

/-- Passes blanks, comments if they are allowed, and line breaks; at most `fuel` breaks. -/
def skipLines (comments : Bool) : Nat → Cursor → Nat → Cursor × Nat
  | 0, c, breaks => (c, breaks)
  | fuel + 1, c, breaks =>
    let c := c.passBlanks
    let c := if comments && c.current? == some '#' then c.passComment else c
    if c.current?.any isBreak then skipLines comments fuel c.passBreak.passIndent (breaks + 1)
    else (c, breaks)

/-- Passes a gap and tells how many line breaks it held. -/
def skipGap (c : Cursor) (comments : Bool) : Cursor × Nat :=
  skipLines comments (c.rest.length + 1) c 0

/-- Passes a gap that may hold comments. -/
def skip (c : Cursor) : Cursor := (c.skipGap true).1

/-- Three equal marks at the place, followed by a gap or by nothing. -/
def marksDocument (c : Cursor) : Bool :=
  match c.rest with
  | x :: y :: z :: rest =>
    (x == '-' || x == '.') && x == y && y == z && (rest.head?.all isGap)
  | _ => false

/-- The place is at the start of a line that separates documents. -/
def atSeparator (c : Cursor) : Bool := c.column == 0 && c.marksDocument

end Cursor

end MemoryCompiler.Document.Yaml
