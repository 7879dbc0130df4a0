import MemoryCompiler.Document.Yaml.Node

/-!
# YAML texts

A text holds one document at most: directives and a line of dashes may come first, a line of dots
or dashes may end it. A byte order mark at the start is dropped, and a text without a document is
`undefined`.
-/

namespace MemoryCompiler.Document.Yaml

/-- The words of a directive's line, up to a comment. -/
def directiveWords (line : List Char) : List (List Char) :=
  let words := (line.splitBy fun a b => isBlank a == isBlank b).filter fun w => !w.all isBlank
  words.takeWhile fun w => w.head? != some '#'

/-- A version directive has one argument, of the first major version. -/
def isSupportedVersion (arguments : List (List Char)) : Bool :=
  match arguments with
  | [argument] =>
    let minor := (argument.dropWhile Decimal.isDigit).tail
    (Decimal.wholeNumeral? 10 (argument.takeWhile Decimal.isDigit)) == some 1
      && (argument.dropWhile Decimal.isDigit).head? == some '.'
      && (Decimal.wholeNumeral? 10 minor).isSome
  | _ => false

/-- Passes a directive behind its percent sign: its name, its arguments and the place behind it. -/
def directive? (c : Cursor) : Option (List Char × List (List Char) × Cursor) :=
  let name := c.rest.takeWhile fun ch => !isGap ch
  let line := (c.rest.dropWhile fun ch => !isGap ch).takeWhile fun ch => !isBreak ch
  if name = [] then none
  else
    let behind := c.advanceBy (name.length + line.length)
    some (name, directiveWords line, behind.passBreak)

/-- Passes the directives of a document: whether there were any, and the place behind them. -/
def directives? : Nat → Cursor → Bool → Bool → Option (Bool × Cursor)
  | 0, _, _, _ => none
  | fuel + 1, c, any, versioned =>
    let c := c.skip
    if 0 < c.indent || c.current? != some '%' then some (any, c)
    else
      match directive? c.advance with
      | some (name, arguments, behind) =>
        if name = "YAML".toList then
          if versioned || !isSupportedVersion arguments then none
          else directives? fuel behind true true
        else directives? fuel behind true versioned
      | none => none

def documentStart? (c : Cursor) (required : Bool) : Option Cursor :=
  match c.indent, c.rest with
  | 0, '-' :: '-' :: '-' :: _ => some (c.advanceBy 3).skip
  | _, _ => if required then none else some c

/-- Reads a document and passes the dots behind it. -/
def document? (c : Cursor) : Option (Document × Cursor) := do
  let fuel := 8 * c.rest.length + 16
  let (any, c) ← directives? fuel c false false
  let c ← documentStart? c any
  let (d, behind) ← (node fuel (.inBlock true) c.indent c).orNull? c
  let after := behind.skip
  if after.atSeparator then
    some (d, if after.current? = some '.' then (after.advanceBy 3).skip else after)
  else if 1 < after.rest.length then none
  else some (d, after)

/-- Reads documents up to the end, of which the last character may be missing. -/
def documents? : Nat → Cursor → Option (List Document)
  | 0, _ => none
  | fuel + 1, c =>
    if c.rest.length ≤ 1 then some []
    else
      match document? c with
      | some (d, behind) => (documents? fuel behind).map (d :: ·)
      | none => none

/-- The characters to read: a text ends with a line break and starts without a byte order mark. -/
def prepared (cs : List Char) : List Char :=
  let cs := if cs.getLast?.any fun ch => !isBreak ch then cs ++ ['\n'] else cs
  if cs.head? = some (Char.ofNat 0xfeff) then cs.tail else cs

/-- Reads a YAML text with one document at most. -/
def parse? (s : String) : Option Document :=
  let cs := prepared s.toList
  if cs.contains (Char.ofNat 0) then none
  else
    match documents? (cs.length + 1) (Cursor.start cs).passIndent with
    | some [] => some .undefined
    | some [d] => some d
    | _ => none

end MemoryCompiler.Document.Yaml
