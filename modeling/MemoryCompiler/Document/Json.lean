import MemoryCompiler.Document
import MemoryCompiler.Text.Quoted

/-!
# Reading JSON

A strict reader: one value with blanks around it, no comments, no trailing commas, no leading
zeros, no raw controls in a text. The recursion is bounded by the length of the input, since
every call takes at least one character away.
-/

namespace MemoryCompiler.Document.Json

/-- The characters that may stand between tokens. -/
def isGap (c : Char) : Bool := c = ' ' || c = '\t' || c = '\n' || c = '\r'

/-- Drops the blanks before a token. -/
def skip (cs : List Char) : List Char := cs.dropWhile isGap

def hex4? : List Char → Option (Nat × List Char)
  | a :: b :: c :: d :: rest => (Decimal.wholeNumeral? 16 [a, b, c, d]).map fun n => (n, rest)
  | _ => none

/-- The character that stands for an escape that names no character, such as half a pair. -/
def replacement : Char := Char.ofNat 0xfffd

/-- The character of a code unit, joined with the low half that follows a high half. -/
def unitChar (unit : Nat) (rest : List Char) : Char × List Char :=
  if 0xd800 ≤ unit ∧ unit < 0xdc00 then
    match rest with
    | '\\' :: 'u' :: more =>
      match hex4? more with
      | some (low, after) =>
        if 0xdc00 ≤ low ∧ low < 0xe000 then
          (Char.ofNat (0x10000 + (unit - 0xd800) * 0x400 + (low - 0xdc00)), after)
        else (replacement, rest)
      | none => (replacement, rest)
    | _ => (replacement, rest)
  else if 0xdc00 ≤ unit ∧ unit < 0xe000 then (replacement, rest)
  else (Char.ofNat unit, rest)

def shortEscape? (c : Char) : Option Char :=
  if c = '"' ∨ c = '\\' ∨ c = '/' then some c
  else if c = 'b' then some (Char.ofNat 8)
  else if c = 'f' then some (Char.ofNat 12)
  else if c = 'n' then some '\n'
  else if c = 'r' then some '\r'
  else if c = 't' then some '\t'
  else none

/-- Reads a text behind its opening quote, up to the closing one. -/
def textBody? : Nat → List Char → List Char → Option (String × List Char)
  | 0, _, _ => none
  | _ + 1, _, [] => none
  | fuel + 1, acc, c :: cs =>
    if c = '"' then some (String.ofList acc.reverse, cs)
    else if c = '\\' then
      match cs with
      | 'u' :: more => do
        let (unit, rest) ← hex4? more
        let (ch, after) := unitChar unit rest
        textBody? fuel (ch :: acc) after
      | e :: more => do
        let ch ← shortEscape? e
        textBody? fuel (ch :: acc) more
      | [] => none
    else if c.toNat < 0x20 then none
    else textBody? fuel (c :: acc) cs

/-- The characters of a number: an optional minus, digits, a point with digits, an exponent. -/
def numberSpan (cs : List Char) : List Char × List Char :=
  let inNumber (c : Char) : Bool :=
    Decimal.isDigit c || c = '-' || c = '+' || c = '.' || c = 'e' || c = 'E'
  (cs.takeWhile inNumber, cs.dropWhile inNumber)

/-- The value of a number token, if the token keeps the strict form. -/
def numberToken? (cs : List Char) : Option Float := do
  let (negative, ds) := match cs with
    | '-' :: ds => (true, ds)
    | ds => (false, ds)
  let p ← Decimal.parts? ds
  let leadingZero := match p.whole with
    | '0' :: _ :: _ => true
    | _ => false
  if p.whole = [] ∨ leadingZero ∨ (p.hasPoint ∧ p.fraction = []) then none
  else some (Decimal.signed negative p.value)

def named? : List Char → Option (Document × List Char)
  | 't' :: 'r' :: 'u' :: 'e' :: cs => some (boolean true, cs)
  | 'f' :: 'a' :: 'l' :: 's' :: 'e' :: cs => some (boolean false, cs)
  | 'n' :: 'u' :: 'l' :: 'l' :: cs => some (null, cs)
  | _ => none

def textToken? (fuel : Nat) : List Char → Option (String × List Char)
  | '"' :: cs => textBody? fuel [] cs
  | _ => none

mutual

def value? : Nat → List Char → Option (Document × List Char)
  | 0, _ => none
  | fuel + 1, cs =>
    match cs with
    | '"' :: _ => (textToken? fuel cs).map fun r => (text r.1, r.2)
    | '[' :: rest =>
      match skip rest with
      | ']' :: after => some (list [], after)
      | inner => (items? fuel inner).map fun r => (list r.1, r.2)
    | '\x7b' :: rest =>
      match skip rest with
      | '\x7d' :: after => some (ofFields [], after)
      | inner => (members? fuel inner).map fun r => (ofFields r.1, r.2)
    | _ =>
      match named? cs with
      | some r => some r
      | none =>
        let (token, rest) := numberSpan cs
        (numberToken? token).map fun x => (number x, rest)

/-- Reads the items of a list up to its closing bracket. -/
def items? : Nat → List Char → Option (List Document × List Char)
  | 0, _ => none
  | fuel + 1, cs => do
    let (v, rest) ← value? fuel cs
    match skip rest with
    | ',' :: more =>
      let (vs, after) ← items? fuel (skip more)
      some (v :: vs, after)
    | ']' :: after => some ([v], after)
    | _ => none

/-- Reads the fields of a record up to its closing brace. -/
def members? : Nat → List Char → Option (List (String × Document) × List Char)
  | 0, _ => none
  | fuel + 1, cs => do
    let (name, rest) ← textToken? fuel cs
    match skip rest with
    | ':' :: more =>
      let (v, rest) ← value? fuel (skip more)
      match skip rest with
      | ',' :: more =>
        let (fs, after) ← members? fuel (skip more)
        some ((name, v) :: fs, after)
      | '\x7d' :: after => some ([(name, v)], after)
      | _ => none
    | _ => none

end

/-- Reads a whole text as one JSON value. -/
def parse? (s : String) : Option Document := do
  let cs := s.toList
  let (v, rest) ← value? (2 * cs.length + 2) (skip cs)
  if skip rest = [] then some v else none

end MemoryCompiler.Document.Json
