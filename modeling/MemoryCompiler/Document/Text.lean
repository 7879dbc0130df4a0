import MemoryCompiler.Document
import MemoryCompiler.Text.Quoted

/-!
# Documents as text

Three texts of a value. `compact` is JSON without blanks, `indented` the same JSON over several
lines with two spaces a level, and `plain` the loose text that lists and messages use. In JSON a
number that is not finite reads `null`; an `undefined` field of a record is left out and an
`undefined` item of a list reads `null`. `shown` is the text of a value inside an error message.
-/

namespace MemoryCompiler.Document

/-- A finite number in its shortest form; JSON has no other numbers. -/
def numberText (x : Float) : String := if x.isFinite then Decimal.text x else "null"

mutual

/-- JSON without blanks; nothing for `undefined`. -/
def compact? : Document → Option String
  | undefined => none
  | null => some "null"
  | boolean b => some (if b then "true" else "false")
  | number x => some (numberText x)
  | integer n => some (Decimal.intText n)
  | text s => some (Text.quote s)
  | list xs => some ("[" ++ ",".intercalate (compactItems xs) ++ "]")
  | record fs => some ("\x7b" ++ ",".intercalate (compactFields fs) ++ "\x7d")

def compactItems : List Document → List String
  | [] => []
  | x :: xs => (compact? x).getD "null" :: compactItems xs

def compactFields : List (String × Document) → List String
  | [] => []
  | (name, value) :: fs =>
    match compact? value with
    | some t => (Text.quote name ++ ":" ++ t) :: compactFields fs
    | none => compactFields fs

end

def compact (d : Document) : String := (compact? d).getD "undefined"

/-- Lines between an opening and a closing bracket, one level deeper. -/
def bracketed (opening closing : String) (depth : Nat) (lines : List String) : String :=
  let margin (n : Nat) : String := String.ofList (List.replicate (2 * n) ' ')
  if lines = [] then opening ++ closing
  else
    opening ++ "\n" ++ ",\n".intercalate (lines.map (margin (depth + 1) ++ ·)) ++ "\n"
      ++ margin depth ++ closing

mutual

/-- JSON with one item or field a line, starting at a depth; nothing for `undefined`. -/
def indentedAt? (depth : Nat) : Document → Option String
  | undefined => none
  | null => some "null"
  | boolean b => some (if b then "true" else "false")
  | number x => some (numberText x)
  | integer n => some (Decimal.intText n)
  | text s => some (Text.quote s)
  | list xs => some (bracketed "[" "]" depth (indentedItems (depth + 1) xs))
  | record fs => some (bracketed "\x7b" "\x7d" depth (indentedFields (depth + 1) fs))

def indentedItems (depth : Nat) : List Document → List String
  | [] => []
  | x :: xs => (indentedAt? depth x).getD "null" :: indentedItems depth xs

def indentedFields (depth : Nat) : List (String × Document) → List String
  | [] => []
  | (name, value) :: fs =>
    match indentedAt? depth value with
    | some t => (Text.quote name ++ ": " ++ t) :: indentedFields depth fs
    | none => indentedFields depth fs

end

/-- JSON over several lines. -/
def indented (d : Document) : String := (indentedAt? 0 d).getD "undefined"

mutual

/-- The loose text of a value: items are joined by commas, a missing item reads as nothing, and
a record shows no content. -/
def plain : Document → String
  | undefined => "undefined"
  | null => "null"
  | boolean b => if b then "true" else "false"
  | number x => Decimal.text x
  | integer n => Decimal.intText n
  | text s => s
  | list xs => ",".intercalate (plainItems xs)
  | record _ => "[object Object]"

def plainItems : List Document → List String
  | [] => []
  | x :: xs => (if x.isMissing then "" else plain x) :: plainItems xs

end

/-- The value as an error message shows it: JSON where there is a JSON form. -/
def shown (d : Document) : String :=
  match d with
  | undefined => "undefined"
  | number x => if x.isFinite then numberText x else Decimal.text x
  | _ => if d.hasInteger then d.plain else d.compact

end MemoryCompiler.Document
