/-!
# Alphabetical order

The order of identifiers for people: blanks and punctuation before digits, digits before letters,
and letters without regard to case. Texts that differ only in case are put in order by the first
letter that does, the small one first.
-/

namespace MemoryCompiler.Text

/-- The characters below the letters, in their order. -/
def belowLetters : List Char :=
  "\t\n\x0b\x0c\r _-,;:!?.'\"()[]\x7b\x7d@*/\\&#%`^+<=>|~$0123456789".toList

/-- The place of a character when case is left out. -/
def letterRank (c : Char) : Nat :=
  match belowLetters.idxOf? c with
  | some i => i
  | none => belowLetters.length + c.toLower.toNat

/-- The first key of a text: the places of its characters. -/
def letterKey (s : String) : List Nat := s.toList.map letterRank

/-- The second key of a text: where capitals stand. -/
def caseKey (s : String) : List Nat := s.toList.map fun c => if c.isUpper then 1 else 0

/-- One list comes before another, item by item; the shorter one first if it is a beginning. -/
def keyBefore : List Nat → List Nat → Bool
  | [], [] => false
  | [], _ :: _ => true
  | _ :: _, [] => false
  | a :: as, b :: bs => if a < b then true else if b < a then false else keyBefore as bs

/-- One text comes before another in alphabetical order. -/
def comesBefore (a b : String) : Bool :=
  if letterKey a = letterKey b then keyBefore (caseKey a) (caseKey b)
  else keyBefore (letterKey a) (letterKey b)

end MemoryCompiler.Text
