/-!
# Markup

XML as a tree of elements and texts, and its printing. Texts and attribute values are escaped;
`verbatim` content, which holds style sheets and the white space between elements, is not.
-/

namespace MemoryCompiler.Diagram

/-- A character inside a text or an attribute value. -/
def escapeChar (c : Char) : List Char :=
  if c = '&' then "&amp;".toList
  else if c = '<' then "&lt;".toList
  else if c = '>' then "&gt;".toList
  else if c = '"' then "&quot;".toList
  else if c = '\'' then "&apos;".toList
  else [c]

/-- A text with the five special characters written as entities. -/
def escape (s : String) : String := String.ofList (s.toList.flatMap escapeChar)

/-- A piece of an XML document. -/
inductive Markup where
  | text (s : String)
  | verbatim (s : String)
  /-- An element without content. -/
  | empty (name : String) (attrs : List (String × String))
  | element (name : String) (attrs : List (String × String)) (content : List Markup)
deriving Repr

namespace Markup

/-- The attributes of a tag, each after a blank. -/
def attrsText (attrs : List (String × String)) : String :=
  String.join (attrs.map fun a => " " ++ a.1 ++ "=\"" ++ escape a.2 ++ "\"")

mutual

def print : Markup → String
  | text s => escape s
  | verbatim s => s
  | empty name attrs => "<" ++ name ++ attrsText attrs ++ "/>"
  | element name attrs content =>
    "<" ++ name ++ attrsText attrs ++ ">" ++ printAll content ++ "</" ++ name ++ ">"

def printAll : List Markup → String
  | [] => ""
  | m :: rest => print m ++ printAll rest

end

/-- Pieces that each start a line of their own after a margin. -/
def onLines (margin : String) (pieces : List Markup) : List Markup :=
  pieces.flatMap fun m => [verbatim ("\n" ++ margin), m]

def document (root : Markup) : String :=
  "<?xml version=\"1.0\" encoding=\"UTF-8\"?>\n" ++ print root ++ "\n"

end Markup

end MemoryCompiler.Diagram
