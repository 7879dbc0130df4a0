import Mathlib.Data.List.Basic

/-!
# Reading XML

What a document says: a declaration, one root element, and inside elements characters and further
elements. `read` takes the text of a document apart and fails unless it is well formed. Every start tag
has its end tag, in nesting order; attribute values stand between double quotes, hold neither these nor
`<`, and no attribute is given twice; every `&` begins one of the five entities; and no text holds `]]>`.
Comments, processing instructions, character data sections and document types are not read at all. Entities
are replaced by their characters; line ends and white space are given as they stand. Which characters a
document may hold is said apart (`isText`).
-/

namespace MemoryCompiler.Xml

/-! ### Documents -/

/-- The name and the attributes of an element. -/
structure Tag where
  name : String
  attrs : List (String × String)
deriving DecidableEq, Repr

/-- What stands in an element, one character or one element at a time. -/
inductive Item where
  | char (c : Char)
  | element (tag : Tag) (content : List Item)
deriving Repr

/-- An element by itself. -/
structure Element where
  tag : Tag
  content : List Item

def chars (s : String) : List Item := s.toList.map .char

mutual

/-- An element and those inside it, in the order of their start tags. -/
def Item.elements : Item → List Element
  | .char _ => []
  | .element tag content => ⟨tag, content⟩ :: elementsIn content

def elementsIn : List Item → List Element
  | [] => []
  | i :: rest => i.elements ++ elementsIn rest

end

mutual

/-- An item with `keep` applied to its attributes and without the characters in it. -/
def Item.outline (keep : String × String → String × String) : Item → List Item
  | .char _ => []
  | .element tag content => [.element ⟨tag.name, tag.attrs.map keep⟩ (outlineIn keep content)]

def outlineIn (keep : String × String → String × String) : List Item → List Item
  | [] => []
  | i :: rest => i.outline keep ++ outlineIn keep rest

end

/-! ### Characters -/

/-- The characters that a document may hold. -/
def isXmlChar (c : Char) : Bool :=
  c == '\t' || c == '\n' || c == '\r' || (decide (0x20 ≤ c.toNat) && decide (c.toNat ≤ 0xD7FF))
    || (decide (0xE000 ≤ c.toNat) && decide (c.toNat ≤ 0xFFFD)) || decide (0x10000 ≤ c.toNat)

def isText (s : String) : Bool := s.toList.all isXmlChar

/-- White space between attributes and around the root. -/
def isSpace (c : Char) : Bool := c == ' ' || c == '\t' || c == '\n' || c == '\r'

def startsName (c : Char) : Bool := c.isAlpha || c == '_' || c == ':'

def inName (c : Char) : Bool := startsName c || c.isDigit || c == '-' || c == '.'

/-- The entities that need no declaration. -/
def entities : List (String × Char) :=
  [("amp", '&'), ("lt", '<'), ("gt", '>'), ("quot", '"'), ("apos", '\'')]

def entity? (name : List Char) : Option Char := entities.lookup (String.ofList name)

/-! ### Tags and characters of a text -/

/-- A tag or one character. -/
inductive Token where
  | char (c : Char)
  | start (tag : Tag)
  | finish (name : String)
  | empty (tag : Tag)
deriving DecidableEq, Repr

/-- Where a character of a text goes. -/
inductive Place where
  /-- Between tags, after so many closing brackets, counted up to two. -/
  | content (brackets : Nat)
  /-- Into the value of an attribute. -/
  | value (tag : Tag) (name : String) (reversed : List Char)

/-- What has been read of a tag or an entity. -/
inductive Scan where
  | text (p : Place)
  /-- After `&` and a part of the name. -/
  | reference (p : Place) (reversed : List Char)
  /-- After `<`. -/
  | opened
  | closing (reversed : List Char)
  | naming (reversed : List Char)
  /-- Where an attribute may begin. -/
  | inside (tag : Tag)
  | attrName (tag : Tag) (reversed : List Char)
  /-- After the name of an attribute and `=`. -/
  | equals (tag : Tag) (name : String)
  /-- After the value of an attribute. -/
  | quoted (tag : Tag)
  /-- After `/` in a tag without content. -/
  | emptied (tag : Tag)

def Place.put (c : Char) : Place → List Token × Scan
  | content _ => ([.char c], .text (.content 0))
  | value tag name reversed => ([], .text (.value tag name (c :: reversed)))

namespace Scan

/-- What may follow the name or an attribute of a tag. -/
def afterPart (tag : Tag) (c : Char) : Option (List Token × Scan) :=
  if isSpace c then some ([], inside tag)
  else if c = '>' then some ([.start tag], text (.content 0))
  else if c = '/' then some ([], emptied tag)
  else none

def next (s : Scan) (c : Char) : Option (List Token × Scan) :=
  match s with
  | text (.content brackets) =>
    if c = '<' then some ([], opened)
    else if c = '&' then some ([], reference (.content brackets) [])
    else if c = '>' ∧ brackets = 2 then none
    else some ([.char c], text (.content (if c = ']' then min (brackets + 1) 2 else 0)))
  | text (.value tag name reversed) =>
    if c = '<' then none
    else if c = '&' then some ([], reference (.value tag name reversed) [])
    else if c = '"' then
      if name ∈ tag.attrs.map Prod.fst then none
      else some ([], quoted ⟨tag.name, tag.attrs ++ [(name, String.ofList reversed.reverse)]⟩)
    else some ([], text (.value tag name (c :: reversed)))
  | reference p reversed =>
    if c = ';' then (entity? reversed.reverse).map fun e => p.put e
    else some ([], reference p (c :: reversed))
  | opened =>
    if c = '/' then some ([], closing [])
    else if startsName c then some ([], naming [c])
    else none
  | closing reversed =>
    if c = '>' then some ([.finish (String.ofList reversed.reverse)], text (.content 0))
    else some ([], closing (c :: reversed))
  | naming reversed =>
    if inName c then some ([], naming (c :: reversed))
    else afterPart ⟨String.ofList reversed.reverse, []⟩ c
  | inside tag => if startsName c then some ([], attrName tag [c]) else afterPart tag c
  | attrName tag reversed =>
    if inName c then some ([], attrName tag (c :: reversed))
    else if c = '=' then some ([], equals tag (String.ofList reversed.reverse))
    else none
  | equals tag name => if c = '"' then some ([], text (.value tag name [])) else none
  | quoted tag => afterPart tag c
  | emptied tag => if c = '>' then some ([.empty tag], text (.content 0)) else none

/-- A text must not end inside a tag or an entity. -/
def mayEnd : Scan → Bool
  | text (.content _) => true
  | _ => false

def tokens (s : Scan) : List Char → Option (List Token)
  | [] => if s.mayEnd then some [] else none
  | c :: cs => (s.next c).bind fun r => (r.2.tokens cs).map (r.1 ++ ·)

end Scan

/-! ### The tree of a text -/

/-- Matches the tags. The path holds the elements that are open, the innermost first, each with what
stands before it, and `before` what stands in the innermost so far; both are reversed. -/
def build (path : List (Tag × List Item)) (before : List Item) : List Token → Option (List Item)
  | [] => if path.isEmpty then some before.reverse else none
  | .char c :: ts => build path (.char c :: before) ts
  | .empty tag :: ts => build path (.element tag [] :: before) ts
  | .start tag :: ts => build ((tag, before) :: path) [] ts
  | .finish name :: ts =>
    match path with
    | [] => none
    | (tag, outer) :: path =>
      if name = tag.name then build path (.element tag before.reverse :: outer) ts else none

/-- White space outside of the root. -/
def Item.isSpace : Item → Bool
  | .char c => Xml.isSpace c
  | .element _ _ => false

def root? (items : List Item) : Option Item :=
  match items.filter (!·.isSpace) with
  | [.element tag content] => some (.element tag content)
  | _ => none

def declaration : String := "<?xml version=\"1.0\" encoding=\"UTF-8\"?>\n"

/-- The root of a well-formed document. -/
def read (s : String) : Option Item := do
  let body ← s.toList.dropPrefix? declaration.toList
  let tokens ← (Scan.text (.content 0)).tokens body
  root? (← build [] [] tokens)

/-- Wrong nesting, an open element, two roots, a bare `&`, a `<` in a value and `]]>` are all refused. -/
example : ∀ body ∈ ["<a><b></a></b>", "<a>", "<a/><b/>", "<a>&</a>", "<a b=\"<\"/>", "<a>]]></a>"],
    (read (declaration ++ body)).isNone = true := by decide

end MemoryCompiler.Xml
