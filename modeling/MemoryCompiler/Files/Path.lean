/-!
# Paths

A path is a list of parts between slashes. `join` and `resolve` clean it up: a single dot goes away
and two dots take back the part before them. A path that is used as it was given keeps its dots,
since the directories before them have to be there.
-/

namespace MemoryCompiler.Files

/-- A path. Its parts are not empty and hold no slash. -/
structure Path where
  /-- The path starts at the root. -/
  rooted : Bool
  parts : List String
  /-- A slash follows the last part. -/
  slashed : Bool
deriving DecidableEq, Repr

namespace Path

/-- The parts of a text between its slashes, without the empty ones. -/
def splitParts (s : String) : List String :=
  ((s.toList.splitOn '/').map String.ofList).filter (· ≠ "")

/-- Reads a text as a path. -/
def ofText (s : String) : Path :=
  let parts := splitParts s
  ⟨s.toList.head? = some '/', parts, !parts.isEmpty && s.toList.getLast? = some '/'⟩

def text (p : Path) : String :=
  (if p.rooted then "/" else "") ++ "/".intercalate p.parts ++ (if p.slashed then "/" else "")

def isEmpty (p : Path) : Bool := !p.rooted && p.parts.isEmpty

/-- Adds a part behind cleaned parts, the last one first. Above the root there is only the root. -/
def pushPart (rooted : Bool) (done : List String) (part : String) : List String :=
  if part = "." then done
  else if part = ".." then
    match done with
    | last :: rest => if last = ".." then part :: done else rest
    | [] => if rooted then [] else [part]
  else part :: done

/-- The parts without those that dots take back. -/
def cleanParts (rooted : Bool) (parts : List String) : List String :=
  (parts.foldl (pushPart rooted) []).reverse

/-- The path without detours; a path to where it starts is a dot. -/
def clean (p : Path) : Path :=
  let parts := cleanParts p.rooted p.parts
  if parts.isEmpty then ⟨p.rooted, if p.rooted then [] else ["."], p.slashed && !p.rooted⟩
  else ⟨p.rooted, parts, p.slashed⟩

/-- The cleaned path of a name below a path. -/
def join (p : Path) (name : String) : Path :=
  let q := ofText name
  if p.isEmpty then q.clean
  else
    clean ⟨p.rooted, p.parts ++ q.parts,
      if q.parts.isEmpty then p.slashed || q.rooted else q.slashed⟩

/-- The path from the root, for a path that starts at a directory. -/
def resolve (directory p : Path) : Path :=
  let parts := if p.rooted then p.parts else directory.parts ++ p.parts
  ⟨true, cleanParts true parts, false⟩

/-- The path of the directory that holds the last part. -/
def parent (p : Path) : Path :=
  ⟨p.rooted, if p.parts.length = 1 ∧ !p.rooted then ["."] else p.parts.dropLast, false⟩

def name (p : Path) : String := p.parts.getLast?.getD ""

/-- The path with a suffix at its last part. -/
def extend (p : Path) (suffix : String) : Path :=
  ⟨p.rooted, p.parts.dropLast ++ [p.name ++ suffix], false⟩

end Path

end MemoryCompiler.Files
