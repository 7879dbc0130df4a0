import MemoryCompiler.Files.Program

/-!
# Trees of files

A tree is the list of what is at which place below the root, a place being the names on the way to
it. The root itself is always a directory. The operations keep to the rules of a file system:
nothing lies below a file, a file is written only into a directory that is there, and a directory
takes another's place only if that one is empty.
-/

namespace MemoryCompiler.Files

/-- The names on the way from the root. -/
abbrev Place := List String

/-- What can be at a place. -/
inductive Entry where
  | file (text : String)
  | directory
deriving DecidableEq, Repr

/-- A tree of files. -/
structure Tree where
  entries : List (Place × Entry)
deriving Repr

namespace Tree

def empty : Tree := ⟨[]⟩

def get? (t : Tree) (p : Place) : Option Entry :=
  if p = [] then some .directory else t.entries.lookup p

def put (t : Tree) (p : Place) (e : Entry) : Tree :=
  ⟨(t.entries.filter fun x => x.1 != p) ++ [(p, e)]⟩

def erase (t : Tree) (p : Place) : Tree :=
  ⟨t.entries.filter fun x => !p.isPrefixOf x.1⟩

/-- Moves what is at a place and below it to a place where nothing is. -/
def graft (t : Tree) (p q : Place) : Tree :=
  ⟨t.entries.map fun x => if p.isPrefixOf x.1 then (q ++ x.1.drop p.length, x.2) else x⟩

/-- Whether something lies below a place. -/
def isInhabited (t : Tree) (p : Place) : Bool :=
  t.entries.any fun x => p.isPrefixOf x.1 && x.1 ≠ p

theorem get?_root (t : Tree) : t.get? [] = some .directory := rfl

theorem lookup_filter {α β : Type} [BEq α] [LawfulBEq α] (keep : α → Bool) (p : α)
    (entries : List (α × β)) :
    (entries.filter fun x => keep x.1).lookup p = if keep p then entries.lookup p else none := by
  induction entries with
  | nil => simp
  | cons x rest ih =>
    rcases x with ⟨q, e⟩
    by_cases hq : p = q
    · subst hq
      by_cases hk : keep p
      · simp [hk]
      · simp only [List.filter_cons, hk, Bool.false_eq_true, if_false, ih]
    · have hb : (p == q) = false := by simpa using hq
      by_cases hk : keep q <;> simp [hk, List.lookup_cons, hb, ih]

theorem get?_put (t : Tree) {p : Place} (e : Entry) (h : p ≠ []) : (t.put p e).get? p = some e := by
  simp only [get?, put, h, if_false, List.lookup_append, lookup_filter fun q => q != p]
  simp

theorem get?_put_of_ne (t : Tree) {p q : Place} (e : Entry) (h : q ≠ p) :
    (t.put p e).get? q = t.get? q := by
  have hb : (q == p) = false := by simpa using h
  have hk : (q != p) = true := by simpa using h
  simp only [get?, put, List.lookup_append, lookup_filter fun q => q != p]
  simp [hk, List.lookup_cons, hb]

theorem get?_erase (t : Tree) {p q : Place} (h : q ≠ []) :
    (t.erase p).get? q = if p.isPrefixOf q then none else t.get? q := by
  simp only [get?, erase, h, if_false, lookup_filter (fun q => !p.isPrefixOf q)]
  by_cases hp : p.isPrefixOf q <;> simp [hp]

/-! ## Finding places -/

/-- Follows names from a place. All but the last must be directories that are there. -/
def walk (t : Tree) : Place → List String → Except Fault Place
  | here, [] => .ok here
  | here, name :: rest =>
    if name = "." then walk t here rest
    else if name = ".." then walk t here.dropLast rest
    else
      match t.get? (here ++ [name]), rest with
      | some .directory, _ => walk t (here ++ [name]) rest
      | _, [] => .ok (here ++ [name])
      | some (.file _), _ => .error .notDirectory
      | none, _ => .error .missing

/-- The place of a path, where nothing need be. -/
def locate (t : Tree) (directory : Place) (p : Path) : Except Fault Place :=
  if p.isEmpty then .error .missing else t.walk (if p.rooted then [] else directory) p.parts

/-- What a path leads to. A slash behind it asks for a directory. -/
def find (t : Tree) (directory : Place) (p : Path) : Except Fault (Place × Entry) := do
  let place ← t.locate directory p
  match t.get? place with
  | some (.file text) => if p.slashed then .error .notDirectory else .ok (place, .file text)
  | some .directory => .ok (place, .directory)
  | none => .error .missing

/-! ## Operations -/

def read (t : Tree) (directory : Place) (p : Path) : Except Fault String := do
  match ← t.find directory p with
  | (_, .file text) => .ok text
  | (_, .directory) => .error .isDirectory

/-- Writes a file, over the one that may be there. -/
def write (t : Tree) (directory : Place) (p : Path) (text : String) : Except Fault Tree := do
  let place ← t.locate directory p
  if p.slashed || t.get? place = some .directory then .error .isDirectory
  else .ok (t.put place (.file text))

def makeDirectory (t : Tree) (directory : Place) (p : Path) : Except Fault Tree := do
  let place ← t.locate directory p
  match t.get? place with
  | some _ => .error .taken
  | none => .ok (t.put place .directory)

/-- Follows names from a place and makes the directories that are missing on the way. Those that
were made before a fault stay. -/
def makeWay (slashed : Bool) : Tree → Place → List String → Except Fault Unit × Tree
  | t, _, [] => (.ok (), t)
  | t, here, name :: rest =>
    if name = "." then makeWay slashed t here rest
    else if name = ".." then makeWay slashed t here.dropLast rest
    else
      match t.get? (here ++ [name]) with
      | some .directory => makeWay slashed t (here ++ [name]) rest
      | some (.file _) => (.error (if rest = [] && !slashed then .taken else .notDirectory), t)
      | none => makeWay slashed (t.put (here ++ [name]) .directory) (here ++ [name]) rest

def makeDirectories (t : Tree) (directory : Place) (p : Path) : Except Fault Unit × Tree :=
  if p.isEmpty then (.error .missing, t)
  else makeWay p.slashed t (if p.rooted then [] else directory) p.parts

/-- Moves what one path leads to: a file over a file or to where nothing is, a directory over an
empty directory or to where nothing is, and never into itself. -/
def rename (t : Tree) (directory : Place) (source target : Path) : Except Fault Tree := do
  let (p, e) ← t.find directory source
  let q ← t.locate directory target
  if p = q then .ok t
  else if p.isPrefixOf q then .error .insideItself
  else
    match e, t.get? q with
    | .directory, some (.file _) => .error .notDirectory
    | .file _, some .directory => .error .isDirectory
    | _, none => .ok (t.graft p q)
    | _, some _ => if t.isInhabited q then .error .notEmpty else .ok ((t.erase q).graft p q)

def remove (t : Tree) (directory : Place) (p : Path) : Tree :=
  match t.find directory p with
  | .ok (place, _) => t.erase place
  | .error _ => t

end Tree

end MemoryCompiler.Files
