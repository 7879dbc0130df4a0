import MemoryCompiler.Files.Tree

/-!
# Running programs on a tree of files

A host answers the requests of a program from a tree of files and keeps what was printed. Renames
may be disturbed: the n-th one may fail for a reason of its own, and before it fails another writer
may have put a directory at its target.
-/

namespace MemoryCompiler.Files

/-- What happens to a rename in place of being carried out. -/
inductive Disturbance where
  | fails (reason : String)
  /-- Another writer first puts a directory with these files at the target. -/
  | overtaken (reason : String) (files : List (String × String))

/-- A tree of files with what a program has done so far. -/
structure Host where
  tree : Tree
  /-- Where paths without a root start. -/
  directory : Place
  /-- The fresh directories made so far. -/
  made : Nat
  /-- The lines printed so far, the last one first. -/
  printed : List ConsoleLine
  /-- The renames asked for so far. -/
  renames : Nat

namespace Host

-- Sums start from the zero of the core library, also where another instance is in scope.
attribute [local instance (high)] Zero.ofOfNat0

/-- A host that starts in a directory. -/
def start (tree : Tree) (directory : Place) : Host := ⟨tree, directory, 0, [], 0⟩

/-- The console lines in order. -/
def console (h : Host) : List ConsoleLine := h.printed.reverse

/-! ## Fresh names -/

/-- Six characters for a number. -/
def freshSuffix (n : Nat) : String :=
  let digits := Nat.toDigits 10 n
  String.ofList (List.replicate (6 - digits.length) '0' ++ digits)

/-- No name in the tree starts like this. -/
def isFresh (t : Tree) (name : String) : Bool :=
  t.entries.all fun x => x.1.all fun part => !name.toList.isPrefixOf part.toList

/-- The letters of all names in a tree. A name starts like at most one fresh name of each length, so
fewer numbers than that are taken. -/
def letters (t : Tree) : Nat := (t.entries.map fun x => (x.1.map String.length).sum).sum

/-- The first number from `n` on that makes a fresh name, among so many. -/
def freshNumber? (t : Tree) (stem : String) : Nat → Nat → Option Nat
  | 0, _ => none
  | tries + 1, n => if isFresh t (stem ++ freshSuffix n) then some n else freshNumber? t stem tries (n + 1)

/-- Makes a directory under a fresh name. -/
def makeFresh (h : Host) (p : Path) : Except Fault Path × Host :=
  match freshNumber? h.tree p.name (letters h.tree + 1) h.made with
  | none => (.error .taken, h)
  | some n =>
    let path := p.extend (freshSuffix n)
    match h.tree.makeDirectory h.directory path with
    | .ok t => (.ok path, { h with tree := t, made := n + 1 })
    | .error f => (.error f, h)

/-! ## Answers -/

/-- Puts another writer's directory at a path, unless something is there. -/
def overtake (h : Host) (target : Path) (files : List (String × String)) : Except Fault Tree := do
  let t ← h.tree.makeDirectory h.directory target
  files.foldlM (fun t f => t.write h.directory (target.join f.1) f.2) t

/-- Renames, unless the rename is disturbed. -/
def rename (disturbed : Nat → Option Disturbance) (h : Host) (source target : Path) :
    Except Fault Unit × Host :=
  let h := { h with renames := h.renames + 1 }
  match disturbed h.renames with
  | some (.fails reason) => (.error (.other reason), h)
  | some (.overtaken reason files) =>
    match h.overtake target files with
    | .ok t => (.error (.other reason), { h with tree := t })
    | .error f => (.error f, h)
  | none =>
    match h.tree.rename h.directory source target with
    | .ok t => (.ok (), { h with tree := t })
    | .error f => (.error f, h)

/-- Answers one request. -/
def answer (disturbed : Nat → Option Disturbance) (h : Host) : (r : Request) → r.Answer × Host
  | .workingDirectory => (⟨true, h.directory, false⟩, h)
  | .read p => (h.tree.read h.directory p, h)
  | .write p text =>
    match h.tree.write h.directory p text with
    | .ok t => (.ok (), { h with tree := t })
    | .error f => (.error f, h)
  | .makeDirectories p =>
    let (result, t) := h.tree.makeDirectories h.directory p
    (result, { h with tree := t })
  | .makeFresh p => h.makeFresh p
  | .present p => ((h.tree.find h.directory p).isOk, h)
  | .isDirectory p => ((h.tree.find h.directory p).map fun x => x.2 = .directory, h)
  | .rename source target => h.rename disturbed source target
  | .remove p => ((), { h with tree := h.tree.remove h.directory p })
  | .print line => ((), { h with printed := line :: h.printed })

/-- Runs a program to its end. -/
def run {α : Type} (disturbed : Nat → Option Disturbance) : Host → Program α → α × Host
  | h, .done a => (a, h)
  | h, .call r next => run disturbed (h.answer disturbed r).2 (next (h.answer disturbed r).1)

theorem run_ask (disturbed : Nat → Option Disturbance) (h : Host) (r : Request) :
    h.run disturbed (Program.ask r) = h.answer disturbed r := rfl

theorem run_bind {α β : Type} (disturbed : Nat → Option Disturbance) (h : Host) (p : Program α)
    (f : α → Program β) :
    h.run disturbed (p >>= f) = (h.run disturbed p).2.run disturbed (f (h.run disturbed p).1) := by
  induction p generalizing h with
  | done a => rfl
  | call r next ih => rw [Program.bind_call]; exact ih _ _

end Host

end MemoryCompiler.Files
