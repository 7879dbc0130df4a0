import MemoryCompiler.Complaint
import MemoryCompiler.Process.Node

/-!
# Process tables

A table maps process nodes, given in nanometres, to their constants. Its entries are kept in
descending order of the node, the order in which tables are listed.
-/

namespace MemoryCompiler

/-- Constants by process node, the largest node first. -/
structure ProcessTable where
  entries : List (Nat × ProcessNode Float)
deriving Repr

namespace ProcessTable

def nodes (t : ProcessTable) : List Nat := t.entries.map Prod.fst

def find? (t : ProcessTable) (node : Nat) : Option (ProcessNode Float) := t.entries.lookup node

/-- Puts an entry at its place in a descending list, over an entry of the same node. -/
def insertEntry (node : Nat) (n : ProcessNode Float) :
    List (Nat × ProcessNode Float) → List (Nat × ProcessNode Float)
  | [] => [(node, n)]
  | (m, k) :: rest =>
    if m < node then (node, n) :: (m, k) :: rest
    else if m = node then (node, n) :: rest
    else (m, k) :: insertEntry node n rest

/-- Sets the constants of a node. -/
def insert (t : ProcessTable) (node : Nat) (n : ProcessNode Float) : ProcessTable :=
  ⟨insertEntry node n t.entries⟩

theorem find?_insert (t : ProcessTable) (node : Nat) (n : ProcessNode Float) :
    (t.insert node n).find? node = some n := by
  rcases t with ⟨es⟩
  simp only [insert, find?]
  induction es with
  | nil => simp [insertEntry]
  | cons e rest ih =>
    rcases e with ⟨m, k⟩
    simp only [insertEntry]
    split
    · simp
    · split
      · simp
      · next h =>
        have h' : (node == m) = false := by simpa using fun e => h e.symm
        simp [List.lookup_cons, h', ih]

theorem find?_insert_of_ne (t : ProcessTable) {node other : Nat} (n : ProcessNode Float)
    (h : other ≠ node) : (t.insert node n).find? other = t.find? other := by
  rcases t with ⟨es⟩
  have hb : (other == node) = false := by simpa using h
  simp only [insert, find?]
  induction es with
  | nil => simp [insertEntry, h]
  | cons e rest ih =>
    rcases e with ⟨m, k⟩
    simp only [insertEntry]
    split
    · simp [List.lookup_cons, hb]
    · split
      · next hm => subst hm; simp [List.lookup_cons, hb]
      · simp [List.lookup_cons, ih]

/-- The built-in constants from 180 nm down to 7 nm. -/
def standard : ProcessTable where
  entries := [
    (180, ⟨4.65, 9.98, 0.8, 0.45, 1.2, 0.02, 0.6, 0.45, 0.3, 0.6, 1.62, 1.98, 1.8⟩),
    (130, ⟨2.43, 5.1, 2, 0.32, 0.9, 0.014, 0.42, 0.4, 0.22, 0.45, 1.08, 1.32, 1.2⟩),
    (90, ⟨0.99, 2.82, 6, 0.22, 0.62, 0.01, 0.3, 0.35, 0.16, 0.32, 0.9, 1.1, 1.0⟩),
    (65, ⟨0.525, 1.41, 12, 0.16, 0.45, 0.008, 0.22, 0.33, 0.12, 0.24, 0.9, 1.1, 1.0⟩),
    (45, ⟨0.346, 0.98, 20, 0.12, 0.34, 0.006, 0.17, 0.32, 0.09, 0.18, 0.8, 1.1, 1.0⟩),
    (28, ⟨0.127, 0.49, 35, 0.08, 0.25, 0.004, 0.12, 0.3, 0.07, 0.13, 0.8, 1.1, 0.9⟩),
    (22, ⟨0.092, 0.35, 45, 0.065, 0.22, 0.0035, 0.1, 0.28, 0.06, 0.11, 0.72, 1.0, 0.8⟩),
    (16, ⟨0.074, 0.2, 60, 0.05, 0.18, 0.003, 0.08, 0.26, 0.05, 0.09, 0.65, 0.95, 0.8⟩),
    (7, ⟨0.027, 0.08, 90, 0.03, 0.12, 0.002, 0.06, 0.22, 0.035, 0.06, 0.6, 0.9, 0.75⟩)]

end ProcessTable

/-- The text of a process node as a number: shortest form, as nodes may be larger than any
written out digit by digit. -/
def nodeText (node : Nat) : String := Decimal.text (Float.ofNat node)

/-- A process node that the table at hand does not cover. -/
structure UnknownNode where
  node : Document
  known : List Nat

/-- The field is always the process node. -/
def UnknownNode.complaint (e : UnknownNode) : Complaint where
  field := "process_node"
  value := e.node
  expected := "one of " ++ ", ".intercalate (e.known.map nodeText) ++ " (nm)"

/-- The constants of a node, or a complaint that lists the nodes there are. -/
def ProcessTable.lookup (t : ProcessTable) (node : Nat) : Except UnknownNode (ProcessNode Float) :=
  match t.find? node with
  | some n => .ok n
  | none => .error ⟨.ofNat node, t.nodes⟩

/-- The same for an untyped node: only a number that is a whole one can be found. -/
def ProcessTable.lookupDocument (t : ProcessTable) (node : Document) :
    Except UnknownNode (ProcessNode Float) :=
  let found : Option (ProcessNode Float) := match node with
    | .number x =>
      match Decimal.wholeValue x with
      | some (.ofNat n) => t.find? n
      | _ => none
    | _ => none
  match found with
  | some n => .ok n
  | none => .error ⟨node, t.nodes⟩

end MemoryCompiler
