import MemoryCompiler.Proofs.Verilog.Token

/-!
# Syntax of hardware text

Modules with parameters, ports, wires and continuous assignments, read from tokens by recursive
descent. Binary operators bind in the order `==`, `&`, `^` and to the left, prefix operators bind
tightest. Reading one token takes at most three calls that are nested in each other, which is where the
fuel of an expression comes from.
-/

namespace MemoryCompiler.Verilog

/-- An expression whose value is known before the circuit runs. -/
inductive Const where
  | literal (n : Nat)
  | parameter (name : String)
  | minus (a b : Const)
deriving DecidableEq, Repr

/-- An expression over nets. -/
inductive Expr where
  | net (name : String)
  /-- `name[index]` -/
  | bit (name : String) (index : Const)
  /-- `name[high:low]` -/
  | range (name : String) (high low : Const)
  /-- `name[low +: width]` -/
  | slice (name : String) (low width : Const)
  | literal (width value : Nat)
  | not (a : Expr)
  /-- The exclusive or of all bits. -/
  | reduceXor (a : Expr)
  /-- The disjunction of all bits. -/
  | reduceOr (a : Expr)
  | equal (a b : Expr)
  | and (a b : Expr)
  | xor (a b : Expr)
  /-- Bits side by side, those of `a` above those of `b`. -/
  | concat (a b : Expr)
deriving DecidableEq, Repr

/-- The bounds of a declared range, the highest index first. -/
abbrev Range := Const × Const

structure Port where
  direction : Rtl.Direction
  range : Option Range
  name : String
deriving DecidableEq, Repr

/-- What stands in the body of a module. -/
inductive Item where
  | wire (range : Option Range) (name : String) (value : Option Expr)
  | assign (name : String) (index : Option Const) (value : Expr)
deriving DecidableEq, Repr

structure Module where
  name : String
  params : List (String × Nat)
  ports : List Port
  items : List Item
deriving DecidableEq, Repr

/-! ### Reading -/

def expect (c : Char) : List Token → Option (List Token)
  | .symbol d :: ts => if c = d then some ts else none
  | _ => none

def keyword (k : String) : List Token → Option (List Token)
  | .word x :: ts => if x = k then some ts else none
  | _ => none

def identifier : List Token → Option (String × List Token)
  | .word x :: ts => some (x, ts)
  | _ => none

def number : List Token → Option (Nat × List Token)
  | .number n :: ts => some (n, ts)
  | _ => none

def constAtom : List Token → Option (Const × List Token)
  | .number n :: ts => some (.literal n, ts)
  | .word x :: ts => some (.parameter x, ts)
  | _ => none

/-- Reads a constant: a number or a parameter, or the difference of two. -/
def constant (ts : List Token) : Option (Const × List Token) := do
  let (a, ts) ← constAtom ts
  match ts with
  | .symbol '-' :: ts => do
    let (b, ts) ← constAtom ts
    some (.minus a b, ts)
  | _ => some (a, ts)

/-- Reads what may follow the name of a net. -/
def selection (name : String) : List Token → Option (Expr × List Token)
  | .symbol '[' :: ts => do
    let (a, ts) ← constant ts
    match ts with
    | .symbol ']' :: ts => some (.bit name a, ts)
    | .symbol ':' :: ts => do
      let (b, ts) ← constant ts
      let ts ← expect ']' ts
      some (.range name a b, ts)
    | .symbol '+' :: .symbol ':' :: ts => do
      let (b, ts) ← constant ts
      let ts ← expect ']' ts
      some (.slice name a b, ts)
    | _ => none
  | ts => some (.net name, ts)

mutual

/-- Reads an operand with its prefix operators. -/
def operand : Nat → List Token → Option (Expr × List Token)
  | 0, _ => none
  | fuel + 1, ts =>
    match ts with
    | .word x :: ts => selection x ts
    | .sized width value :: ts => some (.literal width value, ts)
    | .symbol '~' :: ts => do
      let (a, ts) ← operand fuel ts
      some (.not a, ts)
    | .symbol '^' :: ts => do
      let (a, ts) ← operand fuel ts
      some (.reduceXor a, ts)
    | .symbol '|' :: ts => do
      let (a, ts) ← operand fuel ts
      some (.reduceOr a, ts)
    | .symbol '(' :: ts => do
      let (a, ts) ← expression fuel ts
      let ts ← expect ')' ts
      some (a, ts)
    | .symbol '\x7b' :: ts => parts fuel ts
    | _ => none

def parts : Nat → List Token → Option (Expr × List Token)
  | 0, _ => none
  | fuel + 1, ts => do
    let (a, ts) ← expression fuel ts
    match ts with
    | .symbol ',' :: ts => do
      let (b, ts) ← parts fuel ts
      some (.concat a b, ts)
    | .symbol '\x7d' :: ts => some (a, ts)
    | _ => none

def comparison : Nat → List Token → Option (Expr × List Token)
  | 0, _ => none
  | fuel + 1, ts => do
    let (a, ts) ← operand fuel ts
    match ts with
    | .symbol '=' :: .symbol '=' :: ts => do
      let (b, ts) ← operand fuel ts
      some (.equal a b, ts)
    | _ => some (a, ts)

def factors : Nat → Expr → List Token → Option (Expr × List Token)
  | 0, _, _ => none
  | fuel + 1, a, ts =>
    match ts with
    | .symbol '&' :: ts => do
      let (b, ts) ← comparison fuel ts
      factors fuel (.and a b) ts
    | _ => some (a, ts)

def terms : Nat → Expr → List Token → Option (Expr × List Token)
  | 0, _, _ => none
  | fuel + 1, a, ts =>
    match ts with
    | .symbol '^' :: ts => do
      let (b, ts) ← comparison fuel ts
      let (b, ts) ← factors fuel b ts
      terms fuel (.xor a b) ts
    | _ => some (a, ts)

def expression : Nat → List Token → Option (Expr × List Token)
  | 0, _ => none
  | fuel + 1, ts => do
    let (a, ts) ← comparison fuel ts
    let (a, ts) ← factors fuel a ts
    terms fuel a ts

end

def range? : List Token → Option (Option Range × List Token)
  | .symbol '[' :: ts => do
    let (high, ts) ← constant ts
    let ts ← expect ':' ts
    let (low, ts) ← constant ts
    let ts ← expect ']' ts
    some (some (high, low), ts)
  | ts => some (none, ts)

def wire (ts : List Token) : Option (Item × List Token) := do
  let (range, ts) ← range? ts
  let (name, ts) ← identifier ts
  match ts with
  | .symbol '=' :: ts => do
    let (value, ts) ← expression (3 * ts.length + 3) ts
    let ts ← expect ';' ts
    some (.wire range name (some value), ts)
  | ts => do
    let ts ← expect ';' ts
    some (.wire range name none, ts)

def assign (ts : List Token) : Option (Item × List Token) := do
  let (name, ts) ← identifier ts
  let (index, ts) ← match ts with
    | .symbol '[' :: ts => do
      let (i, ts) ← constant ts
      let ts ← expect ']' ts
      some (some i, ts)
    | ts => some (none, ts)
  let ts ← expect '=' ts
  let (value, ts) ← expression (3 * ts.length + 3) ts
  let ts ← expect ';' ts
  some (.assign name index value, ts)

def item : List Token → Option (Item × List Token)
  | .word x :: ts => if x = "wire" then wire ts else if x = "assign" then assign ts else none
  | _ => none

def items : Nat → List Token → Option (List Item × List Token)
  | 0, _ => none
  | fuel + 1, ts =>
    match keyword "endmodule" ts with
    | some ts => some ([], ts)
    | none => do
      let (a, ts) ← item ts
      let (rest, ts) ← items fuel ts
      some (a :: rest, ts)

def param (ts : List Token) : Option ((String × Nat) × List Token) := do
  let ts ← keyword "parameter" ts
  let (name, ts) ← identifier ts
  let ts ← expect '=' ts
  let (value, ts) ← number ts
  some ((name, value), ts)

def port (ts : List Token) : Option (Port × List Token) := do
  let (d, ts) ← identifier ts
  let direction ← [Rtl.Direction.input, .output, .inout].find? fun x => x.text == d
  let ts ← keyword "wire" ts
  let (range, ts) ← range? ts
  let (name, ts) ← identifier ts
  some (⟨direction, range, name⟩, ts)

def commaList {α : Type} (one : List Token → Option (α × List Token)) :
    Nat → List Token → Option (List α × List Token)
  | 0, _ => none
  | fuel + 1, ts => do
    let (a, ts) ← one ts
    match ts with
    | .symbol ',' :: ts => do
      let (rest, ts) ← commaList one fuel ts
      some (a :: rest, ts)
    | ts => do
      let ts ← expect ')' ts
      some ([a], ts)

def params? : List Token → Option (List (String × Nat) × List Token)
  | .symbol '#' :: ts => do
    let ts ← expect '(' ts
    commaList param ts.length ts
  | ts => some ([], ts)

def module? (ts : List Token) : Option (Module × List Token) := do
  let ts ← keyword "module" ts
  let (name, ts) ← identifier ts
  let (params, ts) ← params? ts
  let ts ← expect '(' ts
  let (ports, ts) ← commaList port ts.length ts
  let ts ← expect ';' ts
  let (items, ts) ← items ts.length ts
  some (⟨name, params, ports, items⟩, ts)

/-- Reads a text that holds one module and nothing else. -/
def read (text : String) : Option Module :=
  match module? (tokens text) with
  | some (m, []) => some m
  | _ => none

end MemoryCompiler.Verilog
