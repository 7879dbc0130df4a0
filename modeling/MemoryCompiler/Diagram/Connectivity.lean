import MemoryCompiler.Diagram.Graph
import MemoryCompiler.Rtl.Netlist

/-!
# The graph of a design

The top level as a graph: a node for the input ports, one for each instance and one for the output
ports. An edge runs from the driver of a net to each instance that uses it; nets between the same
two nodes share an edge. A net without a driver of its own is driven through its assignment, and
`Wiring.search` follows such assignments without going twice through one.
-/

namespace MemoryCompiler.Diagram

open Rtl (Module Role Port Assign Direction)

def inputsId : String := "inputs"

def outputsId : String := "outputs"

def roleCategory : Role → String
  | .top => "io"
  | .core | .powerWrapper => "mem"
  | .clockGate => "ctrl"
  | .eccEncoder | .eccDecoder => "compute"

/-- The entry written last under a key. -/
def latest? {α : Type} (key : String) (entries : List (String × α)) : Option α :=
  entries.reverse.lookup key

/-! ## What drives a net -/

/-- What is known about the nets of a top level. -/
structure Wiring where
  /-- Nets with the node that drives them, in the order of declaration. -/
  drivers : List (String × String)
  /-- Assigned nets with their expressions. -/
  assigned : List (String × String)

namespace Wiring

def driver? (w : Wiring) (net : String) : Option String :=
  (latest? net w.drivers).filter (· ≠ "")

/-- The assigned nets that have not been looked at. -/
def unseen (w : Wiring) (seen : List String) : List (String × String) :=
  w.assigned.filter fun a => !seen.contains a.1

theorem unseen_cons_lt (w : Wiring) {net expr : String} {seen : List String}
    (hs : seen.contains net = false) (ha : latest? net w.assigned = some expr) :
    (w.unseen (net :: seen)).length < (w.unseen seen).length := by
  have hm : (net, expr) ∈ w.assigned := by
    have h : ∀ l : List (String × String), l.lookup net = some expr → (net, expr) ∈ l := by
      intro l
      induction l with
      | nil => simp
      | cons a r ih =>
        obtain ⟨k, v⟩ := a
        simp only [List.lookup_cons]
        split
        · next hk =>
          intro hv
          have : net = k := by simpa using hk
          simp_all
        · intro hv; exact List.mem_cons_of_mem _ (ih hv)
    exact List.mem_reverse.1 (h _ ha)
  have hf : w.unseen (net :: seen) = (w.unseen seen).filter fun a => a.1 != net := by
    simp only [unseen, List.filter_filter]
    apply List.filter_congr
    intro a _
    by_cases h : a.1 = net
    · simp [h]
    · simp [h]
  rw [hf]
  refine List.length_filter_lt_length_iff_exists.2 ⟨(net, expr), ?_, by simp⟩
  simp only [unseen, List.mem_filter]
  exact ⟨hm, by simpa using hs⟩

/-- Looks for the first driver among some nets and those that their assignments read. -/
def search (w : Wiring) (seen : List String) : List String → Option String
  | [] => none
  | net :: rest =>
    match w.driver? net with
    | some d => some d
    | none =>
      if _hs : seen.contains net then w.search seen rest
      else
        match _ha : latest? net w.assigned with
        | none => w.search seen rest
        | some expr => w.search (net :: seen) (Rtl.identifiers expr ++ rest)
termination_by nets => ((w.unseen seen).length, nets.length)
decreasing_by
  · exact Prod.Lex.right _ (by simp)
  · exact Prod.Lex.right _ (by simp)
  · exact Prod.Lex.left _ _ (w.unseen_cons_lt (by simpa using _hs) _ha)

/-- The node that drives a net, directly or through assignments. -/
def source? (w : Wiring) (net : String) : Option String := w.search [] [net]

end Wiring

/-! ## Uses of nets -/

/-- A net and a node that uses it. -/
structure Use where
  net : String
  load : String
deriving DecidableEq, Repr

/-- The nets that one node drives into another, with the sum of their widths, which is kept as a
double. -/
structure Link where
  source : String
  target : String
  nets : List String
  width : Float
deriving DecidableEq, Repr

def Link.key (l : Link) : String := l.source ++ "->" ++ l.target

/-- Adds a net that is not on the link yet. -/
def Link.add (l : Link) (net : String) (width : Float) : Link :=
  if l.nets.contains net then l else { l with nets := l.nets ++ [net], width := l.width + width }

/-- Puts a net on the link between two nodes, which is opened if need be. -/
def addToLinks (source target net : String) (width : Float) : List Link → List Link
  | [] => [Link.add ⟨source, target, [], 0⟩ net width]
  | l :: rest =>
    if l.key = source ++ "->" ++ target then l.add net width :: rest
    else l :: addToLinks source target net width rest

/-! ## The top level -/

/-- The top level with the modules that its instances name. -/
structure Context where
  top : Module
  modules : List Module

namespace Context

/-- The module of an instance; of several with one name the last counts. -/
def module? (x : Context) (name : String) : Option Module :=
  x.modules.reverse.find? fun m => m.name == name

/-- Whether a connection of an instance goes to an output of its module. -/
def isOutput (x : Context) (i : Rtl.Instance) (c : Rtl.Connection) : Bool :=
  match (x.module? i.moduleName).bind fun m => m.port? c.port with
  | some p => p.direction == .output
  | none => false

/-- What drives the nets of the top level. -/
def wiring (x : Context) : Wiring where
  drivers :=
    (x.top.ports.filter fun p => p.direction == .input).map (fun p => (p.name, inputsId))
    ++ x.top.instances.flatMap fun i =>
      (i.connections.filter fun c => x.isOutput i c).map fun c => (c.expr, i.name)
  assigned := x.top.assigns.map fun a => (a.lhs, a.rhs)

def width (x : Context) (net : String) : Nat :=
  (latest? net (x.top.ports.map (fun p => (p.name, p.width))
    ++ x.top.nets.map fun n => (n.name, n.width))).getD 1

/-- Every use of a net: by an instance, or by an output port. -/
def uses (x : Context) : List Use :=
  (x.top.instances.flatMap fun i =>
    (i.connections.filter fun c => !x.isOutput i c).flatMap fun c =>
      (Rtl.identifiers c.expr).map fun net => ⟨net, i.name⟩)
  ++ (x.top.ports.filter fun p => p.direction == .output).map fun p => ⟨p.name, outputsId⟩

/-- Adds a use to the links, unless nothing or the load itself drives the net. -/
def addUse (x : Context) (links : List Link) (u : Use) : List Link :=
  match x.wiring.source? u.net with
  | some source =>
    if source = u.load then links else addToLinks source u.load u.net (.ofNat (x.width u.net)) links
  | none => links

def links (x : Context) : List Link := x.uses.foldl x.addUse []

def portsNode (id : String) (ports : List Port) : Node where
  id := id
  label := some id
  category := some "io"
  attrs := [("ports", Decimal.natText ports.length)]

def instanceNode (x : Context) (i : Rtl.Instance) : Node where
  id := i.name
  label := some i.name
  category := some (roleCategory (((x.module? i.moduleName).map Module.role).getD .top))
  attrs := [("module", i.moduleName), ("ports", Decimal.natText i.connections.length)]

def linkEdge (i : Nat) (l : Link) : Edge where
  id := some ("e" ++ Decimal.natText i)
  source := l.source
  target := l.target
  label := some (", ".intercalate l.nets)
  attrs := [("width", Decimal.text l.width)]

def graph (x : Context) : Graph where
  nodes :=
    portsNode inputsId (x.top.ports.filter fun p => p.direction == .input)
    :: x.top.instances.map x.instanceNode
    ++ [portsNode outputsId (x.top.ports.filter fun p => p.direction == .output)]
  edges := x.links.mapIdx linkEdge

end Context

/-- The graph of a design; nothing is drawn without a top level. -/
def ofDesign (d : Rtl.Design) : Graph :=
  match d.module? .top with
  | some top => (Context.mk top d.modules).graph
  | none => ⟨[], []⟩

end MemoryCompiler.Diagram
