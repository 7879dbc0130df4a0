import MemoryCompiler.Proofs.Verilog.Widths
import MemoryCompiler.Rtl.Design

/-!
# Well-formed netlists

What makes the modules of a design fit together (`Design.WellFormed`): names do not clash, ranges agree
with parameters, instances fit the modules they name, and nets are driven once and read. Widths and names
of an expression are those of its text, read as hardware text.
-/

namespace MemoryCompiler.Rtl

def Design.named? (d : Design) (name : String) : Option Module :=
  d.modules.find? fun m => m.name == name

namespace Module

variable (m : Module)

/-- The ports and nets with their widths. -/
def wires : List (String × Nat) :=
  m.ports.map (fun p => (p.name, p.width)) ++ m.nets.map fun n => (n.name, n.width)

/-- Everything in a module that has a name. -/
def names : List String :=
  m.wires.map Prod.fst ++ m.params.map Param.name ++ m.instances.map Instance.name

def isOutput (name : String) : Bool := (m.port? name).any fun p => p.direction == .output

def width? (expr : String) : Option Nat :=
  (Verilog.readExpr expr).bind fun e => e.width? fun x => m.wires.lookup x

/-- All names in an expression are declared, and its width is known. -/
structure Carries (expr : String) (width : Nat) : Prop where
  declared : ∀ x ∈ identifiers expr, x ∈ m.wires.map Prod.fst
  width : m.width? expr = some width

end Module

/-- The names in the expressions on the outputs of an instance. -/
def Instance.driven (i : Instance) (n : Module) : List String :=
  i.connections.flatMap fun k => if n.isOutput k.port then identifiers k.expr else []

/-- The names in the expressions on the other ports of an instance. -/
def Instance.read (i : Instance) (n : Module) : List String :=
  i.connections.flatMap fun k => if n.isOutput k.port then [] else identifiers k.expr

/-- What an instance drives in a design. -/
def Instance.drivenIn (d : Design) (i : Instance) : List String :=
  ((d.named? i.moduleName).map i.driven).getD []

/-- What an instance reads in a design. -/
def Instance.readIn (d : Design) (i : Instance) : List String :=
  ((d.named? i.moduleName).map i.read).getD []

/-- What assignments and instances drive, once for each of them. -/
def Module.driven (m : Module) (d : Design) : List String :=
  m.assigns.flatMap (fun a => identifiers a.lhs) ++ m.instances.flatMap (Instance.drivenIn d)

/-- What assignments and instances read. -/
def Module.read (m : Module) (d : Design) : List String :=
  m.assigns.flatMap (fun a => identifiers a.rhs) ++ m.instances.flatMap (Instance.readIn d)

/-- An instance in the module `m` fits the module `n`. -/
structure Instance.Fits (i : Instance) (m n : Module) : Prop where
  /-- Each port is connected once, and nothing else is. -/
  connected : (i.connections.map Connection.port).Perm (n.ports.map Port.name)
  widths : ∀ k ∈ i.connections, ∀ p ∈ n.ports, p.name = k.port → m.Carries k.expr p.width
  /-- A parameter is handed down under its own name and has the same value in both modules. -/
  settings : ∀ s ∈ i.params, s.expr = s.name ∧ ∃ v, ⟨s.name, v⟩ ∈ n.params ∧ ⟨s.name, v⟩ ∈ m.params

/-- No two things in a module have one name, and all names are identifiers. -/
structure Module.WellNamed (m : Module) : Prop where
  distinct : m.names.Nodup
  identifiers : ∀ x ∈ m.names, Verilog.isIdentifier x = true

/-- A module that has its place in a design. -/
structure Module.WellFormed (m : Module) (d : Design) : Prop where
  named : m.WellNamed
  /-- Data go one way through a port. -/
  directions : ∀ p ∈ m.ports, p.direction ≠ .inout
  port_ranges : ∀ p ∈ m.ports, ∀ q, p.widthParam = some q → ⟨q, .whole p.width⟩ ∈ m.params
  net_ranges : ∀ n ∈ m.nets, ∀ q, n.widthParam = some q → ⟨q, .whole n.width⟩ ∈ m.params
  instances : ∀ i ∈ m.instances, ∃ n ∈ d.modules, n.name = i.moduleName ∧ i.Fits m n
  assigns : ∀ a ∈ m.assigns, ∃ width, m.Carries a.lhs width ∧ m.Carries a.rhs width
  nets_read : ∀ n ∈ m.nets, n.name ∈ m.read d

/-- A module in which each net and each output is driven once and no input is driven. -/
structure Module.DrivenOnce (m : Module) (d : Design) : Prop where
  nets : ∀ n ∈ m.nets, (m.driven d).count n.name = 1
  outputs : ∀ p ∈ m.ports, p.direction = .output → (m.driven d).count p.name = 1
  inputs : ∀ p ∈ m.ports, p.direction = .input → p.name ∉ m.driven d

/-- Whether a module is made of nets and instances only. -/
def Role.isStructural : Role → Bool
  | top | powerWrapper => true
  | core | clockGate | eccEncoder | eccDecoder => false

/-- The modules of a design fit together. -/
structure Design.WellFormed (d : Design) : Prop where
  distinct : (d.modules.map Module.name).Nodup
  modules : ∀ m ∈ d.modules, m.WellFormed d
  driven : ∀ m ∈ d.modules, m.role.isStructural = true → m.DrivenOnce d

/-! ### Names that are found -/

theorem find?_of_mem {α : Type} {key : α → String} {l : List α} (h : (l.map key).Nodup) {a : α}
    (ha : a ∈ l) : l.find? (fun b => key b == key a) = some a := by
  induction l with
  | nil => exact absurd ha List.not_mem_nil
  | cons b l ih =>
    obtain ⟨hnot, hrest⟩ := List.nodup_cons.1 h
    rcases List.mem_cons.1 ha with rfl | ha
    · exact List.find?_cons_of_pos (beq_self_eq_true (key a))
    · have hne : key b ≠ key a := fun hkey => hnot (hkey ▸ List.mem_map_of_mem ha)
      rw [List.find?_cons_of_neg (by simpa using hne)]
      exact ih hrest ha

theorem named?_of_mem {d : Design} (h : (d.modules.map Module.name).Nodup) {m : Module}
    (hm : m ∈ d.modules) : d.named? m.name = some m :=
  find?_of_mem h hm

section names

variable {m : Module}

theorem Module.WellNamed.of_sublist {l : List String} (h : m.names.Sublist l) (hdistinct : l.Nodup)
    (hidentifiers : ∀ x ∈ l, Verilog.isIdentifier x = true) : m.WellNamed where
  distinct := hdistinct.sublist h
  identifiers := fun x hx => hidentifiers x (h.subset hx)

theorem Module.map_fst_wires (m : Module) :
    m.wires.map Prod.fst = m.ports.map Port.name ++ m.nets.map Net.name := by
  rw [wires, List.map_append, List.map_map, List.map_map]
  rfl

theorem Module.Carries.of_read {expr : String} {e : Verilog.Expr} {n : Nat}
    (hread : Verilog.readExpr expr = some e)
    (hdeclared : ∀ x ∈ identifiers expr, x ∈ m.wires.map Prod.fst)
    (hwidth : (e.width? fun x => m.wires.lookup x) = some n) : m.Carries expr n where
  declared := hdeclared
  width := by
    rw [width?, hread, Option.bind_some]
    exact hwidth

namespace Module.WellNamed

variable (h : m.WellNamed)

include h

theorem nodup_wires : (m.wires.map Prod.fst).Nodup :=
  (h.distinct.sublist (List.sublist_append_left _ _)).sublist (List.sublist_append_left _ _)

theorem nodup_ports_nets : (m.ports.map Port.name ++ m.nets.map Net.name).Nodup := by
  rw [← map_fst_wires]
  exact h.nodup_wires

theorem nodup_ports : (m.ports.map Port.name).Nodup :=
  h.nodup_ports_nets.sublist (List.sublist_append_left _ _)

theorem nodup_nets : (m.nets.map Net.name).Nodup :=
  h.nodup_ports_nets.sublist (List.sublist_append_right _ _)

theorem net_ne_port {n : Net} (hn : n ∈ m.nets) {p : Port} (hp : p ∈ m.ports) : n.name ≠ p.name :=
  ((List.nodup_append.1 h.nodup_ports_nets).2.2 _ (List.mem_map_of_mem hp) _
    (List.mem_map_of_mem hn)).symm

theorem isIdentifier_wire {x : String} (hx : x ∈ m.wires.map Prod.fst) :
    Verilog.isIdentifier x = true :=
  h.identifiers x (List.mem_append_left _ (List.mem_append_left _ hx))

theorem isIdentifier_port {p : Port} (hp : p ∈ m.ports) : Verilog.isIdentifier p.name = true := by
  refine h.isIdentifier_wire ?_
  rw [map_fst_wires]
  exact List.mem_append_left _ (List.mem_map_of_mem hp)

theorem isOutput_port {p : Port} (hp : p ∈ m.ports) :
    m.isOutput p.name = (p.direction == .output) := by
  rw [isOutput, port?, find?_of_mem h.nodup_ports hp, Option.any_some]

theorem lookup_wires {x : String} {n : Nat} (hx : (x, n) ∈ m.wires) :
    m.wires.lookup x = some n :=
  Document.lookup_of_mem h.nodup_wires hx

theorem carries {x : String} {n : Nat} (hx : (x, n) ∈ m.wires) : m.Carries x n := by
  have hmem : x ∈ m.wires.map Prod.fst := List.mem_map_of_mem hx
  have hidentifier := h.isIdentifier_wire hmem
  refine .of_read (Verilog.readExpr_of_isIdentifier hidentifier) ?_ (h.lookup_wires hx)
  intro y hy
  rw [Verilog.identifiers_of_isIdentifier hidentifier, List.mem_singleton] at hy
  rw [hy]
  exact hmem

end Module.WellNamed

end names

/-- A module without nets, assignments and instances has its place in every design. -/
theorem Module.WellFormed.of_leaf {m : Module} {d : Design} (hnamed : m.WellNamed)
    (hdirections : ∀ p ∈ m.ports, p.direction ≠ .inout)
    (hranges : ∀ p ∈ m.ports, ∀ q, p.widthParam = some q → ⟨q, .whole p.width⟩ ∈ m.params)
    (hnets : m.nets = []) (hassigns : m.assigns = []) (hinstances : m.instances = []) :
    m.WellFormed d where
  named := hnamed
  directions := hdirections
  port_ranges := hranges
  net_ranges := by simp [hnets]
  instances := by simp [hinstances]
  assigns := by simp [hassigns]
  nets_read := by simp [hnets]

/-! ### Instances that fit -/

theorem exists_of_mem_of_forall₂ {α β : Type} {R : α → β → Prop} {as : List α} {bs : List β}
    (h : List.Forall₂ R as bs) {a : α} (ha : a ∈ as) : ∃ b ∈ bs, R a b := by
  induction h with
  | nil => exact absurd ha List.not_mem_nil
  | cons hab _ ih =>
    rcases List.mem_cons.1 ha with rfl | ha
    · exact ⟨_, List.mem_cons_self, hab⟩
    · obtain ⟨b, hb, hr⟩ := ih ha
      exact ⟨b, List.mem_cons_of_mem _ hb, hr⟩

/-- Connections in the order of the ports fit if each of them carries as much as its port. -/
theorem Instance.fits_of_forall₂ {i : Instance} {m n : Module} (hn : n.WellNamed)
    (hports : List.Forall₂ (fun k p => k.port = p.name ∧ m.Carries k.expr p.width)
      i.connections n.ports)
    (hsettings : ∀ s ∈ i.params, s.expr = s.name ∧ ∃ v, ⟨s.name, v⟩ ∈ n.params ∧ ⟨s.name, v⟩ ∈ m.params) :
    i.Fits m n where
  connected := by
    refine .of_eq ?_
    exact List.forall₂_eq_eq_eq ▸ List.forall₂_map_left_iff.2
      (List.forall₂_map_right_iff.2 (hports.imp fun _ _ h => h.1))
  widths := by
    intro k hk p hp hname
    obtain ⟨q, hq, hport, hcarries⟩ := exists_of_mem_of_forall₂ hports hk
    rw [List.inj_on_of_nodup_map hn.nodup_ports hp hq (hname.trans hport)]
    exact hcarries
  settings := hsettings

theorem passParams_settings (m n : Module) (hm : n.params ⊆ m.params) : ∀ s ∈ passParams n.params,
    s.expr = s.name ∧ ∃ v, ⟨s.name, v⟩ ∈ n.params ∧ ⟨s.name, v⟩ ∈ m.params := by
  intro s hs
  obtain ⟨p, hp, rfl⟩ := List.mem_map.1 hs
  exact ⟨rfl, p.value, hp, hm hp⟩

section wire

variable {i : Instance} {n : Module}

theorem flatMap_ite_singleton {α β : Type} (p : α → Bool) (f : α → β) (l : List α) :
    (l.flatMap fun a => if p a then [f a] else []) = (l.filter p).map f := by
  induction l with
  | nil => rfl
  | cons a l ih =>
    rw [List.flatMap_cons, ih, List.filter_cons]
    split_ifs <;> rfl

theorem Instance.driven_of_connections (hn : n.WellNamed) (wire : String → String)
    (hi : i.connections = n.ports.map fun p => ⟨p.name, wire p.name⟩)
    (hwire : ∀ p ∈ n.ports, Verilog.isIdentifier (wire p.name) = true) :
    i.driven n = (n.ports.filter fun p => p.direction == .output).map fun p => wire p.name := by
  rw [driven, hi, List.flatMap_map, ← flatMap_ite_singleton]
  refine List.flatMap_congr fun p hp => ?_
  rw [hn.isOutput_port hp, Verilog.identifiers_of_isIdentifier (hwire p hp)]

theorem Instance.mem_read_of_connections (hn : n.WellNamed) (wire : String → String)
    (hi : i.connections = n.ports.map fun p => ⟨p.name, wire p.name⟩) {p : Port} (hp : p ∈ n.ports)
    (hout : p.direction ≠ .output) (hwire : Verilog.isIdentifier (wire p.name) = true) :
    wire p.name ∈ i.read n := by
  rw [read, hi, List.flatMap_map]
  refine List.mem_flatMap.2 ⟨p, hp, ?_⟩
  rw [hn.isOutput_port hp, beq_false_of_ne hout, Verilog.identifiers_of_isIdentifier hwire]
  exact List.mem_singleton_self _

end wire

/-! ### One driver each -/

section driven

variable {m n : Module} {d : Design} {i : Instance}

theorem drivenIn_of_mem (hd : (d.modules.map Module.name).Nodup) (hn : n ∈ d.modules)
    (hi : i.moduleName = n.name) : i.drivenIn d = i.driven n := by
  rw [Instance.drivenIn, hi, named?_of_mem hd hn]
  rfl

theorem flatMap_drivenIn_ite (hd : (d.modules.map Module.name).Nodup) {p : Prop} [Decidable p]
    (hn : p → n ∈ d.modules) (hi : i.moduleName = n.name) :
    (if p then [i] else []).flatMap (Instance.drivenIn d) = if p then i.driven n else [] := by
  split_ifs with h
  · rw [List.flatMap_singleton, drivenIn_of_mem hd (hn h) hi]
  · rfl

theorem mem_read_of_instance (hd : (d.modules.map Module.name).Nodup) (hn : n ∈ d.modules)
    (him : i ∈ m.instances) (hi : i.moduleName = n.name) {x : String} (hx : x ∈ i.read n) :
    x ∈ m.read d := by
  refine List.mem_append_right _ (List.mem_flatMap.2 ⟨i, him, ?_⟩)
  rw [Instance.readIn, hi, named?_of_mem hd hn]
  exact hx

def Module.sinks (m : Module) : List String :=
  m.nets.map Net.name ++ (m.ports.filter fun p => p.direction == .output).map Port.name

/-- If the nets and the outputs are what is driven, each of them is driven once. -/
theorem Module.drivenOnce_of_perm (h : m.WellNamed) (hdriven : (m.driven d).Perm m.sinks) :
    m.DrivenOnce d := by
  have hports := h.nodup_ports
  have hsinks : m.sinks.Nodup := by
    refine List.nodup_append.2 ⟨h.nodup_nets, hports.sublist (List.filter_sublist.map _), ?_⟩
    intro x hx y hy
    obtain ⟨n, hn, rfl⟩ := List.mem_map.1 hx
    obtain ⟨p, hp, rfl⟩ := List.mem_map.1 hy
    exact h.net_ne_port hn (List.mem_of_mem_filter hp)
  have hcount : ∀ x ∈ m.sinks, (m.driven d).count x = 1 := fun x hx => by
    rw [hdriven.count_eq, List.count_eq_one_of_mem hsinks hx]
  refine ⟨fun n hn => hcount _ ?_, fun p hp hout => hcount _ ?_, fun p hp hin hmem => ?_⟩
  · exact List.mem_append_left _ (List.mem_map_of_mem hn)
  · exact List.mem_append_right _ (List.mem_map_of_mem (List.mem_filter.2 ⟨hp, by simpa using hout⟩))
  · rcases List.mem_append.1 (hdriven.mem_iff.1 hmem) with hnet | hout
    · obtain ⟨n, hn, hname⟩ := List.mem_map.1 hnet
      exact h.net_ne_port hn hp hname
    · obtain ⟨q, hq, hname⟩ := List.mem_map.1 hout
      obtain ⟨hq, hdirection⟩ := List.mem_filter.1 hq
      rw [List.inj_on_of_nodup_map hports hq hp hname, hin] at hdirection
      exact absurd hdirection (by decide)

end driven

end MemoryCompiler.Rtl
