import MemoryCompiler.Proofs.Config.Names
import MemoryCompiler.Proofs.Rtl.EccRefinement
import MemoryCompiler.Proofs.Verilog.Listing

/-!
# The text of structural modules

Top level and power wrapper are written out from their parameters, ports, nets, assignments and instances.
Reading the text gives all of these back (`structural_text_faithful`): every list whatever its length,
every name whatever the columns are filled up to, and every expression as it is written.
-/

namespace MemoryCompiler.Rtl

open Verilog (Const)
open Verilog.Structural

/-! ### What is written out -/

/-- The value of a parameter, if it is a whole number. -/
def ParamValue.integer? (v : ParamValue) : Option Int := Decimal.wholeValue v.toFloat

/-- The range of a declaration: against a parameter, or by its width if that is more than one bit. -/
def declaredRange (width : Nat) (param : Option String) : Option Verilog.Range :=
  match param.filter (· ≠ "") with
  | some p => some (.minus (.parameter p) (.literal 1), .literal 0)
  | none => if 1 < width then some (.literal (width - 1), .literal 0) else none

/-- What a module consists of; its values are those of `Structural` modules. -/
def Module.structure (m : Module) : Structure where
  name := m.name
  params := m.params.map fun p => (p.name, p.value.integer?.getD 0)
  ports := m.ports.map fun p => ⟨p.direction, declaredRange p.width p.widthParam, p.name⟩
  nets := m.nets.map fun n => ⟨declaredRange n.width n.widthParam, n.name⟩
  assigns := m.assigns
  instances := m.instances

/-- A width is written against a name or against nothing. -/
def IsWidthParam (param : Option String) : Prop := ∀ p ∈ param, p = "" ∨ isName p = true

/-- Names are identifiers and expressions consist of identifiers and operators. -/
structure Instance.Structural (i : Instance) : Prop where
  moduleName : isName i.moduleName = true
  name : isName i.name = true
  params : ∀ s ∈ i.params, isName s.name = true ∧ isExpr s.expr = true
  connections : ∀ c ∈ i.connections, isName c.port = true ∧ isExpr c.expr = true

/-- A module that is written out, with identifiers for names, whole numbers for values and expressions
of identifiers and operators. -/
structure Module.Structural (m : Module) : Prop where
  role : m.role = .top ∨ m.role = .powerWrapper
  name : isName m.name = true
  params : ∀ p ∈ m.params, isName p.name = true ∧ p.value.integer?.isSome = true
  ports : ∀ p ∈ m.ports, isName p.name = true ∧ IsWidthParam p.widthParam
  nets : ∀ n ∈ m.nets, isName n.name = true ∧ IsWidthParam n.widthParam
  assigns : ∀ a ∈ m.assigns, isExpr a.lhs = true ∧ isExpr a.rhs = true
  instances : ∀ i ∈ m.instances, i.Structural

instance (param : Option String) : Decidable (IsWidthParam param) :=
  inferInstanceAs (Decidable (∀ p ∈ param, p = "" ∨ isName p = true))

instance (i : Instance) : Decidable i.Structural :=
  decidable_of_iff (isName i.moduleName = true ∧ isName i.name = true ∧
      (∀ s ∈ i.params, isName s.name = true ∧ isExpr s.expr = true) ∧
      ∀ c ∈ i.connections, isName c.port = true ∧ isExpr c.expr = true)
    ⟨fun ⟨h₁, h₂, h₃, h₄⟩ => ⟨h₁, h₂, h₃, h₄⟩, fun ⟨h₁, h₂, h₃, h₄⟩ => ⟨h₁, h₂, h₃, h₄⟩⟩

instance (m : Module) : Decidable m.Structural :=
  decidable_of_iff ((m.role = .top ∨ m.role = .powerWrapper) ∧ isName m.name = true ∧
      (∀ p ∈ m.params, isName p.name = true ∧ p.value.integer?.isSome = true) ∧
      (∀ p ∈ m.ports, isName p.name = true ∧ IsWidthParam p.widthParam) ∧
      (∀ n ∈ m.nets, isName n.name = true ∧ IsWidthParam n.widthParam) ∧
      (∀ a ∈ m.assigns, isExpr a.lhs = true ∧ isExpr a.rhs = true) ∧ ∀ i ∈ m.instances, i.Structural)
    ⟨fun ⟨h₁, h₂, h₃, h₄, h₅, h₆, h₇⟩ => ⟨h₁, h₂, h₃, h₄, h₅, h₆, h₇⟩,
      fun ⟨h₁, h₂, h₃, h₄, h₅, h₆, h₇⟩ => ⟨h₁, h₂, h₃, h₄, h₅, h₆, h₇⟩⟩

/-! ### Columns -/

theorem exists_pad (s : String) (n : Nat) : ∃ k, (Text.pad s n).toList = s.toList ++ (Text.spaces k).toList :=
  ⟨_, String.toList_append⟩

theorem exists_rangeColumn {r : String} {rs : List String} (h : r ∈ rs) :
    ∃ k, (rangeColumn (Text.widest rs) r).toList = r.toList ++ (Text.spaces k).toList := by
  have hle := Text.units_le_widest h
  by_cases hpos : 0 < Text.widest rs
  · refine ⟨Text.widest rs - Text.units r + 1, ?_⟩
    have hmore : ∀ k, (Text.spaces (k + 1)).toList = (Text.spaces k).toList ++ [' '] := fun k => by
      rw [Text.spaces, Text.spaces, String.toList_ofList, String.toList_ofList, List.replicate_succ']
    rw [rangeColumn, if_pos hpos, Text.pad, String.toList_append, String.toList_append, hmore,
      List.append_assoc]
    rfl
  · refine ⟨0, ?_⟩
    rw [rangeColumn, if_neg hpos, Text.eq_empty_of_units (s := r) (by omega)]
    rfl

section columns

variable {x : String} {bs bs' rest : List Char}

theorem range_declared (hx : isName x = true) (width : Nat) {param : Option String}
    (hp : IsWidthParam param) (hbs : Blank bs) (hbs' : Blank bs') (rest : List Char) :
    ∃ bs'', Blank bs'' ∧
      range (bs ++ ((rangeText width param).toList ++ (bs' ++ (x.toList ++ rest)))) =
        some (declaredRange width param, bs'' ++ (x.toList ++ rest)) := by
  rw [rangeText, declaredRange]
  cases hfilter : param.filter (· ≠ "") with
  | some p =>
    obtain ⟨hparam, hne⟩ := Option.filter_eq_some_iff.1 hfilter
    have hname : isName p = true := (hp p hparam).resolve_left (by simpa using hne)
    have hrange := range_name hbs hname (bs' ++ (x.toList ++ rest))
    rw [List.append_assoc] at hrange
    exact ⟨bs', hbs', hrange⟩
  | none =>
    dsimp only
    split_ifs with hwidth
    · have hrange := range_digits hbs (width - 1) (bs' ++ (x.toList ++ rest))
      rw [List.append_assoc] at hrange
      exact ⟨bs', hbs', hrange⟩
    · refine ⟨bs ++ bs', hbs.append hbs', ?_⟩
      have hrange := range_none (hbs.append hbs') hx rest
      rw [List.append_assoc] at hrange ⊢
      exact hrange

end columns

/-! ### Declarations -/

theorem denotes_paramText {v : ParamValue} {k : Int} (h : v.integer? = some k) : Decimal.Denotes v.text k := by
  cases v with
  | whole n => exact Decimal.denotes_natText h
  | real x => exact Decimal.denotes_text h

theorem holds_param {p : Param} (hname : isName p.name = true) (hvalue : p.value.integer?.isSome = true)
    (column : Nat) :
    Holds param ("  parameter " ++ Text.pad p.name column ++ " = " ++ p.value.text)
      (p.name, p.value.integer?.getD 0) := by
  intro rest hrest
  obtain ⟨k, hk⟩ := Option.isSome_iff_exists.1 hvalue
  obtain ⟨n, hpad⟩ := exists_pad p.name column
  have htext : '\n' :: (("  parameter " ++ Text.pad p.name column ++ " = " ++ p.value.text).toList ++ rest) =
      "\n  parameter ".toList ++ (p.name.toList ++ ((Text.spaces n).toList ++
        (' ' :: '=' :: ([' '] ++ (p.value.text.toList ++ rest))))) := by
    simp [String.toList_append, hpad]
  generalize htail : [' '] ++ (p.value.text.toList ++ rest) = tail at htext
  have hkey : keyword "parameter" ("\n  parameter ".toList ++ (p.name.toList ++ ((Text.spaces n).toList ++
      (' ' :: '=' :: tail)))) = some ([' '] ++ (p.name.toList ++ ((Text.spaces n).toList ++
      (' ' :: '=' :: tail)))) := rfl
  have hstop : ∀ c ∈ ((Text.spaces n).toList ++ (' ' :: '=' :: tail)).head?, inWord c = false :=
    (blank_spaces n).head_append rfl
  have hequals : symbol '=' ((Text.spaces n).toList ++ (' ' :: '=' :: tail)) = some tail := by
    have hblank := (blank_spaces n).append blank_space
    have hsymbol := symbol_append hblank (c := '=') rfl tail
    rwa [List.append_assoc] at hsymbol
  have hinteger : integer tail = some (k, rest) := by
    rw [← htail]
    exact integer_append blank_space (denotes_paramText hk) (hrest.head rfl rfl)
  rw [htext, param]
  simp only [Option.bind_eq_bind, hkey, Option.bind_some, name_append blank_space hname hstop,
    hequals, hinteger, hk, Option.getD_some]

theorem holds_port {p : Port} {rs : List String} (hname : isName p.name = true)
    (hparam : IsWidthParam p.widthParam) (hrange : rangeText p.width p.widthParam ∈ rs) :
    Holds port ("  " ++ Text.pad p.direction.text 6 ++ " wire " ++
        rangeColumn (Text.widest rs) (rangeText p.width p.widthParam) ++ p.name)
      ⟨p.direction, declaredRange p.width p.widthParam, p.name⟩ := by
  intro rest hrest
  obtain ⟨n, hcolumn⟩ := exists_rangeColumn hrange
  have hdirection : ∀ (d : Direction) (cs : List Char), ∃ ds,
      word ('\n' :: (("  " ++ Text.pad d.text 6 ++ " wire ").toList ++ cs)) = some (d.text, ds) ∧
        keyword "wire" ds = some ([' '] ++ cs) := by
    intro d cs
    cases d <;> exact ⟨_, rfl, rfl⟩
  have hfind : [Direction.input, .output, .inout].find? (fun d => d.text == p.direction.text) =
      some p.direction := by
    cases p.direction <;> rfl
  obtain ⟨ds, hword, hwire⟩ := hdirection p.direction ((rangeText p.width p.widthParam).toList ++
    ((Text.spaces n).toList ++ (p.name.toList ++ rest)))
  obtain ⟨bs, hbs, hdeclared⟩ := range_declared hname p.width hparam blank_space
    (blank_spaces n) rest
  have htext : '\n' :: (("  " ++ Text.pad p.direction.text 6 ++ " wire " ++
        rangeColumn (Text.widest rs) (rangeText p.width p.widthParam) ++ p.name).toList ++ rest) =
      '\n' :: (("  " ++ Text.pad p.direction.text 6 ++ " wire ").toList ++
        ((rangeText p.width p.widthParam).toList ++ ((Text.spaces n).toList ++ (p.name.toList ++ rest)))) := by
    simp only [String.toList_append, hcolumn, List.append_assoc]
  rw [htext, port]
  simp only [Option.bind_eq_bind, hword, Option.bind_some, hfind, hwire, hdeclared,
    name_append hbs hname (hrest.head rfl rfl)]

theorem pair_append {x e : String} {bs : List Char} (hx : isName x = true) (he : isExpr e = true)
    (hbs : Blank bs) (rest : List Char) :
    pair ("\n    .".toList ++ (x.toList ++ (bs ++ '(' :: (e.toList ++ ')' :: rest)))) =
      some ((x, e), rest) := by
  have hpoint : ∀ cs, symbol '.' ("\n    .".toList ++ cs) = some ([] ++ cs) := fun _ => rfl
  have hstop : ∀ c ∈ (bs ++ '(' :: (e.toList ++ ')' :: rest)).head?, inWord c = false := hbs.head_append rfl
  have hexpr : expr (e.toList ++ ')' :: rest) = some (e, ')' :: rest) :=
    expr_append blank_nil he blank_nil rfl rest
  rw [pair]
  simp only [Option.bind_eq_bind, hpoint, Option.bind_some, name_append blank_nil hx hstop,
    symbol_append hbs (c := '(') rfl, hexpr, symbol_cons (c := ')') rfl]

theorem holds_setting {t : Setting} (hname : isName t.name = true) (hexpr : isExpr t.expr = true) :
    Holds pair ("    ." ++ t.name ++ "(" ++ t.expr ++ ")") (t.name, t.expr) := by
  intro rest _
  have htext : '\n' :: (("    ." ++ t.name ++ "(" ++ t.expr ++ ")").toList ++ rest) =
      "\n    .".toList ++ (t.name.toList ++ ([] ++ '(' :: (t.expr.toList ++ ')' :: rest))) := by
    simp [String.toList_append]
  rw [htext]
  exact pair_append hname hexpr blank_nil rest

theorem holds_connection {c : Connection} (hport : isName c.port = true) (hexpr : isExpr c.expr = true)
    (column : Nat) :
    Holds pair ("    ." ++ Text.pad c.port column ++ " (" ++ c.expr ++ ")") (c.port, c.expr) := by
  intro rest _
  obtain ⟨n, hpad⟩ := exists_pad c.port column
  have htext : '\n' :: (("    ." ++ Text.pad c.port column ++ " (" ++ c.expr ++ ")").toList ++ rest) =
      "\n    .".toList ++ (c.port.toList ++ (((Text.spaces n).toList ++ [' ']) ++
        '(' :: (c.expr.toList ++ ')' :: rest))) := by
    simp [String.toList_append, hpad]
  rw [htext]
  exact pair_append hport hexpr ((blank_spaces n).append blank_space) rest

theorem symbol_of_port {cs : List Char} {p : Verilog.Port × List Char} (h : port cs = some p) :
    symbol ')' cs = none := by
  obtain ⟨w, hw, -⟩ := Option.bind_eq_some_iff.1 h
  exact symbol_eq_none_of_word hw rfl

theorem symbol_of_pair {cs : List Char} {p : (String × String) × List Char} (h : pair cs = some p) :
    symbol ')' cs = none := by
  obtain ⟨w, hw, -⟩ := Option.bind_eq_some_iff.1 h
  exact symbol_eq_none_of_symbol hw (by decide)

/-! ### Bodies -/

theorem item_net {n : Net} {rs : List String} (hname : isName n.name = true)
    (hparam : IsWidthParam n.widthParam) (hrange : rangeText n.width n.widthParam ∈ rs) (cs : List Char) :
    item ('\n' :: (("  wire " ++ rangeColumn (Text.widest rs) (rangeText n.width n.widthParam) ++ n.name ++
        ";").toList ++ cs)) =
      some (.net ⟨declaredRange n.width n.widthParam, n.name⟩, cs) := by
  obtain ⟨k, hcolumn⟩ := exists_rangeColumn hrange
  obtain ⟨bs, hbs, hdeclared⟩ := range_declared hname n.width hparam blank_space (blank_spaces k)
    (';' :: cs)
  have htext : '\n' :: (("  wire " ++ rangeColumn (Text.widest rs) (rangeText n.width n.widthParam) ++ n.name ++
        ";").toList ++ cs) =
      "\n  wire".toList ++ ([' '] ++ ((rangeText n.width n.widthParam).toList ++
        ((Text.spaces k).toList ++ (n.name.toList ++ ';' :: cs)))) := by
    simp [String.toList_append, hcolumn]
  have hword : ∀ ds, word ("\n  wire".toList ++ ([' '] ++ ds)) = some ("wire", [' '] ++ ds) := fun _ => rfl
  rw [htext, item, hword]
  simp only [Option.bind_eq_bind, Option.bind_some, if_true, net, hdeclared,
    name_append hbs hname (head_eq_false (c := ';') rfl), symbol_cons (c := ';') rfl]

theorem item_assign {a : Assign} (hlhs : isExpr a.lhs = true) (hrhs : isExpr a.rhs = true) (cs : List Char) :
    item ('\n' :: (("  assign " ++ a.lhs ++ " = " ++ a.rhs ++ ";").toList ++ cs)) = some (.assign a, cs) := by
  have htext : '\n' :: (("  assign " ++ a.lhs ++ " = " ++ a.rhs ++ ";").toList ++ cs) =
      "\n  assign".toList ++ ([' '] ++ (a.lhs.toList ++ ([' '] ++ '=' ::
        ([' '] ++ (a.rhs.toList ++ ([] ++ ';' :: cs)))))) := by
    simp [String.toList_append]
  have hword : ∀ ds, word ("\n  assign".toList ++ ([' '] ++ ds)) = some ("assign", [' '] ++ ds) := fun _ => rfl
  have hne : ¬ "assign" = "wire" := by decide
  rw [htext, item, hword]
  simp only [Option.bind_eq_bind, Option.bind_some, hne, if_false, if_true, assign,
    expr_append blank_space hlhs blank_space (c := '=') rfl, symbol_cons (c := '=') rfl,
    expr_append blank_space hrhs blank_nil (c := ';') rfl, symbol_cons (c := ';') rfl]

section instances

variable (i : Instance)

def settingsText : List Char :=
  if i.params = [] then [' ']
  else " #(".toList ++ (lead (commaLines (i.params.map fun p => "    ." ++ p.name ++ "(" ++ p.expr ++ ")")) ++
    "\n  ) ".toList)

def connectionLines : List String :=
  commaLines (i.connections.map fun c =>
    "    ." ++ Text.pad c.port (Text.widest (i.connections.map Connection.port)) ++ " (" ++ c.expr ++ ")")

theorem lead_instanceLines (cs : List Char) :
    lead (instanceLines i) ++ cs = ['\n', ' ', ' '] ++ (i.moduleName.toList ++ (settingsText i ++
      (i.name.toList ++ ([' '] ++ '(' :: (lead (connectionLines i) ++ ("\n  );".toList ++ cs)))))) := by
  rw [instanceLines, settingsText, connectionLines]
  split_ifs <;> simp [lead, String.toList_append]

variable {i}

theorem optionalList_settings (hi : i.Structural) (cs : List Char) :
    ∃ bs, Blank bs ∧ optionalList pair (settingsText i ++ (i.name.toList ++ cs)) =
      some (i.params.map fun p => (p.name, p.expr), bs ++ (i.name.toList ++ cs)) := by
  refine ⟨[' '], blank_space, ?_⟩
  rw [settingsText]
  by_cases hparams : i.params = []
  · obtain ⟨c, ds, hds, hfirst, hall⟩ := exists_word (isWord_of_isName hi.name)
    have hne : c ≠ '#' := by
      rintro rfl
      cases hfirst
    rw [if_pos hparams, hparams, hds]
    exact optionalList_none blank_space (opens_of_inWord (hall c List.mem_cons_self)) hne (ds ++ cs)
  · have hend : Ends ("\n  ) ".toList ++ (i.name.toList ++ cs)) := ⟨'\n', _, rfl, .inr rfl⟩
    have hlist := optionalList_commaLines
      (fun p hp => holds_setting (hi.params p hp).1 (hi.params p hp).2) hparams hend rfl rfl blank_space
    rw [if_neg hparams, List.append_assoc, List.append_assoc]
    exact hlist

theorem holdsItems_instance (hi : i.Structural) : HoldsItems (instanceLines i) [.submodule i] := by
  refine holdsItems_singleton (by simp [instanceLines]) fun cs => ?_
  obtain ⟨bs, hbs, hsettings⟩ := optionalList_settings hi
    ([' '] ++ '(' :: (lead (connectionLines i) ++ ("\n  );".toList ++ cs)))
  have hconnections : list pair ([' '] ++ '(' :: (lead (connectionLines i) ++ ("\n  );".toList ++ cs))) =
      some (i.connections.map fun c => (c.port, c.expr), ';' :: cs) :=
    list_commaLines symbol_of_pair
      (fun c hc => holds_connection (hi.connections c hc).1 (hi.connections c hc).2 _)
      ⟨'\n', _, rfl, .inr rfl⟩ rfl rfl blank_space
  have hreserved := (Bool.and_eq_true _ _ ▸ hi.moduleName : _ ∧ _).2
  have hwire : ¬ i.moduleName = "wire" := by
    intro h
    rw [h] at hreserved
    cases hreserved
  have hassign : ¬ i.moduleName = "assign" := by
    intro h
    rw [h] at hreserved
    cases hreserved
  have hnotReserved : ¬ reserved.contains i.moduleName = true := by
    simpa using hreserved
  have hstop : ∀ c ∈ (settingsText i ++ (i.name.toList ++ ([' '] ++ '(' :: (lead (connectionLines i) ++
      ("\n  );".toList ++ cs))))).head?, inWord c = false := by
    rw [settingsText]
    split_ifs
    · exact head_eq_false rfl
    · exact head_eq_false rfl
  have hblank : Blank ['\n', ' ', ' '] := by simp [Blank, Verilog.Scan.isBlank]
  rw [lead_instanceLines, item, word_append hblank (isWord_of_isName hi.moduleName) hstop]
  simp only [Option.bind_eq_bind, Option.bind_some, hwire, hassign, hnotReserved, if_false, submodule, hsettings,
    name_append hbs hi.name (blank_space.head_append (c := '(') rfl), hconnections,
    symbol_cons (c := ';') rfl, List.map_map]
  have hparams : i.params.map ((fun p => Setting.mk p.1 p.2) ∘ fun p => (p.name, p.expr)) = i.params :=
    List.map_id i.params
  have hports : i.connections.map ((fun p => Connection.mk p.1 p.2) ∘ fun c => (c.port, c.expr)) =
      i.connections := List.map_id i.connections
  rw [hparams, hports]
  rfl

end instances

section body

variable {m : Module} (hm : m.Structural)

theorem HoldsItems.withGap {ls : List String} {as : List Item} (h : HoldsItems ls as) :
    HoldsItems (Rtl.withGap ls) as := by
  rw [Rtl.withGap]
  split_ifs with hls
  · rwa [hls] at h
  · have hgap := h.append holdsItems_blank
    rwa [List.append_nil] at hgap

def Module.items (m : Module) : List Item :=
  m.structure.nets.map .net ++ m.assigns.map .assign ++ m.instances.map .submodule

include hm

theorem holdsItems_structuralBody : HoldsItems (structuralBody m) m.items := by
  have hnets : HoldsItems (netLines m.nets) (m.structure.nets.map .net) := by
    rw [netLines, Module.structure, List.map_map]
    exact holdsItems_map fun n hn cs => item_net (hm.nets n hn).1 (hm.nets n hn).2
      (List.mem_map_of_mem (f := fun n : Net => rangeText n.width n.widthParam) hn) cs
  have hassigns : HoldsItems (assignLines m.assigns) (m.assigns.map .assign) :=
    holdsItems_map fun a ha cs => item_assign (hm.assigns a ha).1 (hm.assigns a ha).2 cs
  have hinstances : HoldsItems (List.intercalate [""] (m.instances.map instanceLines))
      (m.instances.map .submodule) :=
    holdsItems_intercalate fun i hi => holdsItems_instance (hm.instances i hi)
  exact ((HoldsItems.withGap hnets).append (HoldsItems.withGap hassigns)).append hinstances

end body

/-! ### Modules -/

/-- A line that is skipped as a whole. -/
def LayoutLine (l : String) : Prop := ∀ cs, skip (l.toList ++ '\n' :: cs) = skip cs

def IsComment (l : String) : Prop := ∃ cs, l.toList = '/' :: '/' :: cs

theorem IsComment.append {l : String} (h : IsComment l) (s : String) : IsComment (l ++ s) := by
  obtain ⟨cs, hcs⟩ := h
  exact ⟨cs ++ s.toList, by rw [String.toList_append, hcs]; rfl⟩

theorem IsComment.layoutLine {l : String} (h : IsComment l) (hline : OneLine l) : LayoutLine l := fun cs => by
  obtain ⟨ds, hds⟩ := h
  rw [OneLine, hds] at hline
  rw [hds]
  have hrest : '\n' ∉ '/' :: ds := fun hmem => hline (List.mem_cons_of_mem _ hmem)
  exact layout_line hrest cs

theorem skip_lines {l : String} {ls : List String} (hl : LayoutLine l) (hls : ∀ k ∈ ls, LayoutLine k)
    (cs : List Char) : skip (l.toList ++ (lead ls ++ '\n' :: cs)) = skip cs := by
  induction ls generalizing l with
  | nil => exact hl cs
  | cons k ls ih =>
    have hrest := ih (hls k List.mem_cons_self) fun j hj => hls j (List.mem_cons_of_mem k hj)
    rw [lead_cons, List.cons_append, hl, List.append_assoc]
    exact hrest

section declaration

variable {m : Module}

/-- What stands between the name of a module and its ports. -/
def paramsText (m : Module) : List Char :=
  if m.params = [] then [' '] else " #(".toList ++ (lead (paramLines m.params) ++ "\n) ".toList)

theorem lead_declarationLines (m : Module) (cs : List Char) :
    lead (declarationLines m) ++ cs = '\n' :: ("module".toList ++ ([' '] ++ (m.name.toList ++ (paramsText m ++
      '(' :: (lead (portLines m.ports) ++ ("\n);".toList ++ cs)))))) := by
  rw [declarationLines, paramsText]
  split_ifs <;> simp [lead, String.toList_append]

theorem optionalList_params (hm : ∀ p ∈ m.params, isName p.name = true ∧ p.value.integer?.isSome = true)
    (cs : List Char) : optionalList param (paramsText m ++ '(' :: cs) =
      some (m.structure.params, [' '] ++ '(' :: cs) := by
  rw [paramsText]
  split_ifs with hparams
  · rw [Module.structure, hparams]
    exact optionalList_none blank_space rfl (by decide) cs
  · rw [List.append_assoc, List.append_assoc]
    have hend : Ends ("\n) ".toList ++ '(' :: cs) := ⟨'\n', _, rfl, .inr rfl⟩
    exact optionalList_commaLines
      (fun p hp => holds_param (hm p hp).1 (hm p hp).2 _) hparams hend rfl rfl blank_space

theorem list_ports (hm : ∀ p ∈ m.ports, isName p.name = true ∧ IsWidthParam p.widthParam)
    (cs : List Char) : list port ([' '] ++ '(' :: (lead (portLines m.ports) ++
    ("\n);".toList ++ cs))) = some (m.structure.ports, ';' :: cs) :=
  list_commaLines symbol_of_port
    (fun p hp => holds_port (hm p hp).1 (hm p hp).2
      (List.mem_map_of_mem (f := fun p : Port => rangeText p.width p.widthParam) hp))
    ⟨'\n', _, rfl, .inr rfl⟩ rfl rfl blank_space

theorem skip_header (hm : isName m.name = true) (c : Config) (cs : List Char) :
    ∃ l ls, headerLines c.design m = l :: ls ∧ skip (l.toList ++ (lead ls ++ '\n' :: cs)) = skip cs := by
  have hname : OneLine m.name := by
    obtain ⟨d, ds, hds, -, hall⟩ := exists_word (isWord_of_isName hm)
    rw [OneLine, hds]
    exact fun h => absurd (hall _ h) (by decide)
  have htitle : OneLine m.role.title := by cases m.role <;> decide
  have hfirst : OneLine ("// " ++ m.name ++ ": " ++ m.role.title) :=
    ((OneLine.append (by decide) hname).append (by decide)).append htitle
  have hlabel : OneLine ("// Generated by sram-compiler for " ++ c.label ++ ". Do not edit.") :=
    (OneLine.append (by decide) c.oneLine_label).append (by decide)
  have hfingerprint : OneLine ("// Configuration fingerprint: " ++ c.fingerprint) :=
    OneLine.append (by decide) c.oneLine_fingerprint
  refine ⟨_, _, rfl, skip_lines (IsComment.layoutLine ?_ hfirst) (fun k hk => ?_) cs⟩
  · exact ((IsComment.append ⟨_, rfl⟩ _).append _).append _
  · simp only [List.mem_cons, List.not_mem_nil, or_false] at hk
    rcases hk with rfl | rfl | rfl | rfl | rfl
    · exact IsComment.layoutLine ((IsComment.append ⟨_, rfl⟩ _).append _) hlabel
    · exact IsComment.layoutLine (IsComment.append ⟨_, rfl⟩ _) hfingerprint
    · exact fun _ => rfl
    · exact fun _ => rfl
    · exact fun _ => rfl

theorem reads_declaration_of_names (hname : isName m.name = true)
    (hparams : ∀ p ∈ m.params, isName p.name = true ∧ p.value.integer?.isSome = true)
    (hports : ∀ p ∈ m.ports, isName p.name = true ∧ IsWidthParam p.widthParam)
    (c : Config) (body : List String) :
    ∃ cs₁ cs₂ cs₃, keyword "module" (joinLines (headerLines c.design m ++ declarationLines m ++ [""] ++
        body ++ ["", "endmodule", "", "`default_nettype wire", ""])).toList = some cs₁ ∧
      name cs₁ = some (m.name, cs₂) ∧ optionalList param cs₂ = some (m.structure.params, cs₃) ∧
      list port cs₃ = some (m.structure.ports,
        ';' :: lead ([""] ++ body ++ ["", "endmodule", "", "`default_nettype wire", ""])) := by
  obtain ⟨l, ls, hheader, hskip⟩ := skip_header hname c ("module".toList ++ ([' '] ++ (m.name.toList ++
    (paramsText m ++ '(' :: (lead (portLines m.ports) ++ ("\n);".toList ++ lead ([""] ++ body ++
      ["", "endmodule", "", "`default_nettype wire", ""])))))))
  have htext : (joinLines (headerLines c.design m ++ declarationLines m ++ [""] ++ body ++
      ["", "endmodule", "", "`default_nettype wire", ""])).toList =
      l.toList ++ (lead ls ++ '\n' :: ("module".toList ++ ([' '] ++ (m.name.toList ++
        (paramsText m ++ '(' :: (lead (portLines m.ports) ++ ("\n);".toList ++ lead ([""] ++ body ++
          ["", "endmodule", "", "`default_nettype wire", ""])))))))) := by
    rw [hheader]
    simp only [List.cons_append, List.append_assoc]
    rw [toList_joinLines, lead_append, lead_append, lead_declarationLines]
    rfl
  have hkeyword := (keyword_congr hskip "module").trans (Eq.refl (some ([' '] ++ (m.name.toList ++ _))))
  have hstop : ∀ cs, ∀ c ∈ (paramsText m ++ cs).head?, inWord c = false := by
    intro cs
    rw [paramsText]
    split_ifs
    · exact head_eq_false rfl
    · exact head_eq_false rfl
  rw [htext]
  exact ⟨_, _, _, hkeyword, name_append blank_space hname (hstop _), optionalList_params hparams _,
    list_ports hports _⟩

end declaration

section modules

variable {m : Module} (hm : m.Structural)

include hm

theorem body_items : body (lead ([""] ++ structuralBody m ++ ["", "endmodule", "", "`default_nettype wire",
      ""])).length
    (lead ([""] ++ structuralBody m ++ ["", "endmodule", "", "`default_nettype wire", ""])) =
      some (m.items, lead ["", "`default_nettype wire", ""]) := by
  have hitems := (holdsItems_blank.append (holdsItems_structuralBody hm)).append holdsItems_blank
  rw [List.nil_append, List.append_nil] at hitems
  have hsplit : [""] ++ structuralBody m ++ ["", "endmodule", "", "`default_nettype wire", ""] =
      ([""] ++ structuralBody m ++ [""]) ++ ["endmodule", "", "`default_nettype wire", ""] := by simp
  rw [hsplit, lead_append]
  exact hitems.body_eq rfl (by simp [lead])

theorem moduleText_structural (d : Design) : d.moduleText m =
    .ok (joinLines (headerLines d m ++ declarationLines m ++ [""] ++ structuralBody m ++
      ["", "endmodule", "", "`default_nettype wire", ""])) := by
  have hbody : bodyLines d m = .ok (structuralBody m) := by
    rw [bodyLines]
    rcases hm.role with hrole | hrole <;> rw [hrole]
  rw [Design.moduleText, hbody]
  rfl

/-- Reading the text of a module gives back what it consists of. -/
theorem exists_moduleText_read (c : Config) :
    ∃ text, c.design.moduleText m = .ok text ∧ Verilog.Structural.read text = some m.structure := by
  obtain ⟨cs₁, cs₂, cs₃, hkeyword, hname, hparams, hports⟩ :=
    reads_declaration_of_names hm.name hm.params hm.ports c (structuralBody m)
  refine ⟨_, moduleText_structural hm c.design, ?_⟩
  have hnets : m.items.filterMap Item.net? = m.structure.nets := by
    simp [Module.items, Function.comp_def, Item.net?]
  have hassigns : m.items.filterMap Item.assign? = m.structure.assigns := by
    simp [Module.items, Module.structure, Function.comp_def, Item.assign?]
  have hinstances : m.items.filterMap Item.submodule? = m.structure.instances := by
    simp [Module.items, Module.structure, Function.comp_def, Item.submodule?]
  rw [Verilog.Structural.read, module?]
  simp only [Option.bind_eq_bind, hkeyword, Option.bind_some, hname, hparams, hports,
    symbol_cons (c := ';') rfl, body_items hm, hnets, hassigns, hinstances]
  rfl

end modules

/-- **The text of a structural module is faithful.** Reading it gives back, in order, the names and values
of the parameters, direction, range and name of every port, range and name of every net, both sides of
every assignment, and module, name, settings and connections of every instance. So modules that differ
in any of these have different texts. -/
theorem structural_text_faithful (c : Config) (m : Module) (hm : m.Structural) :
    (∃ text, c.design.moduleText m = .ok text ∧ Verilog.Structural.read text = some m.structure) ∧
    ∀ (c' : Config) (m' : Module), m'.Structural → m'.structure ≠ m.structure →
      c'.design.moduleText m' ≠ c.design.moduleText m := by
  obtain ⟨text, htext, hread⟩ := exists_moduleText_read hm c
  refine ⟨⟨text, htext, hread⟩, fun c' m' hm' hne heq => hne ?_⟩
  obtain ⟨text', htext', hread'⟩ := exists_moduleText_read hm' c'
  rw [htext, htext', Except.ok.injEq] at heq
  rw [heq, hread] at hread'
  exact (Option.some.inj hread').symm

/-- A module with empty lists and full ones, a value beyond the digits of a double and blanks in
expressions. -/
def gatedModule : Module where
  name := "sram$gated"
  role := .powerWrapper
  params := [⟨"DEPTH", .whole 1024⟩, ⟨"SEED", .real (-1e21)⟩]
  ports := [⟨"clk", .input, 1, none⟩, ⟨"addr", .input, 4, some "ADDR_WIDTH"⟩, ⟨"q", .output, 8, none⟩]
  nets := [⟨"gated", 0, none⟩]
  assigns := [⟨"gated", "clk  & ~ addr"⟩]
  instances := [⟨"sram_core", "u_core", [], []⟩,
    ⟨"sram_core", "u_more", [⟨"DEPTH", "DEPTH"⟩], [⟨"clk", "gated"⟩]⟩]

theorem structural_text_faithful_gated :
    gatedModule.Structural ∧
      (∃ text, nibbleConfig.design.moduleText gatedModule = .ok text ∧
        Verilog.Structural.read text = some gatedModule.structure) ∧
      { gatedModule with nets := [] }.Structural ∧
      { gatedModule with nets := [] }.structure ≠ gatedModule.structure ∧
      nibbleConfig.design.moduleText { gatedModule with nets := [] } ≠
        nibbleConfig.design.moduleText gatedModule :=
  have hgated : gatedModule.Structural := by decide +kernel
  have hother : { gatedModule with nets := [] }.Structural := by decide +kernel
  have hne : { gatedModule with nets := [] }.structure ≠ gatedModule.structure := fun h =>
    absurd (congrArg (·.nets.length) h) (by decide)
  have hfaithful := structural_text_faithful nibbleConfig gatedModule hgated
  ⟨hgated, hfaithful.1, hother, hne, hfaithful.2 nibbleConfig _ hother hne⟩

end MemoryCompiler.Rtl
