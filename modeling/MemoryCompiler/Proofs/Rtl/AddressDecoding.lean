import Mathlib.Data.Set.Function
import MemoryCompiler.Proofs.Config.Acceptance
import MemoryCompiler.Proofs.Ecc.LeastCheckBits
import MemoryCompiler.Proofs.Rtl.ModuleNames
import MemoryCompiler.Proofs.Rtl.StructuralText
import MemoryCompiler.Proofs.Verilog.Arithmetic

/-!
# Decoding of addresses

The words of an array lie in banks of one size. The array core divides an address by the words of a bank:
the quotient selects the bank and the rest the row. For a configuration that was read this is a bijection
from the addresses onto the rows of all banks, which the text of the core computes without losing a bit,
and an address beyond the last word selects no bank (`address_decoding`).
-/

namespace MemoryCompiler.Rtl

open Verilog (Division Divider Reads Token)

/-! ### Geometry -/

/-- The size of an array, as the parameters of a module give it. -/
structure Geometry where
  depth : Nat
  addrWidth : Nat
  banks : Nat
  bankDepth : Nat
deriving DecidableEq, Repr

/-- The value of a parameter, if it is whole. -/
def Module.whole? (m : Module) (name : String) : Option Nat :=
  (m.params.find? fun p => p.name == name).bind fun p =>
    match p.value with
    | .whole n => some n
    | .real _ => none

/-- The size of the array that a module is, or passes on to another module. -/
def Module.arraySize? (m : Module) : Option Geometry := do
  let depth ← m.whole? "DEPTH"
  let addrWidth ← m.whole? "ADDR_WIDTH"
  let banks ← m.whole? "BANKS"
  let bankDepth ← m.whole? "BANK_DEPTH"
  some ⟨depth, addrWidth, banks, bankDepth⟩

/-- The roles of the modules with the parameters of an array. -/
def Role.hasArray : Role → Bool
  | top | core | powerWrapper => true
  | clockGate | eccEncoder | eccDecoder => false

/-- The search ends at the least number of bits that tells all words apart. -/
theorem isLeast_addrWidth (depth : Nat) : IsLeast {w | 1 ≤ w ∧ depth ≤ 2 ^ w} (addrWidth depth) := by
  have hfit : reaches depth (depth.log2 + 1) = true := decide_eq_true (Nat.le_of_lt Nat.lt_log2_self)
  obtain ⟨hreaches, -, -, hbelow⟩ :=
    leastFrom_spec (Nat.zero_le _) (Nat.zero_add (depth.log2 + 1)).ge hfit
  rw [addrWidth, Int.toNat_natCast]
  generalize leastFrom (reaches depth) (depth.log2 + 1) 0 = found at hreaches hbelow ⊢
  have hfound : depth ≤ 2 ^ found := of_decide_eq_true hreaches
  refine ⟨⟨le_max_left 1 found, hfound.trans ?_⟩, fun w hw => max_le hw.1 ?_⟩
  · exact Nat.pow_le_pow_right (by decide) (le_max_right 1 found)
  · by_contra hlt
    exact of_decide_eq_false (hbelow w (Nat.zero_le w) (not_le.1 hlt)) hw.2

/-! ### Banks and rows -/

/-- Quotient and rest tell the words of all banks apart, and every row of every bank is one of them. -/
theorem bijOn_divMod {banks rows : Nat} (hrows : 0 < rows) :
    Set.BijOn (fun a => (a / rows, a % rows)) {a | a < banks * rows}
      {p | p.1 < banks ∧ p.2 < rows} := by
  refine ⟨fun a ha => ?_, fun a _ b _ hab => ?_, fun p hp => ?_⟩
  · exact ⟨(Nat.div_lt_iff_lt_mul hrows).2 ha, Nat.mod_lt a hrows⟩
  · obtain ⟨hdiv, hmod⟩ := Prod.mk.inj hab
    rw [← Nat.div_add_mod a rows, ← Nat.div_add_mod b rows, hdiv, hmod]
  · obtain ⟨bank, row⟩ := p
    obtain ⟨hbank, hrow⟩ : bank < banks ∧ row < rows := hp
    have hdiv : (rows * bank + row) / rows = bank := by
      rw [Nat.mul_add_div hrows, Nat.div_eq_of_lt hrow, Nat.add_zero]
    refine ⟨rows * bank + row, ?_, Prod.ext hdiv ?_⟩
    · show rows * bank + row < banks * rows
      rw [← Nat.div_lt_iff_lt_mul hrows, hdiv]
      exact hbank
    · show (rows * bank + row) % rows = row
      rw [Nat.mul_add_mod, Nat.mod_eq_of_lt hrow]

/-! ### The text of the core -/

def atAddress (address : Nat) (x : String) : Nat := if x = "addr" then address else 0

/-- Bank and row of an address, by the wires of a text. -/
def decode? (text : String) (address : Nat) : Option (Nat × Nat) := do
  let d ← Verilog.divider? text
  let bank ← d.wire (atAddress address) "bank_sel"
  let row ← d.wire (atAddress address) "bank_addr"
  some (bank, row)

def addressRange : Verilog.Range := (.minus (.parameter "ADDR_WIDTH") (.literal 1), .literal 0)

def coreDivisions : List Division :=
  [⟨some addressRange, "bank_sel", "addr", .quotient, "BANK_DEPTH"⟩,
    ⟨some addressRange, "bank_addr", "addr", .rest, "BANK_DEPTH"⟩]

theorem dividesNothing_coreBody (m : Module) :
    ((coreBody m).drop 2).all Verilog.dividesNothing = true := by
  have haccess : ∀ b : Bool, Verilog.dividesNothing (if b then "ce & ~ret_en" else "ce") = true := by
    decide +kernel
  have hpowered : ∀ b : Bool, Verilog.dividesNothing (if b then " && bank_en[b]" else "") = true := by
    decide +kernel
  simp only [coreBody, List.drop_succ_cons, List.drop_zero, List.all_cons, Verilog.dividesNothing_append,
    haccess, hpowered]
  decide +kernel

theorem forall_mem_lead {ls : List String} (h : ls.all Verilog.dividesNothing = true) :
    ∀ c ∈ Verilog.Structural.lead ls, Verilog.isDivisionSign c = false := by
  intro c hc
  obtain ⟨l, hl, hc⟩ := List.mem_flatMap.1 hc
  rcases List.mem_cons.1 hc with rfl | hc
  · rfl
  · have hline := List.all_eq_true.1 (List.all_eq_true.1 h l hl) c hc
    rwa [Bool.not_eq_true'] at hline

theorem tokens_lead_cons {l : String} {ts : List Token} (h : Reads l ts) (ls : List String) :
    Verilog.Scan.idle.tokens (Verilog.Structural.lead (l :: ls)) =
      ts ++ Verilog.Scan.idle.tokens (Verilog.Structural.lead ls) := by
  rw [Verilog.Structural.lead_cons]
  exact h _

/-- The tokens of a wire of the core that divides the address. -/
def divisionTokens (name : String) (sign : Char) : List Token :=
  [.word "wire", .symbol '[', .word "ADDR_WIDTH", .symbol '-', .number 1, .symbol ':', .number 0, .symbol ']',
    .word name, .symbol '=', .word "addr", .symbol sign, .word "BANK_DEPTH", .symbol ';']

theorem divisions_coreBody (m : Module) :
    Verilog.divisions (Verilog.Scan.idle.tokens (Verilog.Structural.lead ([""] ++ coreBody m ++
      ["", "endmodule", "", "`default_nettype wire", ""]))) = coreDivisions := by
  have hlines : [""] ++ coreBody m ++ ["", "endmodule", "", "`default_nettype wire", ""] =
      "" :: "  wire [ADDR_WIDTH-1:0]       bank_sel  = addr / BANK_DEPTH;" ::
        "  wire [ADDR_WIDTH-1:0]       bank_addr = addr % BANK_DEPTH;" ::
          ((coreBody m).drop 2 ++ ["", "endmodule", "", "`default_nettype wire", ""]) := rfl
  have hbank : Reads "  wire [ADDR_WIDTH-1:0]       bank_sel  = addr / BANK_DEPTH;"
      (divisionTokens "bank_sel" '/') := fun _ => rfl
  have hrow : Reads "  wire [ADDR_WIDTH-1:0]       bank_addr = addr % BANK_DEPTH;"
      (divisionTokens "bank_addr" '%') := fun _ => rfl
  have hrest : ((coreBody m).drop 2 ++ ["", "endmodule", "", "`default_nettype wire", ""]).all
      Verilog.dividesNothing = true := by
    rw [List.all_append, dividesNothing_coreBody]
    decide +kernel
  have hdivide : ∀ ts, Verilog.divisions ([] ++ (divisionTokens "bank_sel" '/' ++
      (divisionTokens "bank_addr" '%' ++ ts))) = coreDivisions ++ Verilog.divisions ts := fun _ => rfl
  rw [hlines, tokens_lead_cons Verilog.reads_empty, tokens_lead_cons hbank, tokens_lead_cons hrow, hdivide,
    Verilog.divisions_of_dividesNothing (forall_mem_lead hrest), List.append_nil]

/-! ### Names and values -/

theorem isWord_of_isIdentifier {s : String} (h : Verilog.isIdentifier s = true) :
    Verilog.Structural.isWord s = true := by
  obtain ⟨c, cs, hs, hc, hcs⟩ := Verilog.exists_cons_of_isIdentifier h
  have hstart : inIdentifier c = true := by
    rw [inIdentifier, Char.isAlphanum]
    rw [startsIdentifier, Bool.or_eq_true] at hc
    rcases hc with hc | hc
    · rw [hc, Bool.true_or, Bool.true_or]
    · rw [hc, Bool.or_true]
  have hall : ∀ d ∈ c :: cs, Verilog.Structural.inWord d = true := fun d hd => by
    rw [Verilog.Structural.inWord, Bool.or_eq_true]
    rcases List.mem_cons.1 hd with rfl | hd
    · exact .inl hstart
    · exact .inl (List.all_eq_true.1 hcs d hd)
  rw [Verilog.Structural.isWord, hs, Bool.and_eq_true, List.all_eq_true]
  exact ⟨hc, hall⟩

/-- The name of a module is no word with a meaning of its own, since none of these begins like it. -/
theorem isName_moduleOf (c : Config) (r : Role) : Verilog.Structural.isName (c.moduleOf r).name = true := by
  have hsuffix : r.suffix.toList.all inIdentifier = true := by cases r <;> decide
  have hword : Verilog.isIdentifier (c.moduleOf r).name = true := by
    rw [c.name_moduleOf]
    exact Verilog.isIdentifier_append c.isIdentifier_baseName hsuffix
  have hnone : ∀ k ∈ Verilog.Structural.reserved, "sram_".toList.isPrefixOf k.toList = false := by
    decide +kernel
  have hnew : (c.moduleOf r).name ∉ Verilog.Structural.reserved := fun hmem => by
    have hprefix := hnone _ hmem
    rw [c.name_moduleOf_eq, String.toList_append, ← Bool.not_eq_true, List.isPrefixOf_iff_prefix] at hprefix
    exact hprefix (List.prefix_append _ _)
  rw [Verilog.Structural.isName, Bool.and_eq_true, Bool.not_eq_true', List.contains_eq_mem,
    decide_eq_false_iff_not]
  exact ⟨isWord_of_isIdentifier hword, hnew⟩

end MemoryCompiler.Rtl

namespace MemoryCompiler.Config

open Rtl
open Decimal (roundNat)
open Verilog (Division)

/-- The sizes of a configuration are counted exactly, and its banks are equally large. -/
structure Banked (c : Config) : Prop where
  depth_pos : 0 < c.depth
  depth_lt : c.depth < 2 ^ 53
  width_pos : 0 < c.width
  width_lt : c.width < 2 ^ 53
  banks_pos : 0 < c.banks
  divide : c.banks ∣ c.depth

def geometry (c : Config) : Geometry := ⟨c.depth, c.addrWidth, c.banks, c.depth / c.banks⟩

/-- What is read of the text of the core. -/
def coreDivider (c : Config) : Verilog.Divider where
  name := c.coreModule.name
  params := [("DEPTH", c.depth), ("ADDR_WIDTH", c.addrWidth), ("CODE_WIDTH", roundNat c.codeWidth),
    ("BANKS", c.banks), ("BANK_DEPTH", c.depth / c.banks)]
  ports := c.coreModule.structure.ports
  divisions := coreDivisions

theorem banked_of_ofDocumentWith {check : List (String × Document) → Except (List SchemaIssue) Config}
    (hcheck : ChecksSchema check) {raw : Document} {table : ProcessTable} {c : Config}
    (h : ofDocumentWith check raw table = .ok c) : c.Banked := by
  obtain ⟨hheld, -⟩ := holds_of_ofDocumentWith hcheck h
  have hsafe : Decimal.safeLimit < 2 ^ 53 := by decide
  have hdepth : Document.IsCount _ c.depth := hheld .depth
  have hwidth : Document.IsCount _ c.width := hheld .width
  have hbanks : Document.IsCount _ c.banks := hheld .banks
  exact ⟨hdepth.1, hdepth.2.1.trans_lt hsafe, hwidth.1, hwidth.2.1.trans_lt hsafe, hbanks.1,
    banks_dvd_of_ofDocumentWith hcheck h⟩

namespace Banked

variable {c : Config} (h : c.Banked)

include h

theorem banks_mul : c.geometry.banks * c.geometry.bankDepth = c.geometry.depth :=
  Nat.mul_div_cancel' h.divide

theorem bankDepth_pos : 0 < c.geometry.bankDepth :=
  Nat.div_pos (Nat.le_of_dvd h.depth_pos h.divide) h.banks_pos

theorem bankDepth_eq : c.bankDepth = .whole (c.depth / c.banks) :=
  ParamValue.quotient_of_dvd h.banks_pos.ne' (Nat.mod_eq_zero_of_dvd h.divide)

theorem banks_le : c.banks ≤ c.depth := Nat.le_of_dvd h.depth_pos h.divide

theorem codeWidth_pos : 0 < c.codeWidth := Nat.add_pos_left h.width_pos _

theorem addrWidth_le : c.addrWidth ≤ 53 := (isLeast_addrWidth c.depth).2 ⟨by decide, h.depth_lt.le⟩

theorem codeWidth_lt : c.codeWidth < 2 ^ 54 := by
  have hbits : c.eccBits ≤ 55 := by
    rw [eccBits, eccLayout]
    split_ifs
    · have hsearch := (Ecc.hammingBits_search_of_lt h.width_lt).2.1
      rw [Option.map_some, Option.getD_some, Ecc.Layout.checkBits, Ecc.Layout.ofWidth]
      dsimp only
      omega
    · exact Nat.zero_le 55
  have hwidth := h.width_lt
  rw [codeWidth]
  omega

theorem arraySize?_moduleOf {r : Role} (hr : r.hasArray = true) :
    (c.moduleOf r).arraySize? = some c.geometry := by
  have hdepth := h.bankDepth_eq
  cases r with
  | top => simp [moduleOf, topModule, Module.arraySize?, Module.whole?, topParams, wholeParam, hdepth, geometry]
  | core =>
    simp [moduleOf, coreModule, Module.arraySize?, Module.whole?, arrayParams, wholeParam, hdepth, geometry]
  | powerWrapper =>
    simp [moduleOf, powerWrapper, Module.arraySize?, Module.whole?, arrayParams, wholeParam, hdepth, geometry]
  | clockGate | eccEncoder | eccDecoder => cases hr

theorem integers_arrayParams : (c.arrayParams.map fun p => (p.name, p.value.integer?)) =
    [("DEPTH", some (c.depth : Int)), ("ADDR_WIDTH", some (c.addrWidth : Int)),
      ("CODE_WIDTH", some (roundNat c.codeWidth : Int)), ("BANKS", some (c.banks : Int)),
      ("BANK_DEPTH", some ((c.depth / c.banks : Nat) : Int))] := by
  have hexact : ∀ {n : Nat}, 0 < n → n < 2 ^ 53 → (ParamValue.whole n).integer? = some (n : Int) :=
    fun hpos hlt => (Decimal.wholeValue_eq_some_iff hpos hlt).2 rfl
  have hdepth := hexact h.depth_pos h.depth_lt
  have haddr := hexact (isLeast_addrWidth c.depth).1.1 (h.addrWidth_le.trans_lt (by decide))
  have hcode : (ParamValue.whole c.codeWidth).integer? = some (roundNat c.codeWidth : Int) :=
    Decimal.wholeValue_ofNat h.codeWidth_pos
      (((Nat.log2_lt h.codeWidth_pos.ne').2 h.codeWidth_lt).trans (by decide))
  have hbanks := hexact h.banks_pos (h.banks_le.trans_lt h.depth_lt)
  have hrows := hexact h.bankDepth_pos ((Nat.div_le_self _ _).trans_lt h.depth_lt)
  rw [arrayParams, h.bankDepth_eq]
  simp only [wholeParam, List.map_cons, List.map_nil, hdepth, hcode, hbanks]
  exact congrArg₂ (fun x y => [_, (_, x), _, _, (_, y)]) haddr hrows

theorem names_arrayParams :
    ∀ p ∈ c.arrayParams, Verilog.Structural.isName p.name = true ∧ p.value.integer?.isSome = true := by
  intro p hp
  have hread : (p.name, p.value.integer?) ∈ c.arrayParams.map fun p => (p.name, p.value.integer?) :=
    List.mem_map_of_mem hp
  rw [h.integers_arrayParams] at hread
  simp only [List.mem_cons, Prod.mk.injEq, List.not_mem_nil, or_false] at hread
  rcases hread with ⟨hname, hvalue⟩ | ⟨hname, hvalue⟩ | ⟨hname, hvalue⟩ | ⟨hname, hvalue⟩ | ⟨hname, hvalue⟩ <;>
    (rw [hname, hvalue]; exact ⟨by decide +kernel, rfl⟩)

omit h in
theorem names_coreModule_ports :
    ∀ p ∈ c.coreModule.ports, Verilog.Structural.isName p.name = true ∧ IsWidthParam p.widthParam := by
  simp only [coreModule, arrayPorts, List.forall_mem_append, List.forall_mem_cons, forall_mem_ite,
    List.not_mem_nil, IsEmpty.forall_iff, implies_true, and_true, input, inputBus, outputBus]
  exact ⟨⟨by decide +kernel, fun _ => by decide +kernel⟩, fun _ => by decide +kernel⟩

theorem read_coreModule :
    ∃ text, c.design.moduleText c.coreModule = .ok text ∧ Verilog.divider? text = some c.coreDivider := by
  obtain ⟨cs₁, cs₂, cs₃, hkeyword, hname, hparams, hports⟩ := reads_declaration_of_names
    (m := c.coreModule) (isName_moduleOf c .core) h.names_arrayParams names_coreModule_ports c (coreBody c.coreModule)
  have hvalues : c.coreModule.structure.params = (c.arrayParams.map fun p => (p.name, p.value.integer?)).map
      fun q => (q.1, q.2.getD 0) := by
    rw [List.map_map]
    rfl
  rw [hvalues, h.integers_arrayParams] at hparams
  refine ⟨_, rfl, ?_⟩
  rw [Verilog.divider?]
  simp only [Option.bind_eq_bind, hkeyword, Option.bind_some, hname, hparams, hports,
    Verilog.Structural.symbol_cons (c := ';') rfl, divisions_coreBody]
  rfl

omit h in
theorem rangeWidth_address : c.coreDivider.declarations.rangeWidth (some addressRange) = some c.addrWidth := by
  have hpos : 1 ≤ c.addrWidth := (isLeast_addrWidth c.depth).1.1
  have hhigh : c.coreDivider.declarations.constant (.minus (.parameter "ADDR_WIDTH") (.literal 1)) =
      some (c.addrWidth - 1) := if_pos hpos
  rw [Verilog.Module.rangeWidth, addressRange, hhigh]
  show some (c.addrWidth - 1 + 1) = _
  rw [Nat.sub_add_cancel hpos]

/-- A dividing wire of the core loses nothing of an address that the port has room for. -/
theorem value_division {address : Nat} (haddress : address < 2 ^ c.addrWidth) (name : String)
    (part : Division.Part) :
    Division.value c.coreDivider (atAddress address) ⟨some addressRange, name, "addr", part, "BANK_DEPTH"⟩ =
      some (part.apply address c.geometry.bankDepth) := by
  have hport : c.coreDivider.operand (atAddress address) "addr" = some address := by
    have hdeclared : c.coreDivider.declarations.declared.lookup "addr" = some (some addressRange) := rfl
    have hwidth : c.coreDivider.declarations.width? "addr" = some c.addrWidth := by
      rw [Verilog.Module.width?, hdeclared, Option.bind_some, rangeWidth_address]
    have hinput : c.coreDivider.params.lookup "addr" = none := rfl
    rw [Verilog.operand_port hinput hwidth]
    exact if_pos haddress
  have hdivisor : c.coreDivider.params.lookup "BANK_DEPTH" = some c.geometry.bankDepth := rfl
  exact Verilog.Division.value_eq hport (Verilog.operand_param hdivisor) rangeWidth_address h.bankDepth_pos
    haddress

theorem decode?_core {text : String} (hread : Verilog.divider? text = some c.coreDivider) {address : Nat}
    (haddress : address < 2 ^ c.addrWidth) : decode? text address =
      some (address / c.geometry.bankDepth, address % c.geometry.bankDepth) := by
  have hbank : c.coreDivider.wire (atAddress address) "bank_sel" = some (address / c.geometry.bankDepth) :=
    h.value_division haddress "bank_sel" .quotient
  have hrow : c.coreDivider.wire (atAddress address) "bank_addr" = some (address % c.geometry.bankDepth) :=
    h.value_division haddress "bank_addr" .rest
  simp only [decode?, Option.bind_eq_bind, hread, Option.bind_some, hbank, hrow]

end Banked

end MemoryCompiler.Config

namespace MemoryCompiler.Rtl

/-- **Address decoding is a bijection onto the array.** For every configuration that is read from a
document, the modules with an array give one size for it: banks of at least one row each hold all words,
and an address has the least number of bits that tells these apart. The text of the core makes bank and
row of every address that its port has room for. The addresses of the words are among these, one for each
row of each bank, and the others lie beyond the last bank. -/
theorem address_decoding {check : List (String × Document) → Except (List SchemaIssue) Config}
    (hcheck : Config.ChecksSchema check) (raw : Document) (table : ProcessTable) (c : Config)
    (h : Config.ofDocumentWith check raw table = .ok c) :
    ∃ g : Geometry,
      (∀ m ∈ c.design.modules, m.role.hasArray = true → m.arraySize? = some g) ∧
      g.depth = c.depth ∧ g.banks = c.banks ∧ g.addrWidth = c.design.addrWidth ∧
      .whole g.bankDepth = c.design.bankDepth ∧
      g.banks * g.bankDepth = g.depth ∧ 1 ≤ g.bankDepth ∧
      IsLeast {w | 1 ≤ w ∧ g.depth ≤ 2 ^ w} g.addrWidth ∧
      ∃ core text, c.design.module? .core = some core ∧ c.design.moduleText core = .ok text ∧
        ∃ f : Nat → Nat × Nat,
          (∀ a < 2 ^ g.addrWidth, decode? text a = some (f a) ∧ f a = (a / g.bankDepth, a % g.bankDepth)) ∧
          (∀ a < g.depth, a < 2 ^ g.addrWidth) ∧
          Set.BijOn f {a | a < g.depth} {p | p.1 < g.banks ∧ p.2 < g.bankDepth} ∧
          ∀ a, g.depth ≤ a → a < 2 ^ g.addrWidth → g.banks ≤ (f a).1 := by
  have hbanked := Config.banked_of_ofDocumentWith hcheck h
  have hleast : IsLeast {w | 1 ≤ w ∧ c.geometry.depth ≤ 2 ^ w} c.geometry.addrWidth := isLeast_addrWidth c.depth
  obtain ⟨text, htext, hread⟩ := hbanked.read_coreModule
  refine ⟨c.geometry, fun m hm hrole => ?_, rfl, rfl, rfl, hbanked.bankDepth_eq.symm, hbanked.banks_mul,
    hbanked.bankDepth_pos, hleast, c.coreModule, text, rfl, htext,
    fun a => (a / c.geometry.bankDepth, a % c.geometry.bankDepth),
    fun a ha => ⟨hbanked.decode?_core hread ha, rfl⟩, fun a ha => ha.trans_le hleast.1.2, ?_, fun a hge _ => ?_⟩
  · rw [((Config.mem_modules_iff c).1 hm).2]
    exact hbanked.arraySize?_moduleOf hrole
  · rw [← hbanked.banks_mul]
    exact bijOn_divMod hbanked.bankDepth_pos
  · rw [← hbanked.banks_mul] at hge
    exact (Nat.le_div_iff_mul_le hbanked.bankDepth_pos).2 hge

/-- Three banks of four words, which leave four addresses over. -/
def tripleConfig : Config where
  depth := 12
  width := 8
  banks := 3
  voltage := 0.75
  processNode := 7
  powerGating := true
  clockGating := false
  retentionMode := false
  eccEnable := true

theorem address_decoding_triple : ∃ core text, Config.ChecksSchema Config.checkSchema ∧
    Config.ofDocumentWith Config.checkSchema tripleConfig.toDocument .standard = .ok tripleConfig ∧
    tripleConfig.design.module? .core = some core ∧ tripleConfig.design.moduleText core = .ok text ∧
    decode? text 11 = some (2, 3) := by
  have hheld : ∀ f, tripleConfig.Holds f (tripleConfig.get f) := by
    have hcount : ∀ {n : Nat}, 0 < n → n ≤ 12 → Document.IsCount (.ofNat n) n := fun hpos hle =>
      ⟨hpos, hle.trans (by decide), rfl⟩
    intro f
    cases f with
    | depth | width | banks | processNode => exact hcount (by decide) (by decide)
    | voltage => exact ⟨by decide +kernel, by decide +kernel, rfl⟩
    | powerGating | clockGating | retentionMode | eccEnable => exact .inl rfl
  have hread : Config.ofDocumentWith Config.checkSchema tripleConfig.toDocument .standard = .ok tripleConfig :=
    Config.ofDocumentWith_toDocument_of_holds Config.checksSchema_checkSchema hheld (by decide) (by decide)
  obtain ⟨g, -, hdepth, hbanks, -, -, hproduct, -, hleast, core, text, hcore, htext, f, hdecode, hfits, -⟩ :=
    address_decoding Config.checksSchema_checkSchema _ _ _ hread
  have hwords : g.depth = 12 := hdepth
  have hthree : g.banks = 3 := hbanks
  have hfour : g.bankDepth = 4 := by
    rw [hwords, hthree] at hproduct
    omega
  obtain ⟨hlast, hvalue⟩ := hdecode 11 (hfits 11 (by omega))
  refine ⟨core, text, Config.checksSchema_checkSchema, hread, hcore, htext, ?_⟩
  rw [hlast, hvalue, hfour]

end MemoryCompiler.Rtl
