import MemoryCompiler.Proofs.Config.Names
import MemoryCompiler.Proofs.Ecc.Syndrome
import MemoryCompiler.Proofs.Verilog.Parsing

/-!
# The text of encoder and decoder

What is read of the generated text of the two modules: `read_encoder` and `read_decoder` give their
parameters, ports, wires and assignments. Every check bit covers some data bit, so none of the
equations is empty and none is lost.
-/

namespace MemoryCompiler.Rtl

open Verilog (Reads HoldsItems Item Expr Token unlines sumOf bitExpr bitText)

section config

variable (c : Config)

theorem paramLines_eccParams :
    paramLines c.eccParams =
      ["  parameter DATA_WIDTH = " ++ Decimal.natText c.width ++ ",",
        "  parameter CHECK_BITS = " ++ Decimal.natText c.eccBits ++ ",",
        "  parameter CODE_WIDTH = " ++ Decimal.natText c.codeWidth] := by
  have hcolumn : Text.widest ["DATA_WIDTH", "CHECK_BITS", "CODE_WIDTH"] = 10 := by decide
  have hdata : "  parameter " ++ Text.pad "DATA_WIDTH" 10 ++ " = " = "  parameter DATA_WIDTH = " := by
    decide
  have hcheck : "  parameter " ++ Text.pad "CHECK_BITS" 10 ++ " = " = "  parameter CHECK_BITS = " := by
    decide
  have hcode : "  parameter " ++ Text.pad "CODE_WIDTH" 10 ++ " = " = "  parameter CODE_WIDTH = " := by
    decide
  simp only [paramLines, Config.eccParams, wholeParam, List.map_cons, List.map_nil, hcolumn, hdata,
    hcheck, hcode, commaLines_cons_cons, commaLines_singleton, ParamValue.text]

theorem portLines_encoder :
    portLines c.eccEncoder.ports =
      ["  input  wire [DATA_WIDTH-1:0] data_i,", "  output wire [CODE_WIDTH-1:0] code_o"] := by
  simp only [portLines, Config.eccEncoder, inputBus, outputBus, List.map_cons, List.map_nil,
    rangeText_param _ (by decide : "DATA_WIDTH" ≠ ""),
    rangeText_param _ (by decide : "CODE_WIDTH" ≠ ""), commaLines_cons_cons, commaLines_singleton]
  decide

theorem portLines_decoder :
    portLines c.eccDecoder.ports =
      ["  input  wire [CODE_WIDTH-1:0] code_i,", "  output wire [DATA_WIDTH-1:0] data_o,",
        "  output wire                  correctable_o,",
        "  output wire                  uncorrectable_o"] := by
  simp only [portLines, Config.eccDecoder, inputBus, outputBus, output, List.map_cons, List.map_nil,
    rangeText_param _ (by decide : "DATA_WIDTH" ≠ ""),
    rangeText_param _ (by decide : "CODE_WIDTH" ≠ ""), commaLines_cons_cons,
    commaLines_singleton]
  decide

/-! ### Header and declaration -/

theorem reads_header {m : Module} (hm : OneLine m.name) :
    Reads (unlines (headerLines c.design m)) [] := by
  have hrole : OneLine m.role.title := by cases m.role <;> decide
  have hname := Verilog.reads_comment ((hm.append (by decide : OneLine ": ")).append hrole)
  have hlabel := Verilog.reads_comment ((OneLine.append (by decide :
    OneLine "Generated by sram-compiler for ") c.oneLine_label).append
    (by decide : OneLine ". Do not edit."))
  have hfingerprint := Verilog.reads_comment
    (OneLine.append (by decide : OneLine "Configuration fingerprint: ") c.oneLine_fingerprint)
  have hrest : Reads (unlines ["`timescale 1ns / 1ps", "`default_nettype none", ""]) [] :=
    fun _ => rfl
  rw [headerLines]
  simp only [Verilog.unlines_cons] at hrest ⊢
  have hall := (hname.append hlabel).append (hfingerprint.append hrest)
  have hlead : "// " ++ "Generated by sram-compiler for " = "// Generated by sram-compiler for " := by
    decide
  have hlead' : "// " ++ "Configuration fingerprint: " = "// Configuration fingerprint: " := by
    decide
  have hgenerated : ∀ s : String, "// " ++ ("Generated by sram-compiler for " ++ s) =
      "// Generated by sram-compiler for " ++ s := fun s =>
    String.append_assoc.symm.trans (congrArg (· ++ s) hlead)
  have hconfiguration : ∀ s : String, "// " ++ ("Configuration fingerprint: " ++ s) =
      "// Configuration fingerprint: " ++ s := fun s =>
    String.append_assoc.symm.trans (congrArg (· ++ s) hlead')
  simp only [String.append_assoc, hgenerated, hconfiguration] at hall ⊢
  exact hall

/-- The tokens of a declaration with the three parameters, in front of the ports. -/
def eccDeclTokens (name : String) (ports : List Token) : List Token :=
  [.word "module", .word name, .symbol '#', .symbol '(', .word "parameter", .word "DATA_WIDTH",
    .symbol '=', .number c.width, .symbol ',', .word "parameter", .word "CHECK_BITS", .symbol '=',
    .number c.eccBits, .symbol ',', .word "parameter", .word "CODE_WIDTH", .symbol '=',
    .number c.codeWidth, .symbol ')', .symbol '('] ++ ports

theorem reads_declaration {m : Module} {ports : List Token} (hm : Verilog.isIdentifier m.name = true)
    (hparams : m.params = c.eccParams)
    (hports : Reads (unlines (portLines m.ports ++ [");"])) ports) :
    Reads (unlines (declarationLines m)) (eccDeclTokens c m.name ports) := by
  have hne : m.params ≠ [] := by
    rw [hparams]
    exact List.cons_ne_nil _ _
  rw [declarationLines, if_neg hne, hparams, paramLines_eccParams]
  have hopen : Reads (" #(" ++ "\n") [.symbol '#', .symbol '('] := fun _ => rfl
  have hmodule : Reads ("module " ++ m.name ++ (" #(" ++ "\n"))
      [.word "module", .word m.name, .symbol '#', .symbol '('] :=
    Reads.append_word (fun _ => rfl : Reads "module " [.word "module"]) hm ⟨' ', _, rfl, rfl⟩ hopen
  have hcomma : Reads ("," ++ "\n") [.symbol ','] := fun _ => rfl
  have hdata : Reads "  parameter DATA_WIDTH = "
      [.word "parameter", .word "DATA_WIDTH", .symbol '='] := fun _ => rfl
  have hcheck : Reads "  parameter CHECK_BITS = "
      [.word "parameter", .word "CHECK_BITS", .symbol '='] := fun _ => rfl
  have hcode : Reads "  parameter CODE_WIDTH = "
      [.word "parameter", .word "CODE_WIDTH", .symbol '='] := fun _ => rfl
  have hparameters := (hdata.append_number c.width ⟨',', _, rfl, rfl⟩ hcomma).append
    ((hcheck.append_number c.eccBits ⟨',', _, rfl, rfl⟩ hcomma).append
      (hcode.append_number c.codeWidth ⟨'\n', _, rfl, rfl⟩ Verilog.reads_lineEnd))
  have hclose : Reads (") (" ++ "\n") [.symbol ')', .symbol '('] := fun _ => rfl
  have hall := (hmodule.append hparameters).append (hclose.append hports)
  simp only [List.cons_append, List.nil_append, Verilog.unlines_cons, String.append_assoc] at hall ⊢
  exact hall

end config

/-! ### Bodies -/

section body

variable {l : Ecc.Layout} {w r : Nat}

theorem checkRange_eq (hl : l.Extended w r) :
    checkRange l = "[" ++ Decimal.natText (r - 1) ++ ":0]" := by
  have hpos := hl.hammingBits_pos
  have hcast : ((r : Nat) : Int) - 1 = ((r - 1 : Nat) : Int) := by omega
  rw [checkRange, hl.hammingBits, hcast]
  rfl

def checkItems (l : Ecc.Layout) : List Item :=
  l.coverage.mapIdx fun i covered =>
    .assign "check" (some (.literal i)) (sumOf (covered.map fun j => .bit "data_i" (.literal j)))

def syndromeItems (l : Ecc.Layout) : List Item :=
  l.coverage.mapIdx fun i covered => .assign "syndrome" (some (.literal i))
    (sumOf (.bit "check" (.literal i) :: covered.map fun j => .bit "data" (.literal j)))

def correctionItems (l : Ecc.Layout) : List Item :=
  l.positions.mapIdx fun j position => .assign "data_o" (some (.literal j))
    (.xor (.bit "data" (.literal j))
      (.and (.net "parity_err") (.equal (.net "syndrome") (.literal l.hammingBits position))))

theorem holdsItems_checkEquations (hl : l.Extended w r) :
    HoldsItems (unlines ((checkEquations l).flatMap Equation.lines)) (checkItems l) := by
  refine Verilog.holdsItems_mapIdx fun i covered h => ?_
  have hbits : ∀ b ∈ covered.map fun j => ("data_i", j), Verilog.isIdentifier b.1 = true := by
    intro b hb
    obtain ⟨j, -, rfl⟩ := List.mem_map.1 hb
    exact (by decide : Verilog.isIdentifier "data_i" = true)
  have htarget : Verilog.isIdentifier "check" = true := by decide
  have hone := Verilog.holdsItems_equation ("check", i) htarget
    (mt List.map_eq_nil_iff.1 (Ecc.covered_ne_nil hl h)) hbits
  rw [List.map_map, List.map_map] at hone
  exact hone

theorem holdsItems_syndromeEquations (l : Ecc.Layout) :
    HoldsItems (unlines ((syndromeEquations l).flatMap Equation.lines)) (syndromeItems l) := by
  refine Verilog.holdsItems_mapIdx fun i covered _ => ?_
  have hbits : ∀ b ∈ ("check", i) :: covered.map fun j => ("data", j),
      Verilog.isIdentifier b.1 = true := by
    intro b hb
    rcases List.mem_cons.1 hb with rfl | hb
    · exact (by decide : Verilog.isIdentifier "check" = true)
    · obtain ⟨j, -, rfl⟩ := List.mem_map.1 hb
      exact (by decide : Verilog.isIdentifier "data" = true)
  have htarget : Verilog.isIdentifier "syndrome" = true := by decide
  have hone := Verilog.holdsItems_equation ("syndrome", i) htarget (List.cons_ne_nil _ _) hbits
  rw [List.map_cons, List.map_cons, List.map_map, List.map_map] at hone
  exact hone

def correctionTokens (r position j : Nat) : List Token :=
  [.word "assign", .word "data_o", .symbol '[', .number j, .symbol ']', .symbol '=', .word "data",
    .symbol '[', .number j, .symbol ']', .symbol '^', .symbol '(', .word "parity_err", .symbol '&',
    .symbol '(', .word "syndrome", .symbol '=', .symbol '=', .sized r position, .symbol ')',
    .symbol ')', .symbol ';']

theorem reads_correctionLine (l : Ecc.Layout) (position j : Nat) :
    Reads (correctionLine l position j ++ "\n") (correctionTokens l.hammingBits position j) := by
  have hassign : Reads "  assign " [.word "assign"] := fun _ => rfl
  have htarget := Verilog.reads_bitOf (by decide : Verilog.isIdentifier "data_o" = true) j
  have hequals : Reads " = " [.symbol '='] := fun _ => rfl
  have hdata := Verilog.reads_bitOf (by decide : Verilog.isIdentifier "data" = true) j
  have hselect : Reads " ^ (parity_err & (syndrome == " [.symbol '^', .symbol '(',
      .word "parity_err", .symbol '&', .symbol '(', .word "syndrome", .symbol '=', .symbol '='] :=
    fun _ => rfl
  have hclose : Reads ("));" ++ "\n") [.symbol ')', .symbol ')', .symbol ';'] := fun _ => rfl
  have hposition := hclose.sized l.hammingBits position ⟨')', _, rfl, rfl⟩
  have hall := ((hassign.append htarget).append hequals).append
    ((hdata.append hselect).append hposition)
  show Reads ("  assign " ++ bitOf "data_o" j ++ " = " ++ bitOf "data" j ++
    " ^ (parity_err & (syndrome == " ++ Decimal.natText l.hammingBits ++ "'d" ++
    Decimal.natText position ++ "));" ++ "\n") _
  simp only [String.append_assoc] at hall ⊢
  exact hall

theorem holdsItems_correctionLines (l : Ecc.Layout) :
    HoldsItems (unlines (l.positions.mapIdx fun j position => correctionLine l position j))
      (correctionItems l) := by
  rw [← List.flatMap_singleton' (l.positions.mapIdx fun j position => correctionLine l position j)]
  refine Verilog.holdsItems_mapIdx fun j position _ => ?_
  refine ⟨correctionTokens l.hammingBits position j, ?_,
    Verilog.parsesItems_singleton (Nat.le_add_left 1 _) fun us => rfl⟩
  have hline := (reads_correctionLine l position j).unlines_cons Verilog.reads_unlines_nil
  rwa [List.append_nil] at hline

theorem reads_checkRange (hl : l.Extended w r) :
    Reads (checkRange l) [.symbol '[', .number (r - 1), .symbol ':', .number 0, .symbol ']'] := by
  have hopen : Reads "[" [.symbol '['] := fun _ => rfl
  have hclose : Reads ":0]" [.symbol ':', .number 0, .symbol ']'] := fun _ => rfl
  rw [checkRange_eq hl]
  exact hopen.append_number (r - 1) ⟨':', _, rfl, rfl⟩ hclose

def encoderItems (l : Ecc.Layout) : List Item :=
  .wire (some (.literal (l.hammingBits - 1), .literal 0)) "check" none :: checkItems l ++
    [.assign "code_o" none (.concat (.reduceXor (.concat (.net "check") (.net "data_i")))
      (.concat (.net "check") (.net "data_i")))]

theorem holdsItems_encoderBody (hl : l.Extended w r) :
    HoldsItems (unlines (encoderBody l)) (encoderItems l) := by
  have hwire : HoldsItems ("  wire " ++ checkRange l ++ " check;" ++ "\n")
      [.wire (some (.literal (r - 1), .literal 0)) "check" none] := by
    have hlead : Reads "  wire " [.word "wire"] := fun _ => rfl
    have hname : Reads (" check;" ++ "\n") [.word "check", .symbol ';'] := fun _ => rfl
    rw [String.append_assoc]
    exact ⟨_, (hlead.append (reads_checkRange hl)).append hname,
      Verilog.parsesItems_singleton (Nat.le_add_left 1 _) fun us => rfl⟩
  have hcode : HoldsItems (unlines ["", "  assign code_o = \x7b^\x7bcheck, data_i\x7d, check, data_i\x7d;"])
      [.assign "code_o" none (.concat (.reduceXor (.concat (.net "check") (.net "data_i")))
        (.concat (.net "check") (.net "data_i")))] :=
    ⟨[.word "assign", .word "code_o", .symbol '=', .symbol '\x7b', .symbol '^', .symbol '\x7b',
      .word "check", .symbol ',', .word "data_i", .symbol '\x7d', .symbol ',', .word "check",
      .symbol ',', .word "data_i", .symbol '\x7d', .symbol ';'], fun _ => rfl,
      Verilog.parsesItems_singleton (Nat.le_add_left 1 _) fun us => rfl⟩
  have hhead := hwire.unlines_cons (Verilog.holdsItems_blank.unlines_cons Verilog.holdsItems_nil)
  rw [encoderItems, hl.hammingBits]
  exact (hhead.unlines_append (holdsItems_checkEquations hl)).unlines_append hcode

def decoderItems (l : Ecc.Layout) : List Item :=
  [.wire (some (.minus (.parameter "DATA_WIDTH") (.literal 1), .literal 0)) "data"
      (some (.range "code_i" (.minus (.parameter "DATA_WIDTH") (.literal 1)) (.literal 0))),
    .wire (some (.literal (l.hammingBits - 1), .literal 0)) "check"
      (some (.slice "code_i" (.parameter "DATA_WIDTH") (.literal l.hammingBits))),
    .wire (some (.literal (l.hammingBits - 1), .literal 0)) "syndrome" none,
    .wire none "parity_err" (some (.reduceXor (.net "code_i")))] ++ syndromeItems l ++
    [.assign "correctable_o" none (.net "parity_err"),
      .assign "uncorrectable_o" none
        (.and (.not (.net "parity_err")) (.reduceOr (.net "syndrome")))] ++ correctionItems l

theorem reads_decoderWire {range rest : String} {ts us : List Token} (hrange : Reads range ts)
    (hrest : Reads (rest ++ "\n") us) :
    Reads (decoderWire range rest ++ "\n") (.word "wire" :: ts ++ us) := by
  have hwire : Reads "  wire " [.word "wire"] := fun _ => rfl
  have hblank : Reads " " [] := fun _ => rfl
  have hpad := (hrange.append
    (Verilog.reads_spaces (Text.units "[DATA_WIDTH-1:0]" - Text.units range))).append hblank
  have hall := (hwire.append hpad).append hrest
  rw [decoderWire, Text.pad]
  simp only [List.append_nil, String.append_assoc] at hall ⊢
  exact hall

theorem holdsItems_dataWire :
    HoldsItems (decoderWire "[DATA_WIDTH-1:0]" "data       = code_i[DATA_WIDTH-1:0];" ++ "\n")
      [.wire (some (.minus (.parameter "DATA_WIDTH") (.literal 1), .literal 0)) "data"
        (some (.range "code_i" (.minus (.parameter "DATA_WIDTH") (.literal 1)) (.literal 0)))] := by
  have hrange : Reads "[DATA_WIDTH-1:0]" [.symbol '[', .word "DATA_WIDTH", .symbol '-',
      .number 1, .symbol ':', .number 0, .symbol ']'] := fun _ => rfl
  have hvalue : Reads ("data       = code_i[DATA_WIDTH-1:0];" ++ "\n") [.word "data", .symbol '=',
      .word "code_i", .symbol '[', .word "DATA_WIDTH", .symbol '-', .number 1, .symbol ':', .number 0,
      .symbol ']', .symbol ';'] := fun _ => rfl
  exact ⟨_, reads_decoderWire hrange hvalue,
    Verilog.parsesItems_singleton (Nat.le_add_left 1 _) fun us => rfl⟩

theorem holdsItems_checkWire (hl : l.Extended w r) :
    HoldsItems (decoderWire (checkRange l)
        ("check      = code_i[DATA_WIDTH +: " ++ Decimal.natText l.hammingBits ++ "];") ++ "\n")
      [.wire (some (.literal (l.hammingBits - 1), .literal 0)) "check"
        (some (.slice "code_i" (.parameter "DATA_WIDTH") (.literal l.hammingBits)))] := by
  have hlead : Reads "check      = code_i[DATA_WIDTH +: " [.word "check", .symbol '=', .word "code_i",
      .symbol '[', .word "DATA_WIDTH", .symbol '+', .symbol ':'] := fun _ => rfl
  have hclose : Reads ("];" ++ "\n") [.symbol ']', .symbol ';'] := fun _ => rfl
  have hvalue := hlead.append_number l.hammingBits ⟨']', _, rfl, rfl⟩ hclose
  rw [← String.append_assoc] at hvalue
  rw [hl.hammingBits] at hvalue ⊢
  exact ⟨_, reads_decoderWire (reads_checkRange hl) hvalue,
    Verilog.parsesItems_singleton (Nat.le_add_left 1 _) fun us => rfl⟩

theorem holdsItems_syndromeWire (hl : l.Extended w r) :
    HoldsItems (decoderWire (checkRange l) "syndrome;" ++ "\n")
      [.wire (some (.literal (l.hammingBits - 1), .literal 0)) "syndrome" none] := by
  have hname : Reads ("syndrome;" ++ "\n") [.word "syndrome", .symbol ';'] := fun _ => rfl
  rw [hl.hammingBits]
  exact ⟨_, reads_decoderWire (reads_checkRange hl) hname,
    Verilog.parsesItems_singleton (Nat.le_add_left 1 _) fun us => rfl⟩

theorem holdsItems_parityWire :
    HoldsItems (decoderWire "" "parity_err = ^code_i;" ++ "\n")
      [.wire none "parity_err" (some (.reduceXor (.net "code_i")))] := by
  have hvalue : Reads ("parity_err = ^code_i;" ++ "\n")
      [.word "parity_err", .symbol '=', .symbol '^', .word "code_i", .symbol ';'] := fun _ => rfl
  exact ⟨_, reads_decoderWire Verilog.reads_empty hvalue,
    Verilog.parsesItems_singleton (Nat.le_add_left 1 _) fun us => rfl⟩

theorem holdsItems_flags :
    HoldsItems (unlines ["", "  assign correctable_o   = parity_err;",
        "  assign uncorrectable_o = ~parity_err & (|syndrome);", ""])
      [.assign "correctable_o" none (.net "parity_err"),
        .assign "uncorrectable_o" none
          (.and (.not (.net "parity_err")) (.reduceOr (.net "syndrome")))] := by
  have hcorrectable : HoldsItems ("  assign correctable_o   = parity_err;" ++ "\n")
      [.assign "correctable_o" none (.net "parity_err")] :=
    ⟨[.word "assign", .word "correctable_o", .symbol '=', .word "parity_err", .symbol ';'],
      fun _ => rfl, Verilog.parsesItems_singleton (Nat.le_add_left 1 _) fun us => rfl⟩
  have huncorrectable : HoldsItems ("  assign uncorrectable_o = ~parity_err & (|syndrome);" ++ "\n")
      [.assign "uncorrectable_o" none
        (.and (.not (.net "parity_err")) (.reduceOr (.net "syndrome")))] :=
    ⟨[.word "assign", .word "uncorrectable_o", .symbol '=', .symbol '~', .word "parity_err",
      .symbol '&', .symbol '(', .symbol '|', .word "syndrome", .symbol ')', .symbol ';'],
      fun _ => rfl, Verilog.parsesItems_singleton (Nat.le_add_left 1 _) fun us => rfl⟩
  exact Verilog.holdsItems_blank.unlines_cons (hcorrectable.unlines_cons
    (huncorrectable.unlines_cons (Verilog.holdsItems_blank.unlines_cons Verilog.holdsItems_nil)))

theorem holdsItems_decoderBody (hl : l.Extended w r) :
    HoldsItems (unlines (decoderBody l)) (decoderItems l) := by
  have hwires := holdsItems_dataWire.unlines_cons ((holdsItems_checkWire hl).unlines_cons
    ((holdsItems_syndromeWire hl).unlines_cons (holdsItems_parityWire.unlines_cons
      (Verilog.holdsItems_blank.unlines_cons Verilog.holdsItems_nil))))
  exact ((hwires.unlines_append (holdsItems_syndromeEquations l)).unlines_append
    holdsItems_flags).unlines_append (holdsItems_correctionLines l)

end body

/-! ### Modules -/

/-- A text is read part by part: header, declaration, body. -/
theorem read_moduleText {d : Design} {m : Module} {body : List String} {decl : List Token}
    {items : List Item} {name : String} {params : List (String × Nat)} {ports : List Verilog.Port}
    (hbody : bodyLines d m = .ok body) (hheader : Reads (unlines (headerLines d m)) [])
    (hdecl : Reads (unlines (declarationLines m)) decl)
    (hmodule : ∀ ts, Verilog.module? (decl ++ ts) =
      (Verilog.items ts.length ts).bind fun p => some (⟨name, params, ports, p.1⟩, p.2))
    (hitems : HoldsItems (unlines body) items) :
    ∃ text, d.moduleText m = .ok text ∧ Verilog.read text = some ⟨name, params, ports, items⟩ := by
  obtain ⟨ts, hread, hparse⟩ := hitems
  have hend : Reads (unlines ["", "endmodule", "", "`default_nettype wire"]) [.word "endmodule"] :=
    fun _ => rfl
  have hblank : Reads (unlines [""]) [] := fun _ => rfl
  have hlines := ((((hheader.unlines_append hdecl).unlines_append hblank).unlines_append
    hread).unlines_append hend).tokens_eq
  have htext : d.moduleText m = .ok (joinLines (headerLines d m ++ declarationLines m ++ [""] ++ body ++
      ["", "endmodule", "", "`default_nettype wire", ""])) := by
    rw [Design.moduleText, hbody]
    rfl
  have hjoin : joinLines (headerLines d m ++ declarationLines m ++ [""] ++ body ++
      ["", "endmodule", "", "`default_nettype wire", ""]) =
      unlines (headerLines d m ++ declarationLines m ++ [""] ++ body ++
        ["", "endmodule", "", "`default_nettype wire"]) := by
    rw [← Verilog.joinLines_append_empty]
    simp only [List.append_assoc, List.cons_append, List.nil_append]
  have hall : Verilog.module? (decl ++ (ts ++ [.word "endmodule"])) =
      some (⟨name, params, ports, items⟩, []) := by
    rw [hmodule, hparse.items_eq []]
    rfl
  have htokens : [] ++ decl ++ [] ++ ts ++ [.word "endmodule"] =
      decl ++ (ts ++ [Token.word "endmodule"]) := by
    rw [List.nil_append, List.append_nil, List.append_assoc]
  refine ⟨_, htext, ?_⟩
  rw [Verilog.read, hjoin, hlines, htokens, hall]

section config

variable (c : Config)

/-- The range of a port whose width is a parameter. -/
def paramRange (name : String) : Option Verilog.Range :=
  some (.minus (.parameter name) (.literal 1), .literal 0)

def eccParamValues : List (String × Nat) :=
  [("DATA_WIDTH", c.width), ("CHECK_BITS", c.eccBits), ("CODE_WIDTH", c.codeWidth)]

def encoderSource (l : Ecc.Layout) : Verilog.Module where
  name := c.eccEncoder.name
  params := eccParamValues c
  ports := [⟨.input, paramRange "DATA_WIDTH", "data_i"⟩, ⟨.output, paramRange "CODE_WIDTH", "code_o"⟩]
  items := encoderItems l

def decoderSource (l : Ecc.Layout) : Verilog.Module where
  name := c.eccDecoder.name
  params := eccParamValues c
  ports := [⟨.input, paramRange "CODE_WIDTH", "code_i"⟩, ⟨.output, paramRange "DATA_WIDTH", "data_o"⟩,
    ⟨.output, none, "correctable_o"⟩, ⟨.output, none, "uncorrectable_o"⟩]
  items := decoderItems l

variable {c} {l : Ecc.Layout} {w r : Nat}

theorem layoutFor_design (hecc : c.eccLayout = some l) (m : Module) :
    c.design.layoutFor m = .ok l := by
  rw [Design.layoutFor, show c.design.ecc = some l from hecc]

theorem read_encoder (hecc : c.eccLayout = some l) (hl : l.Extended w r) :
    ∃ text, c.design.moduleText c.eccEncoder = .ok text ∧
      Verilog.read text = some (encoderSource c l) := by
  have hname := Verilog.isIdentifier_append c.isIdentifier_baseName
    (by decide : "_ecc_enc".toList.all inIdentifier = true)
  have hports : Reads (unlines (portLines c.eccEncoder.ports ++ [");"]))
      [.word "input", .word "wire", .symbol '[', .word "DATA_WIDTH", .symbol '-', .number 1,
        .symbol ':', .number 0, .symbol ']', .word "data_i", .symbol ',', .word "output",
        .word "wire", .symbol '[', .word "CODE_WIDTH", .symbol '-', .number 1, .symbol ':', .number 0,
        .symbol ']', .word "code_o", .symbol ')', .symbol ';'] := by
    have hdata : Reads ("  input  wire [DATA_WIDTH-1:0] data_i," ++ "\n")
        [.word "input", .word "wire", .symbol '[', .word "DATA_WIDTH", .symbol '-', .number 1,
          .symbol ':', .number 0, .symbol ']', .word "data_i", .symbol ','] := fun _ => rfl
    have hcode : Reads ("  output wire [CODE_WIDTH-1:0] code_o" ++ "\n")
        [.word "output", .word "wire", .symbol '[', .word "CODE_WIDTH", .symbol '-', .number 1,
          .symbol ':', .number 0, .symbol ']', .word "code_o"] := fun _ => rfl
    have hend : Reads (");" ++ "\n") [.symbol ')', .symbol ';'] := fun _ => rfl
    rw [portLines_encoder]
    exact hdata.unlines_cons (hcode.unlines_cons (hend.unlines_cons Verilog.reads_unlines_nil))
  have hbody : bodyLines c.design c.eccEncoder = .ok (encoderBody l) := by
    show (c.design.layoutFor c.eccEncoder).map encoderBody = _
    rw [layoutFor_design hecc]
    rfl
  exact read_moduleText hbody (reads_header c (oneLine_of_isIdentifier hname))
    (reads_declaration c hname rfl hports) (fun ts => rfl) (holdsItems_encoderBody hl)

theorem read_decoder (hecc : c.eccLayout = some l) (hl : l.Extended w r) :
    ∃ text, c.design.moduleText c.eccDecoder = .ok text ∧
      Verilog.read text = some (decoderSource c l) := by
  have hname := Verilog.isIdentifier_append c.isIdentifier_baseName
    (by decide : "_ecc_dec".toList.all inIdentifier = true)
  have hports : Reads (unlines (portLines c.eccDecoder.ports ++ [");"]))
      [.word "input", .word "wire", .symbol '[', .word "CODE_WIDTH", .symbol '-', .number 1,
        .symbol ':', .number 0, .symbol ']', .word "code_i", .symbol ',', .word "output",
        .word "wire", .symbol '[', .word "DATA_WIDTH", .symbol '-', .number 1, .symbol ':', .number 0,
        .symbol ']', .word "data_o", .symbol ',', .word "output", .word "wire",
        .word "correctable_o", .symbol ',', .word "output", .word "wire", .word "uncorrectable_o",
        .symbol ')', .symbol ';'] := by
    have hcode : Reads ("  input  wire [CODE_WIDTH-1:0] code_i," ++ "\n")
        [.word "input", .word "wire", .symbol '[', .word "CODE_WIDTH", .symbol '-', .number 1,
          .symbol ':', .number 0, .symbol ']', .word "code_i", .symbol ','] := fun _ => rfl
    have hdata : Reads ("  output wire [DATA_WIDTH-1:0] data_o," ++ "\n")
        [.word "output", .word "wire", .symbol '[', .word "DATA_WIDTH", .symbol '-', .number 1,
          .symbol ':', .number 0, .symbol ']', .word "data_o", .symbol ','] := fun _ => rfl
    have hcorrectable : Reads ("  output wire                  correctable_o," ++ "\n")
        [.word "output", .word "wire", .word "correctable_o", .symbol ','] := fun _ => rfl
    have huncorrectable : Reads ("  output wire                  uncorrectable_o" ++ "\n")
        [.word "output", .word "wire", .word "uncorrectable_o"] := fun _ => rfl
    have hend : Reads (");" ++ "\n") [.symbol ')', .symbol ';'] := fun _ => rfl
    rw [portLines_decoder]
    exact hcode.unlines_cons (hdata.unlines_cons (hcorrectable.unlines_cons
      (huncorrectable.unlines_cons (hend.unlines_cons Verilog.reads_unlines_nil))))
  have hbody : bodyLines c.design c.eccDecoder = .ok (decoderBody l) := by
    show (c.design.layoutFor c.eccDecoder).map decoderBody = _
    rw [layoutFor_design hecc]
    rfl
  exact read_moduleText hbody (reads_header c (oneLine_of_isIdentifier hname))
    (reads_declaration c hname rfl hports) (fun ts => rfl) (holdsItems_decoderBody hl)

end config

end MemoryCompiler.Rtl
