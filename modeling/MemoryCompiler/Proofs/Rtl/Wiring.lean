import MemoryCompiler.Proofs.Rtl.WellFormed

/-!
# The wiring of a design

Every configuration has a well-formed design (`design_wellFormed`), whatever its geometry and its
features. The names of a module are picked from a fixed list of different identifiers, so the lists of
ports and nets can be searched without looking at the features, and what a module drives is compared
with its nets and outputs as a whole.
-/

namespace MemoryCompiler

namespace Config

open Rtl

section features

variable {α : Type} {p : Prop} [Decidable p] {l : List α}

theorem ite_sublist : (if p then l else []).Sublist l := by
  split_ifs
  · exact List.Sublist.refl l
  · exact List.nil_sublist l

theorem forall_mem_ite {P : α → Prop} : (∀ a ∈ (if p then l else []), P a) ↔ (p → ∀ a ∈ l, P a) := by
  split_ifs with h
  · exact ⟨fun hl _ => hl, fun hl => hl h⟩
  · exact ⟨fun _ hp => absurd hp h, fun _ _ ha => absurd ha List.not_mem_nil⟩

end features

variable (c : Config)

/-! ### The modules -/

theorem nodup_modules : (c.modules.map Module.name).Nodup := by
  have hall : ([c.topModule, c.coreModule] ++ [c.powerWrapper] ++ [c.clockGate] ++
      [c.eccEncoder, c.eccDecoder]).map Module.name =
      ["", "_core", "_pg_wrap", "_cg", "_ecc_enc", "_ecc_dec"].map (c.baseName ++ ·) := by
    show _ = (c.baseName ++ "") :: _
    rw [String.append_empty]
    rfl
  have hpicked : (c.modules.map Module.name).Sublist
      (["", "_core", "_pg_wrap", "_cg", "_ecc_enc", "_ecc_dec"].map (c.baseName ++ ·)) := by
    rw [← hall, modules]
    exact ((((List.Sublist.refl _).append ite_sublist).append ite_sublist).append ite_sublist).map _
  exact hpicked.nodup (List.Nodup.map (fun _ _ => (String.append_right_inj _).1) (by decide))

theorem coreModule_mem : c.coreModule ∈ c.modules := by
  simp [modules]

theorem arrayModule_mem : c.arrayModule ∈ c.modules := by
  rw [arrayModule]
  split_ifs with h <;> simp [modules, h]

section memory

variable {c}

theorem clockGate_mem (h : c.clockGating = true) : c.clockGate ∈ c.modules := by
  simp [modules, h]

theorem eccEncoder_mem (h : c.eccEnable = true) : c.eccEncoder ∈ c.modules := by
  simp [modules, h]

theorem eccDecoder_mem (h : c.eccEnable = true) : c.eccDecoder ∈ c.modules := by
  simp [modules, h]

end memory

/-! ### Names -/

theorem wellNamed_coreModule : c.coreModule.WellNamed := by
  have hports : (c.coreModule.ports.map Port.name).Sublist
      ["clk", "ce", "we", "addr", "wdata", "rdata", "bank_en", "ret_en"] :=
    (((List.Sublist.refl _).append ite_sublist).append ite_sublist).map Port.name
  have hnames : c.coreModule.names.Sublist
      (["clk", "ce", "we", "addr", "wdata", "rdata", "bank_en", "ret_en"] ++ [] ++
        ["DEPTH", "ADDR_WIDTH", "CODE_WIDTH", "BANKS", "BANK_DEPTH"] ++ []) := by
    rw [Module.names, Module.map_fst_wires]
    exact ((hports.append (.refl _)).append (.refl _)).append (.refl _)
  exact .of_sublist hnames (by decide) (by decide)

theorem wellNamed_powerWrapper : c.powerWrapper.WellNamed := by
  have hports : (c.powerWrapper.ports.map Port.name).Sublist
      ["clk", "ce", "we", "addr", "wdata", "rdata", "sleep", "ret_en"] :=
    ((List.Sublist.refl _).append ite_sublist).map Port.name
  have hnames : c.powerWrapper.names.Sublist
      (["clk", "ce", "we", "addr", "wdata", "rdata", "sleep", "ret_en"] ++ ["bank_en"] ++
        ["DEPTH", "ADDR_WIDTH", "CODE_WIDTH", "BANKS", "BANK_DEPTH"] ++ ["u_core"]) := by
    rw [Module.names, Module.map_fst_wires]
    exact ((hports.append (.refl _)).append (.refl _)).append (.refl _)
  exact .of_sublist hnames (by decide) (by decide)

theorem wellNamed_arrayModule : c.arrayModule.WellNamed := by
  rw [arrayModule]
  split_ifs
  · exact c.wellNamed_powerWrapper
  · exact c.wellNamed_coreModule

theorem wellNamed_clockGate : c.clockGate.WellNamed := by
  have hnames : c.clockGate.names.Sublist ["clk", "en", "gclk"] := .refl _
  exact .of_sublist hnames (by decide) (by decide)

theorem wellNamed_eccEncoder : c.eccEncoder.WellNamed := by
  have hnames : c.eccEncoder.names.Sublist
      ["data_i", "code_o", "DATA_WIDTH", "CHECK_BITS", "CODE_WIDTH"] := .refl _
  exact .of_sublist hnames (by decide) (by decide)

theorem wellNamed_eccDecoder : c.eccDecoder.WellNamed := by
  have hnames : c.eccDecoder.names.Sublist ["code_i", "data_o", "correctable_o", "uncorrectable_o",
      "DATA_WIDTH", "CHECK_BITS", "CODE_WIDTH"] := .refl _
  exact .of_sublist hnames (by decide) (by decide)

theorem wellNamed_topModule : c.topModule.WellNamed := by
  have hports : (c.topModule.ports.map Port.name).Sublist
      ["clk", "ce", "we", "addr", "wdata", "rdata", "sleep", "ret_en", "ecc_correctable",
        "ecc_uncorrectable"] :=
    ((((List.Sublist.refl _).append ite_sublist).append ite_sublist).append
      ite_sublist).map Port.name
  have hnets : (c.topModule.nets.map Net.name).Sublist ["wcode", "rcode", "gclk"] :=
    ((List.Sublist.refl _).append ite_sublist).map Net.name
  have hparams : (c.topModule.params.map Param.name).Sublist
      ["DEPTH", "ADDR_WIDTH", "DATA_WIDTH", "CODE_WIDTH", "BANKS", "BANK_DEPTH", "CHECK_BITS"] :=
    ((List.Sublist.refl _).append ite_sublist).map Param.name
  have hinstances : (c.topModule.instances.map Instance.name).Sublist
      ["u_cg", "u_ecc_enc", if c.powerGating then "u_pg" else "u_core", "u_ecc_dec"] :=
    (((ite_sublist.append ite_sublist).append (.refl _)).append ite_sublist).map Instance.name
  have hnames := ((hports.append hnets).append hparams).append hinstances
  rw [← Module.map_fst_wires] at hnames
  refine .of_sublist hnames ?_ ?_
  · cases c.powerGating <;> decide
  · cases c.powerGating <;> decide

/-! ### Ranges -/

theorem arrayPorts_ranges {extra : List Port}
    (h : ∀ p ∈ extra, ∀ q, p.widthParam = some q → ⟨q, .whole p.width⟩ ∈ c.arrayParams) :
    ∀ p ∈ c.arrayPorts extra, ∀ q, p.widthParam = some q → ⟨q, .whole p.width⟩ ∈ c.arrayParams := by
  simp only [arrayPorts, List.forall_mem_append, forall_mem_ite]
  refine ⟨⟨?_, h⟩, ?_⟩
  · simp [input, inputBus, outputBus, arrayParams, wholeParam]
  · simp [input]

theorem topPorts_ranges :
    ∀ p ∈ c.topPorts, ∀ q, p.widthParam = some q → ⟨q, .whole p.width⟩ ∈ c.topParams := by
  simp only [topPorts, List.forall_mem_append, forall_mem_ite]
  simp [input, output, inputBus, outputBus, topParams, wholeParam]

theorem arrayPorts_directions {extra : List Port} (h : ∀ p ∈ extra, p.direction ≠ .inout) :
    ∀ p ∈ c.arrayPorts extra, p.direction ≠ .inout := by
  simp only [arrayPorts, List.forall_mem_append, forall_mem_ite]
  refine ⟨⟨?_, h⟩, ?_⟩
  · simp [input, inputBus, outputBus]
  · simp [input]

theorem topPorts_directions : ∀ p ∈ c.topPorts, p.direction ≠ .inout := by
  simp only [topPorts, List.forall_mem_append, forall_mem_ite]
  simp [input, output, inputBus, outputBus]

/-! ### Modules without an inside -/

theorem wellFormed_coreModule : c.coreModule.WellFormed c.design :=
  .of_leaf c.wellNamed_coreModule
    (c.arrayPorts_directions (by
      rw [forall_mem_ite]
      simp [inputBus]))
    (c.arrayPorts_ranges (by
      rw [forall_mem_ite]
      simp [inputBus, arrayParams, wholeParam]))
    rfl rfl rfl

theorem wellFormed_clockGate : c.clockGate.WellFormed c.design :=
  .of_leaf c.wellNamed_clockGate (by simp [clockGate, input, output]) (by simp [clockGate, input, output]) rfl rfl rfl

theorem wellFormed_eccEncoder : c.eccEncoder.WellFormed c.design :=
  .of_leaf c.wellNamed_eccEncoder (by simp [eccEncoder, inputBus, outputBus])
    (by simp [eccEncoder, eccParams, inputBus, outputBus, wholeParam]) rfl rfl rfl

theorem wellFormed_eccDecoder : c.eccDecoder.WellFormed c.design :=
  .of_leaf c.wellNamed_eccDecoder (by simp [eccDecoder, inputBus, outputBus, output])
    (by simp [eccDecoder, eccParams, inputBus, outputBus, output, wholeParam]) rfl rfl rfl

/-! ### Ports of the array -/

theorem arrayPorts_outputs {extra : List Port} (h : ∀ p ∈ extra, p.direction = .input) :
    (c.arrayPorts extra).filter (fun p => p.direction == .output) =
      [outputBus "rdata" c.codeWidth "CODE_WIDTH"] := by
  have hextra : extra.filter (fun p => p.direction == .output) = [] := by
    refine List.filter_eq_nil_iff.2 fun p hp => ?_
    rw [h p hp]
    decide
  have hret : (if c.retentionMode then [input "ret_en"] else []).filter
      (fun p => p.direction == .output) = [] := by
    split_ifs <;> rfl
  rw [arrayPorts, List.filter_append, List.filter_append, hextra, hret]
  rfl

theorem coreModule_outputs : c.coreModule.ports.filter (fun p => p.direction == .output) =
    [outputBus "rdata" c.codeWidth "CODE_WIDTH"] :=
  c.arrayPorts_outputs (by
    rw [forall_mem_ite]
    simp [inputBus])

theorem powerWrapper_outputs : c.powerWrapper.ports.filter (fun p => p.direction == .output) =
    [outputBus "rdata" c.codeWidth "CODE_WIDTH"] :=
  c.arrayPorts_outputs (by simp [inputBus])

theorem arrayModule_outputs : c.arrayModule.ports.filter (fun p => p.direction == .output) =
    [outputBus "rdata" c.codeWidth "CODE_WIDTH"] := by
  rw [arrayModule]
  split_ifs
  · exact c.powerWrapper_outputs
  · exact c.coreModule_outputs

/-! ### Power wrapper -/

def coreInstance (c : Config) : Instance where
  moduleName := c.coreModule.name
  name := "u_core"
  params := passParams c.coreModule.params
  connections := passPorts c.coreModule.ports

theorem mem_powerWrapper_wires (h : c.powerGating = true) :
    ∀ p ∈ c.coreModule.ports, (p.name, p.width) ∈ c.powerWrapper.wires := by
  rw [coreModule, if_pos h]
  simp only [arrayPorts, List.forall_mem_append, forall_mem_ite]
  refine ⟨⟨?_, ?_⟩, fun hret => ?_⟩
  · simp [Module.wires, powerWrapper, arrayPorts]
  · simp [Module.wires, powerWrapper, inputBus]
  · simp [Module.wires, powerWrapper, arrayPorts, hret]

theorem coreInstance_fits (h : c.powerGating = true) :
    c.coreInstance.Fits c.powerWrapper c.coreModule := by
  refine Instance.fits_of_forall₂ c.wellNamed_coreModule ?_
    (passParams_settings c.powerWrapper c.coreModule (List.Subset.refl _))
  rw [coreInstance, passPorts, List.forall₂_map_left_iff, List.forall₂_same]
  exact fun p hp => ⟨rfl, c.wellNamed_powerWrapper.carries (c.mem_powerWrapper_wires h p hp)⟩

theorem wellFormed_powerWrapper (h : c.powerGating = true) : c.powerWrapper.WellFormed c.design where
  named := c.wellNamed_powerWrapper
  directions := c.arrayPorts_directions (by simp [inputBus])
  port_ranges := c.arrayPorts_ranges (by simp [inputBus, arrayParams, wholeParam])
  net_ranges := by simp [powerWrapper, arrayParams, wholeParam]
  instances := by
    intro i hi
    rw [List.mem_singleton.1 hi]
    exact ⟨c.coreModule, c.coreModule_mem, rfl, c.coreInstance_fits h⟩
  assigns := by
    intro a ha
    rw [List.mem_singleton.1 ha]
    have hnamed := c.wellNamed_powerWrapper
    have hsleep : ("sleep", c.banks) ∈ c.powerWrapper.wires := by
      simp [Module.wires, powerWrapper, arrayPorts, inputBus]
    have hbank : ("bank_en", c.banks) ∈ c.powerWrapper.wires := by
      simp [Module.wires, powerWrapper]
    have htokens : Verilog.tokens "~sleep" = [.symbol '~', .word "sleep"] := by decide
    have hread : Verilog.readExpr "~sleep" = some (.not (.net "sleep")) := by
      rw [Verilog.readExpr, htokens]
      rfl
    have hnames : identifiers "~sleep" = ["sleep"] := by decide
    refine ⟨c.banks, hnamed.carries hbank, .of_read hread ?_ (hnamed.lookup_wires hsleep)⟩
    rw [hnames, List.forall_mem_singleton]
    exact List.mem_map_of_mem hsleep
  nets_read := by
    intro n hn
    rw [List.mem_singleton.1 hn]
    have hport : inputBus "bank_en" c.banks "BANKS" ∈ c.coreModule.ports := by
      simp [coreModule, arrayPorts, h]
    have hread : "bank_en" ∈ c.coreInstance.read c.coreModule :=
      Instance.mem_read_of_connections c.wellNamed_coreModule id rfl hport (by simp [inputBus])
        (c.wellNamed_coreModule.isIdentifier_port hport)
    exact mem_read_of_instance c.nodup_modules c.coreModule_mem List.mem_cons_self rfl hread

theorem drivenOnce_powerWrapper : c.powerWrapper.DrivenOnce c.design := by
  have hinstance : c.coreInstance.driven c.coreModule = ["rdata"] := by
    rw [Instance.driven_of_connections c.wellNamed_coreModule id rfl fun p hp =>
      c.wellNamed_coreModule.isIdentifier_port hp, coreModule_outputs]
    rfl
  have hdriven : c.powerWrapper.driven c.design = ["bank_en", "rdata"] := by
    show ["bank_en"] ++ (c.coreInstance.drivenIn c.design ++ []) = _
    rw [drivenIn_of_mem c.nodup_modules c.coreModule_mem rfl, hinstance]
    rfl
  have hsinks : c.powerWrapper.sinks = ["bank_en", "rdata"] := by
    rw [Module.sinks, powerWrapper_outputs]
    rfl
  exact Module.drivenOnce_of_perm c.wellNamed_powerWrapper (.of_eq (hdriven.trans hsinks.symm))

/-! ### Instances of the top level -/

theorem mem_topModule_wires :
    ("clk", 1) ∈ c.topModule.wires ∧ ("ce", 1) ∈ c.topModule.wires ∧ ("we", 1) ∈ c.topModule.wires ∧
      ("addr", c.addrWidth) ∈ c.topModule.wires ∧ ("wdata", c.width) ∈ c.topModule.wires ∧
      ("rdata", c.width) ∈ c.topModule.wires ∧ ("wcode", c.codeWidth) ∈ c.topModule.wires ∧
      ("rcode", c.codeWidth) ∈ c.topModule.wires := by
  simp [Module.wires, topModule, topPorts, topNets, input, inputBus, outputBus]

theorem mem_topModule_gclk (h : c.clockGating = true) : ("gclk", 1) ∈ c.topModule.wires := by
  simp [Module.wires, topModule, topNets, h]

theorem mem_topModule_ret_en (h : c.retentionMode = true) : ("ret_en", 1) ∈ c.topModule.wires := by
  simp [Module.wires, topModule, topPorts, input, h]

theorem mem_topModule_arrayPorts {extra : List Port}
    (h : ∀ p ∈ extra, (c.arrayWire p.name, p.width) ∈ c.topModule.wires) :
    ∀ p ∈ c.arrayPorts extra, (c.arrayWire p.name, p.width) ∈ c.topModule.wires := by
  obtain ⟨hclk, hce, hwe, haddr, -, -, hwcode, hrcode⟩ := c.mem_topModule_wires
  have hclock : (c.arrayWire "clk", 1) ∈ c.topModule.wires := by
    rw [arrayWire, if_pos rfl]
    split_ifs with hgated
    · exact c.mem_topModule_gclk hgated
    · exact hclk
  simp only [arrayPorts, List.forall_mem_append, List.forall_mem_cons, forall_mem_ite, List.not_mem_nil,
    IsEmpty.forall_iff, implies_true, and_true]
  exact ⟨⟨⟨hclock, hce, hwe, haddr, hwcode, hrcode⟩, h⟩, c.mem_topModule_ret_en⟩

theorem mem_topModule_arrayWire :
    ∀ p ∈ c.arrayModule.ports, (c.arrayWire p.name, p.width) ∈ c.topModule.wires := by
  rw [arrayModule]
  split_ifs with hpower
  · refine c.mem_topModule_arrayPorts ?_
    simp [Module.wires, topModule, topPorts, inputBus, arrayWire, hpower]
  · refine c.mem_topModule_arrayPorts ?_
    rw [if_neg hpower]
    exact fun _ hp => absurd hp List.not_mem_nil

theorem clockGateInstance_fits (h : c.clockGating = true) :
    c.clockGateInstance.Fits c.topModule c.clockGate := by
  have hnamed := c.wellNamed_topModule
  obtain ⟨hclk, hce, -⟩ := c.mem_topModule_wires
  have henable : c.topModule.Carries (if c.retentionMode then "ce & ~ret_en" else "ce") 1 := by
    split_ifs with hret
    · have hretain := c.mem_topModule_ret_en hret
      have htokens : Verilog.tokens "ce & ~ret_en" =
          [.word "ce", .symbol '&', .symbol '~', .word "ret_en"] := by decide
      have hread : Verilog.readExpr "ce & ~ret_en" =
          some (.and (.net "ce") (.not (.net "ret_en"))) := by
        rw [Verilog.readExpr, htokens]
        rfl
      have hnames : identifiers "ce & ~ret_en" = ["ce", "ret_en"] := by decide
      refine .of_read hread ?_
        (Verilog.width?_and (hnamed.lookup_wires hce) (hnamed.lookup_wires hretain))
      rw [hnames]
      simp only [List.forall_mem_cons, List.not_mem_nil, IsEmpty.forall_iff, implies_true, and_true]
      exact ⟨List.mem_map_of_mem hce, List.mem_map_of_mem hretain⟩
    · exact hnamed.carries hce
  refine Instance.fits_of_forall₂ c.wellNamed_clockGate ?_ fun s hs => absurd hs List.not_mem_nil
  exact .cons ⟨rfl, hnamed.carries hclk⟩ (.cons ⟨rfl, henable⟩
    (.cons ⟨rfl, hnamed.carries (c.mem_topModule_gclk h)⟩ .nil))

section ecc

variable {c} (h : c.eccEnable = true)

include h

theorem eccParams_subset : c.eccParams ⊆ c.topModule.params := by
  simp [topModule, topParams, eccParams, h]

theorem encoderInstance_fits : c.encoderInstance.Fits c.topModule c.eccEncoder := by
  have hnamed := c.wellNamed_topModule
  obtain ⟨-, -, -, -, hwdata, -, hwcode, -⟩ := c.mem_topModule_wires
  refine Instance.fits_of_forall₂ c.wellNamed_eccEncoder ?_
    (passParams_settings c.topModule c.eccEncoder (eccParams_subset h))
  exact .cons ⟨rfl, hnamed.carries hwdata⟩ (.cons ⟨rfl, hnamed.carries hwcode⟩ .nil)

theorem decoderInstance_fits : c.decoderInstance.Fits c.topModule c.eccDecoder := by
  have hnamed := c.wellNamed_topModule
  obtain ⟨-, -, -, -, -, hrdata, -, hrcode⟩ := c.mem_topModule_wires
  have hcorrectable : ("ecc_correctable", 1) ∈ c.topModule.wires := by
    simp [Module.wires, topModule, topPorts, output, h]
  have huncorrectable : ("ecc_uncorrectable", 1) ∈ c.topModule.wires := by
    simp [Module.wires, topModule, topPorts, output, h]
  refine Instance.fits_of_forall₂ c.wellNamed_eccDecoder ?_
    (passParams_settings c.topModule c.eccDecoder (eccParams_subset h))
  exact .cons ⟨rfl, hnamed.carries hrcode⟩ (.cons ⟨rfl, hnamed.carries hrdata⟩
    (.cons ⟨rfl, hnamed.carries hcorrectable⟩ (.cons ⟨rfl, hnamed.carries huncorrectable⟩ .nil)))

end ecc

theorem arrayInstance_fits : c.arrayInstance.Fits c.topModule c.arrayModule := by
  have hparams : c.arrayModule.params = c.arrayParams := by
    rw [arrayModule]
    split_ifs <;> rfl
  have hsubset : c.arrayModule.params ⊆ c.topModule.params := by
    rw [hparams]
    simp [topModule, topParams, arrayParams]
  refine Instance.fits_of_forall₂ c.wellNamed_arrayModule ?_ ?_
  · rw [arrayInstance, List.forall₂_map_left_iff, List.forall₂_same]
    exact fun p hp => ⟨rfl, c.wellNamed_topModule.carries (c.mem_topModule_arrayWire p hp)⟩
  · rw [arrayInstance, ← hparams]
    exact passParams_settings c.topModule c.arrayModule hsubset

/-! ### The top level -/

theorem arrayInstance_mem : c.arrayInstance ∈ c.topModule.instances := by
  simp [topModule]

theorem arrayWire_mem_read {p : Port} (hp : p ∈ c.arrayModule.ports) (hin : p.direction = .input) :
    c.arrayWire p.name ∈ c.topModule.read c.design := by
  have hread : c.arrayWire p.name ∈ c.arrayInstance.read c.arrayModule := by
    refine Instance.mem_read_of_connections c.wellNamed_arrayModule c.arrayWire rfl hp ?_ ?_
    · rw [hin]
      decide
    · exact c.wellNamed_topModule.isIdentifier_wire
        (List.mem_map_of_mem (c.mem_topModule_arrayWire p hp))
  exact mem_read_of_instance c.nodup_modules c.arrayModule_mem c.arrayInstance_mem rfl hread

theorem mem_arrayModule_ports : input "clk" ∈ c.arrayModule.ports ∧
    inputBus "wdata" c.codeWidth "CODE_WIDTH" ∈ c.arrayModule.ports := by
  rw [arrayModule]
  split_ifs <;> simp [powerWrapper, coreModule, arrayPorts]

theorem codeWidth_of_plain {c : Config} (h : ¬ c.eccEnable = true) : c.codeWidth = c.width := by
  rw [codeWidth, eccBits, eccLayout, if_neg h]
  rfl

theorem rcode_mem_read : "rcode" ∈ c.topModule.read c.design := by
  cases h : c.eccEnable with
  | false =>
    have hmem : (⟨"rdata", "rcode"⟩ : Assign) ∈ c.topModule.assigns := by
      simp [topModule, h]
    have hread : identifiers "rcode" = ["rcode"] := Verilog.identifiers_of_isIdentifier (by decide)
    refine List.mem_append_left _ (List.mem_flatMap.2 ⟨_, hmem, ?_⟩)
    rw [hread]
    exact List.mem_cons_self
  | true =>
    have hmem : c.decoderInstance ∈ c.topModule.instances := by
      simp [topModule, h]
    have hread : c.decoderInstance.read c.eccDecoder = ["rcode"] := rfl
    refine mem_read_of_instance c.nodup_modules (eccDecoder_mem h) hmem rfl ?_
    rw [hread]
    exact List.mem_cons_self

theorem wellFormed_topModule : c.topModule.WellFormed c.design where
  named := c.wellNamed_topModule
  directions := c.topPorts_directions
  port_ranges := c.topPorts_ranges
  net_ranges := by
    simp only [topModule, topNets, List.forall_mem_append, forall_mem_ite]
    simp [topParams, wholeParam]
  instances := by
    simp only [topModule, List.forall_mem_append, List.forall_mem_singleton, forall_mem_ite]
    refine ⟨⟨⟨fun h => ?_, fun h => ?_⟩, ?_⟩, fun h => ?_⟩
    · exact ⟨c.clockGate, clockGate_mem h, rfl, c.clockGateInstance_fits h⟩
    · exact ⟨c.eccEncoder, eccEncoder_mem h, rfl, encoderInstance_fits h⟩
    · exact ⟨c.arrayModule, c.arrayModule_mem, rfl, c.arrayInstance_fits⟩
    · exact ⟨c.eccDecoder, eccDecoder_mem h, rfl, decoderInstance_fits h⟩
  assigns := by
    have hnamed := c.wellNamed_topModule
    obtain ⟨-, -, -, -, hwdata, hrdata, hwcode, hrcode⟩ := c.mem_topModule_wires
    show ∀ a ∈ (if c.eccEnable = true then [] else _), _
    split_ifs with h
    · exact fun a ha => absurd ha List.not_mem_nil
    · rw [codeWidth_of_plain h] at hwcode hrcode
      simp only [List.forall_mem_cons, List.not_mem_nil, IsEmpty.forall_iff, implies_true, and_true]
      exact ⟨⟨c.width, hnamed.carries hwcode, hnamed.carries hwdata⟩,
        ⟨c.width, hnamed.carries hrdata, hnamed.carries hrcode⟩⟩
  nets_read := by
    obtain ⟨hclk, hwdata⟩ := c.mem_arrayModule_ports
    show ∀ n ∈ c.topNets, _
    simp only [topNets, List.forall_mem_append, List.forall_mem_cons, forall_mem_ite, List.not_mem_nil,
      IsEmpty.forall_iff, implies_true, and_true]
    refine ⟨⟨c.arrayWire_mem_read hwdata rfl, c.rcode_mem_read⟩, fun h => ?_⟩
    have hread := c.arrayWire_mem_read hclk rfl
    rwa [input, arrayWire, if_pos rfl, if_pos h] at hread

theorem driven_arrayInstance : c.arrayInstance.driven c.arrayModule = ["rcode"] := by
  rw [Instance.driven_of_connections c.wellNamed_arrayModule c.arrayWire rfl fun p hp =>
    c.wellNamed_topModule.isIdentifier_wire (List.mem_map_of_mem (c.mem_topModule_arrayWire p hp)),
    arrayModule_outputs]
  rfl

/-- What is driven in the top level: by assignments, or by encoder and decoder in their place. -/
theorem driven_topModule : c.topModule.driven c.design =
    (if c.eccEnable then [] else ["wcode", "rdata"]) ++
      ((if c.clockGating then ["gclk"] else []) ++ (if c.eccEnable then ["wcode"] else []) ++
        ["rcode"] ++ if c.eccEnable then ["rdata", "ecc_correctable", "ecc_uncorrectable"] else []) := by
  rw [Module.driven]
  congr 1
  · show (if c.eccEnable = true then [] else _).flatMap _ = _
    split_ifs <;> rfl
  · have hd : (c.design.modules.map Module.name).Nodup := c.nodup_modules
    rw [topModule, List.flatMap_append, List.flatMap_append, List.flatMap_append,
      flatMap_drivenIn_ite hd clockGate_mem rfl, flatMap_drivenIn_ite hd eccEncoder_mem rfl,
      flatMap_drivenIn_ite hd eccDecoder_mem rfl, List.flatMap_singleton,
      drivenIn_of_mem hd c.arrayModule_mem rfl, driven_arrayInstance]
    rfl

theorem sinks_topModule : c.topModule.sinks =
    ["wcode", "rcode"] ++ (if c.clockGating then ["gclk"] else []) ++
      (["rdata"] ++ if c.eccEnable then ["ecc_correctable", "ecc_uncorrectable"] else []) := by
  rw [Module.sinks]
  show (c.topNets.map _) ++ (c.topPorts.filter _).map _ = _
  rw [topNets, topPorts]
  cases c.powerGating <;> cases c.retentionMode <;> cases c.clockGating <;> cases c.eccEnable <;> rfl

theorem drivenOnce_topModule : c.topModule.DrivenOnce c.design := by
  refine Module.drivenOnce_of_perm c.wellNamed_topModule ?_
  rw [driven_topModule, sinks_topModule]
  cases c.eccEnable <;> cases c.clockGating <;> decide

/-- **Every configuration has a well-formed design.** -/
theorem design_wellFormed : c.design.WellFormed where
  distinct := c.nodup_modules
  modules := by
    show ∀ m ∈ c.modules, _
    simp only [modules, List.forall_mem_append, List.forall_mem_cons, forall_mem_ite, List.not_mem_nil,
      IsEmpty.forall_iff, implies_true, and_true]
    exact ⟨⟨⟨⟨c.wellFormed_topModule, c.wellFormed_coreModule⟩, c.wellFormed_powerWrapper⟩,
      fun _ => c.wellFormed_clockGate⟩, fun _ => ⟨c.wellFormed_eccEncoder, c.wellFormed_eccDecoder⟩⟩
  driven := by
    show ∀ m ∈ c.modules, _
    have hleaf : ∀ {m : Module}, m.role.isStructural = false →
        m.role.isStructural = true → m.DrivenOnce c.design := fun hfalse htrue => by
      rw [hfalse] at htrue
      exact absurd htrue Bool.false_ne_true
    simp only [modules, List.forall_mem_append, List.forall_mem_cons, forall_mem_ite, List.not_mem_nil,
      IsEmpty.forall_iff, implies_true, and_true]
    exact ⟨⟨⟨⟨fun _ => c.drivenOnce_topModule, hleaf rfl⟩, fun _ _ => c.drivenOnce_powerWrapper⟩,
      fun _ => hleaf rfl⟩, fun _ => ⟨hleaf rfl, hleaf rfl⟩⟩

end Config

end MemoryCompiler
