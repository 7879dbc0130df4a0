import MemoryCompiler.Proofs.Rtl.DecoderCircuit

/-!
# The generated encoder and decoder implement the code

The text of the two modules is read as a circuit, and the circuit is compared with the arithmetic of the
code on every data word and on every received word (`ecc_text_refines_code`).
-/

namespace MemoryCompiler.Rtl

open Ecc (ofBits wordBits)

/-- A circuit that encodes: driven once and settled on the code word for every data word. -/
structure Encodes (m : Verilog.Module) (l : Ecc.Layout) (w : Nat) : Prop where
  check_driven : ∀ i < l.hammingBits, m.drivers "check" i = 1
  code_driven : ∀ i < w + l.hammingBits + 1, m.drivers "code_o" i = 1
  settles : ∀ data : Int, ∃ σ, m.Solution σ ∧ σ "data_i" = wordBits w data
  code : ∀ (data : Int) σ, m.Solution σ → σ "data_i" = wordBits w data →
    (σ "code_o").length = w + l.hammingBits + 1 ∧ (ofBits (σ "code_o") : Int) = l.encode data

/-- A circuit that decodes: driven once and settled on what the decoder says of every received word. -/
structure Decodes (m : Verilog.Module) (l : Ecc.Layout) (w : Nat) : Prop where
  check_driven : ∀ i < l.hammingBits, m.drivers "check" i = 1
  syndrome_driven : ∀ i < l.hammingBits, m.drivers "syndrome" i = 1
  data_driven : ∀ j < w, m.drivers "data_o" j = 1
  correctable_driven : m.drivers "correctable_o" 0 = 1
  uncorrectable_driven : m.drivers "uncorrectable_o" 0 = 1
  settles : ∀ code : Int, ∃ σ, m.Solution σ ∧ σ "code_i" = wordBits (w + l.hammingBits + 1) code
  decoded : ∀ (code : Int) σ, m.Solution σ → σ "code_i" = wordBits (w + l.hammingBits + 1) code →
    (σ "data_o").length = w ∧ (ofBits (σ "data_o") : Int) = (l.decode code).data ∧
      σ "correctable_o" = [(l.decode code).correctable] ∧
      σ "uncorrectable_o" = [(l.decode code).uncorrectable]

section source

variable {c : Config} {l : Ecc.Layout} {r : Nat}

theorem encodes_encoderSource (hecc : c.eccLayout = some l) (hl : l.Extended c.width r) :
    Encodes (encoderSource c l) l c.width where
  check_driven := by
    rw [hl.hammingBits]
    exact (drivers_encoder hl).1
  code_driven := fun i _ => (drivers_encoder hl).2 i
  settles := fun data => by
    refine ⟨fun x => if x = "data_i" then wordBits c.width data
      else if x = "check" then Ecc.checkList l (wordBits c.width data)
      else Ecc.encodeList l (wordBits c.width data), ?_, rfl⟩
    exact (solution_encoder_iff hecc hl).2 ⟨Ecc.length_wordBits c.width data, rfl, rfl⟩
  code := fun data σ h hdata => by
    obtain ⟨-, -, hcode⟩ := (solution_encoder_iff hecc hl).1 h
    rw [hdata] at hcode
    rw [hl.hammingBits, hcode, Ecc.encode_wordBits hl data, Ecc.encodeList, List.length_append,
      List.length_append, Ecc.length_wordBits, Ecc.length_checkList hl]
    exact ⟨rfl, rfl⟩

theorem decodes_decoderSource (hecc : c.eccLayout = some l) (hl : l.Extended c.width r) :
    Decodes (decoderSource c l) l c.width where
  check_driven := by
    rw [hl.hammingBits]
    exact (drivers_decoder hl).1
  syndrome_driven := by
    rw [hl.hammingBits]
    exact (drivers_decoder hl).2.1
  data_driven := (drivers_decoder hl).2.2.1
  correctable_driven := (drivers_decoder hl).2.2.2.1
  uncorrectable_driven := (drivers_decoder hl).2.2.2.2
  settles := fun code => by
    rw [hl.hammingBits]
    generalize hbs : wordBits (c.width + r + 1) code = bs
    refine ⟨fun x => if x = "code_i" then bs
      else if x = "data" then bs.take c.width
      else if x = "check" then (bs.drop c.width).take r
      else if x = "syndrome" then Ecc.syndromeList l c.width r bs
      else if x = "uncorrectable_o" then
        [!Ecc.xorAll bs && (Ecc.syndromeList l c.width r bs).any id]
      else if x = "data_o" then Ecc.correctList l c.width r bs
      else [Ecc.xorAll bs], ?_, rfl⟩
    refine (solution_decoder_iff hecc hl).2 ⟨?_, rfl, rfl, rfl, rfl, rfl, rfl, rfl⟩
    show bs.length = _
    rw [← hbs, Ecc.length_wordBits]
  decoded := fun code σ h hcode => by
    have hnets := (solution_decoder_iff hecc hl).1 h
    have hw := hnets.widths hl
    rw [hl.hammingBits] at hcode
    rw [Ecc.decode_wordBits hl code hcode, ← hnets.corrected, ← hnets.correctable,
      ← hnets.uncorrectable]
    exact ⟨hw.corrected, rfl, rfl, rfl⟩

/-! ### All texts of a design -/

theorem exists_moduleText (hecc : c.eccLayout = some l) (m : Module) :
    ∃ text, c.design.moduleText m = .ok text := by
  have hbody : ∃ body, bodyLines c.design m = .ok body := by
    have hlayout := layoutFor_design hecc m
    rw [bodyLines]
    cases m.role
    · exact ⟨_, rfl⟩
    · exact ⟨_, rfl⟩
    · exact ⟨_, rfl⟩
    · exact ⟨_, rfl⟩
    · exact ⟨encoderBody l, by rw [hlayout]; rfl⟩
    · exact ⟨decoderBody l, by rw [hlayout]; rfl⟩
  obtain ⟨body, hbody⟩ := hbody
  exact ⟨_, by rw [Design.moduleText, hbody]; rfl⟩

theorem artifacts_of_forall {d : Design} (h : ∀ m ∈ d.modules, ∃ text, d.moduleText m = .ok text) :
    ∃ artifacts, d.artifacts = .ok artifacts ∧
      (artifacts.map Artifact.name = d.modules.map fun m => m.name ++ ".v") ∧
      ∀ m ∈ d.modules, ∀ text, d.moduleText m = .ok text →
        (⟨m.name ++ ".v", m.name, text⟩ : Artifact) ∈ artifacts := by
  rw [Design.artifacts]
  generalize d.modules = ms at h
  induction ms with
  | nil => exact ⟨[], rfl, rfl, fun m hm => absurd hm List.not_mem_nil⟩
  | cons m ms ih =>
    obtain ⟨text, htext⟩ := h m List.mem_cons_self
    obtain ⟨artifacts, hrest, hnames, hmem⟩ := ih fun n hn => h n (List.mem_cons_of_mem m hn)
    refine ⟨⟨m.name ++ ".v", m.name, text⟩ :: artifacts, ?_, ?_, ?_⟩
    · rw [List.mapM_cons, hrest, htext]
      rfl
    · rw [List.map_cons, List.map_cons, hnames]
    · intro n hn text' htext'
      rcases List.mem_cons.1 hn with rfl | hn
      · rw [htext] at htext'
        cases htext'
        exact List.mem_cons_self
      · exact List.mem_cons_of_mem _ (hmem n hn text' htext')

theorem exists_artifacts (hecc : c.eccLayout = some l) :
    ∃ artifacts, c.design.artifacts = .ok artifacts ∧
      ∀ m ∈ c.modules, ∀ text, c.design.moduleText m = .ok text →
        (⟨m.name ++ ".v", m.name, text⟩ : Artifact) ∈ artifacts := by
  obtain ⟨artifacts, hartifacts, -, hmem⟩ :=
    artifacts_of_forall (d := c.design) fun m _ => exists_moduleText hecc m
  exact ⟨artifacts, hartifacts, hmem⟩

end source

/-- Some file of a module is read as this circuit. -/
def ReadAs (artifacts : List Artifact) (name : String) (m : Verilog.Module) : Prop :=
  ∃ a ∈ artifacts, a.moduleName = name ∧ Verilog.read a.text = some m

/-- **The generated text implements the code.** With error correction on, the files of encoder and
decoder are read as circuits in which everything is driven once. Encoder and decoder settle for every
word, on the code word of the data and on what the decoder says of a received word, near to a code word
or not. -/
theorem ecc_text_refines_code (c : Config) (hecc : c.eccEnable = true) (hpos : 1 ≤ c.width)
    (hmax : c.width ≤ 2 ^ 30) :
    ∃ artifacts encoder decoder, c.design.artifacts = .ok artifacts ∧
      ReadAs artifacts c.eccEncoder.name encoder ∧ ReadAs artifacts c.eccDecoder.name decoder ∧
      Encodes encoder (Ecc.Layout.ofWidth c.width) c.width ∧
      Decodes decoder (Ecc.Layout.ofWidth c.width) c.width := by
  have hl := Ecc.extended_ofWidth hpos (by omega : c.width < 2 ^ 52)
  have hlayout : c.eccLayout = some (Ecc.Layout.ofWidth c.width) := by
    rw [Config.eccLayout, if_pos hecc]
  obtain ⟨artifacts, hartifacts, hmem⟩ := exists_artifacts hlayout
  obtain ⟨encoderText, hencoder, hreadEncoder⟩ := read_encoder hlayout hl
  obtain ⟨decoderText, hdecoder, hreadDecoder⟩ := read_decoder hlayout hl
  have hmodules : c.eccEncoder ∈ c.modules ∧ c.eccDecoder ∈ c.modules := by
    simp [Config.modules, hecc]
  exact ⟨artifacts, _, _, hartifacts, ⟨_, hmem _ hmodules.1 _ hencoder, rfl, hreadEncoder⟩,
    ⟨_, hmem _ hmodules.2 _ hdecoder, rfl, hreadDecoder⟩, encodes_encoderSource hlayout hl,
    decodes_decoderSource hlayout hl⟩

/-- A memory of four bits a word. -/
def nibbleConfig : Config where
  depth := 16
  width := 4
  banks := 1
  voltage := 1.0
  processNode := 65
  powerGating := false
  clockGating := false
  retentionMode := false
  eccEnable := true

theorem ecc_text_refines_code_four :
    nibbleConfig.eccEnable = true ∧ 1 ≤ nibbleConfig.width ∧ nibbleConfig.width ≤ 2 ^ 30 ∧
      ∃ artifacts encoder decoder, nibbleConfig.design.artifacts = .ok artifacts ∧
        ReadAs artifacts nibbleConfig.eccEncoder.name encoder ∧
        ReadAs artifacts nibbleConfig.eccDecoder.name decoder ∧
        Encodes encoder (Ecc.Layout.ofWidth nibbleConfig.width) nibbleConfig.width ∧
        Decodes decoder (Ecc.Layout.ofWidth nibbleConfig.width) nibbleConfig.width :=
  ⟨rfl, by decide, by decide, ecc_text_refines_code nibbleConfig rfl (by decide) (by decide)⟩

end MemoryCompiler.Rtl
