import MemoryCompiler.Proofs.Rtl.EncoderCircuit

/-!
# What the decoder computes

The equations of the decoder have one solution for every received word: `solution_decoder_iff` gives
the bits of each net.
-/

namespace MemoryCompiler.Rtl

open Verilog (Drive Expr Valuation bitDrives eval_net eval_bit eval_sumOf sumOf)
open Ecc (xorAll checkList syndromeList correctList)

section circuit

variable {c : Config} {l : Ecc.Layout} {r : Nat} {σ : Valuation}

/-! ### The decoder -/

def syndromeDrives (l : Ecc.Layout) : List Drive :=
  bitDrives "syndrome" l.coverage fun i covered =>
    sumOf (.bit "check" (.literal i) :: covered.map fun j => .bit "data" (.literal j))

/-- The drives of the corrected data bits. -/
def correctionDrives (l : Ecc.Layout) : List Drive :=
  bitDrives "data_o" l.positions fun j position => .xor (.bit "data" (.literal j))
    (.and (.net "parity_err") (.equal (.net "syndrome") (.literal l.hammingBits position)))

theorem declared_decoder :
    (decoderSource c l).declared =
      [("code_i", paramRange "CODE_WIDTH"), ("data_o", paramRange "DATA_WIDTH"),
        ("correctable_o", none), ("uncorrectable_o", none), ("data", paramRange "DATA_WIDTH"),
        ("check", some (.literal (l.hammingBits - 1), .literal 0)),
        ("syndrome", some (.literal (l.hammingBits - 1), .literal 0)), ("parity_err", none)] := by
  rw [Verilog.Module.declared, decoderSource, decoderItems, List.filterMap_append,
    List.filterMap_append, List.filterMap_append, syndromeItems, correctionItems,
    Verilog.filterMap_declared?_mapIdx, Verilog.filterMap_declared?_mapIdx]
  rfl

theorem drives_decoder :
    (decoderSource c l).drives =
      [⟨"data", none, .range "code_i" (.minus (.parameter "DATA_WIDTH") (.literal 1)) (.literal 0)⟩,
          ⟨"check", none, .slice "code_i" (.parameter "DATA_WIDTH") (.literal l.hammingBits)⟩,
          ⟨"parity_err", none, .reduceXor (.net "code_i")⟩] ++ syndromeDrives l ++
        [⟨"correctable_o", none, .net "parity_err"⟩,
          ⟨"uncorrectable_o", none, .and (.not (.net "parity_err")) (.reduceOr (.net "syndrome"))⟩] ++
        correctionDrives l := by
  rw [Verilog.Module.drives, decoderSource, decoderItems, List.filterMap_append,
    List.filterMap_append, List.filterMap_append, syndromeItems, correctionItems,
    Verilog.filterMap_drive?_mapIdx, Verilog.filterMap_drive?_mapIdx]
  rfl

/-- The widths of the nets of the decoder. -/
structure DecoderWidths (w r : Nat) (σ : Valuation) : Prop where
  code : (σ "code_i").length = w + r + 1
  data : (σ "data").length = w
  check : (σ "check").length = r
  parity : (σ "parity_err").length = 1
  syndrome : (σ "syndrome").length = r
  correctable : (σ "correctable_o").length = 1
  uncorrectable : (σ "uncorrectable_o").length = 1
  corrected : (σ "data_o").length = w

/-- The bits of the nets of the decoder, all of them given by the received word. -/
structure DecoderNets (l : Ecc.Layout) (w r : Nat) (σ : Valuation) : Prop where
  code : (σ "code_i").length = w + r + 1
  data : σ "data" = (σ "code_i").take w
  check : σ "check" = ((σ "code_i").drop w).take r
  parity : σ "parity_err" = [xorAll (σ "code_i")]
  syndrome : σ "syndrome" = syndromeList l w r (σ "code_i")
  correctable : σ "correctable_o" = [xorAll (σ "code_i")]
  uncorrectable : σ "uncorrectable_o" =
    [!xorAll (σ "code_i") && (syndromeList l w r (σ "code_i")).any id]
  corrected : σ "data_o" = correctList l w r (σ "code_i")

theorem width?_decoder (hecc : c.eccLayout = some l) (hl : l.Extended c.width r) :
    (decoderSource c l).width? "code_i" = some (c.width + r + 1) ∧
      (decoderSource c l).width? "data" = some c.width ∧
      (decoderSource c l).width? "check" = some r ∧
      (decoderSource c l).width? "parity_err" = some 1 ∧
      (decoderSource c l).width? "syndrome" = some r ∧
      (decoderSource c l).width? "correctable_o" = some 1 ∧
      (decoderSource c l).width? "uncorrectable_o" = some 1 ∧
      (decoderSource c l).width? "data_o" = some c.width := by
  have hdata := rangeWidth_data (decoderSource c l) rfl hl
  have hcode := rangeWidth_code (decoderSource c l) rfl hecc hl
  have hcheck := rangeWidth_literal (decoderSource c l) hl.hammingBits_pos
  simp only [Verilog.Module.width?, declared_decoder, hl.hammingBits]
  exact ⟨hcode, hdata, hcheck, rfl, hcheck, rfl, rfl, hdata⟩

theorem widths_of_solution (hecc : c.eccLayout = some l) (hl : l.Extended c.width r)
    (h : (decoderSource c l).Solution σ) : DecoderWidths c.width r σ := by
  obtain ⟨hcode, hdata, hcheck, hparity, hsyndrome, hok, hbad, hcorrected⟩ := width?_decoder hecc hl
  exact ⟨h.width _ _ hcode, h.width _ _ hdata, h.width _ _ hcheck, h.width _ _ hparity,
    h.width _ _ hsyndrome, h.width _ _ hok, h.width _ _ hbad, h.width _ _ hcorrected⟩

theorem DecoderNets.widths (hl : l.Extended c.width r) (h : DecoderNets l c.width r σ) :
    DecoderWidths c.width r σ where
  code := h.code
  data := by
    rw [h.data, List.length_take, h.code]
    omega
  check := by
    rw [h.check, List.length_take, List.length_drop, h.code]
    omega
  parity := by rw [h.parity, List.length_singleton]
  syndrome := by rw [h.syndrome, Ecc.length_syndromeList hl h.code]
  correctable := by rw [h.correctable, List.length_singleton]
  uncorrectable := by rw [h.uncorrectable, List.length_singleton]
  corrected := by
    rw [h.corrected, correctList, List.length_mapIdx, List.length_take, h.code]
    omega

/-! ### One drive after the other -/

section drives

variable (hecc : c.eccLayout = some l) (hl : l.Extended c.width r)

include hecc hl

theorem holds_parity_iff :
    (decoderSource c l).Holds σ ⟨"parity_err", none, .reduceXor (.net "code_i")⟩ ↔
      σ "parity_err" = [xorAll (σ "code_i")] := by
  obtain ⟨hcode, -⟩ := width?_decoder hecc hl
  show (decoderSource c l).eval σ _ = some (σ "parity_err") ↔ _
  rw [Verilog.eval_reduceXor (eval_net hcode), Option.some.injEq, eq_comm]
  rfl

theorem holds_correctable_iff :
    (decoderSource c l).Holds σ ⟨"correctable_o", none, .net "parity_err"⟩ ↔
      σ "correctable_o" = σ "parity_err" := by
  obtain ⟨-, -, -, hparity, -⟩ := width?_decoder hecc hl
  show (decoderSource c l).eval σ _ = some (σ "correctable_o") ↔ _
  rw [eval_net hparity, Option.some.injEq, eq_comm]

variable (hw : DecoderWidths c.width r σ)

include hw

theorem holds_data_iff :
    (decoderSource c l).Holds σ ⟨"data", none,
        .range "code_i" (.minus (.parameter "DATA_WIDTH") (.literal 1)) (.literal 0)⟩ ↔
      σ "data" = (σ "code_i").take c.width := by
  obtain ⟨hcode, -⟩ := width?_decoder hecc hl
  have hpos := width_pos hl
  have hlen := hw.code
  have hhigh : (decoderSource c l).constant (.minus (.parameter "DATA_WIDTH") (.literal 1)) =
      some (c.width - 1) := constant_minus_one rfl hpos
  have heval : (decoderSource c l).eval σ
      (.range "code_i" (.minus (.parameter "DATA_WIDTH") (.literal 1)) (.literal 0)) =
      some ((σ "code_i").take c.width) := by
    rw [Verilog.Module.eval, Verilog.Module.bits?, hcode, hhigh]
    show (if 0 ≤ c.width - 1 ∧ c.width - 1 < (σ "code_i").length then
      some (((σ "code_i").drop 0).take (c.width - 1 + 1 - 0)) else none) = _
    rw [if_pos ⟨Nat.zero_le _, by omega⟩, List.drop_zero, Nat.sub_zero, Nat.sub_add_cancel hpos]
  show (decoderSource c l).eval σ _ = some (σ "data") ↔ _
  rw [heval, Option.some.injEq, eq_comm]

theorem holds_check_iff :
    (decoderSource c l).Holds σ ⟨"check", none,
        .slice "code_i" (.parameter "DATA_WIDTH") (.literal l.hammingBits)⟩ ↔
      σ "check" = ((σ "code_i").drop c.width).take r := by
  obtain ⟨hcode, -⟩ := width?_decoder hecc hl
  have hpos := hl.hammingBits_pos
  have hlen := hw.code
  have heval : (decoderSource c l).eval σ
      (.slice "code_i" (.parameter "DATA_WIDTH") (.literal l.hammingBits)) =
      some (((σ "code_i").drop c.width).take r) := by
    rw [hl.hammingBits, Verilog.Module.eval, Verilog.Module.bits?, hcode]
    show (if 0 < r ∧ c.width + r ≤ (σ "code_i").length then
      some (((σ "code_i").drop c.width).take r) else none) = _
    rw [if_pos ⟨hpos, by omega⟩]
  show (decoderSource c l).eval σ _ = some (σ "check") ↔ _
  rw [heval, Option.some.injEq, eq_comm]

theorem holds_syndrome_iff :
    (∀ d ∈ syndromeDrives l, (decoderSource c l).Holds σ d) ↔
      σ "syndrome" = List.zipWith xor (σ "check") (checkList l (σ "data")) := by
  obtain ⟨-, hdata, hcheck, -⟩ := width?_decoder hecc hl
  have hcover : l.coverage.length = r := by
    rw [hl.coverage, List.length_map, List.length_range]
  have hlist : List.zipWith xor (σ "check") (checkList l (σ "data")) =
      l.coverage.mapIdx fun i covered =>
        xorAll ((σ "check").getD i false :: covered.map fun j => (σ "data").getD j false) := by
    have hlen : (List.zipWith xor (σ "check") (checkList l (σ "data"))).length =
        (l.coverage.mapIdx fun i covered =>
          xorAll ((σ "check").getD i false :: covered.map fun j => (σ "data").getD j false)).length := by
      rw [List.length_zipWith, Ecc.length_checkList hl, hw.check, List.length_mapIdx, hcover, Nat.min_self]
    apply List.ext_getElem hlen
    intro i hi hi'
    rw [List.length_mapIdx, hcover] at hi'
    rw [List.getElem_zipWith, List.getElem_mapIdx, List.getD_eq_getElem?_getD,
      List.getElem?_eq_getElem (by rw [hw.check]; exact hi')]
    simp only [checkList, List.getElem_map]
    rfl
  rw [hlist]
  refine Verilog.holds_bitDrives_iff (hw.syndrome.trans hcover.symm) fun i covered hi => ?_
  have hir : i < (σ "check").length := by
    rw [hw.check, ← hcover]
    exact (List.getElem?_eq_some_iff.1 hi).1
  refine eval_sumOf (List.cons_ne_nil _ _) ?_
  rw [List.map_cons, List.map_cons, eval_covered hdata (hw.data.trans hl.length_positions.symm) hl hi,
    eval_bit hcheck, List.getElem?_eq_getElem hir, List.getD_eq_getElem?_getD,
    List.getElem?_eq_getElem hir]
  rfl

theorem holds_uncorrectable_iff :
    (decoderSource c l).Holds σ ⟨"uncorrectable_o", none,
        .and (.not (.net "parity_err")) (.reduceOr (.net "syndrome"))⟩ ↔
      σ "uncorrectable_o" = [!(σ "parity_err").getD 0 false && (σ "syndrome").any id] := by
  obtain ⟨-, -, -, hparity, hsyndrome, -⟩ := width?_decoder hecc hl
  obtain ⟨p, hp⟩ := List.length_eq_one_iff.1 hw.parity
  have hodd : (decoderSource c l).eval σ (.not (.net "parity_err")) = some [!p] := by
    rw [Verilog.eval_not (eval_net hparity), hp]
    rfl
  have heval := Verilog.eval_and hodd (Verilog.eval_reduceOr (eval_net hsyndrome))
  show (decoderSource c l).eval σ _ = some (σ "uncorrectable_o") ↔ _
  rw [heval, Option.some.injEq, eq_comm, hp]
  rfl

theorem holds_corrections_iff :
    (∀ d ∈ correctionDrives l, (decoderSource c l).Holds σ d) ↔
      σ "data_o" = l.positions.mapIdx fun j position => (σ "data").getD j false ^^
        ((σ "parity_err").getD 0 false &&
          decide (σ "syndrome" = (List.range r).map position.testBit)) := by
  obtain ⟨-, hdata, -, hparity, hsyndrome, -⟩ := width?_decoder hecc hl
  obtain ⟨p, hp⟩ := List.length_eq_one_iff.1 hw.parity
  refine Verilog.holds_bitDrives_iff (hw.corrected.trans hl.length_positions.symm)
    fun j position hj => ?_
  have hjw : j < (σ "data").length := by
    rw [hw.data, ← hl.length_positions]
    exact (List.getElem?_eq_some_iff.1 hj).1
  have hlen : (σ "syndrome").length = ((List.range r).map position.testBit).length := by
    rw [hw.syndrome, List.length_map, List.length_range]
  have hliteral : (decoderSource c l).eval σ (.literal l.hammingBits position) =
      some ((List.range r).map position.testBit) := by
    rw [hl.hammingBits, Verilog.Module.eval]
  have hodd : (decoderSource c l).eval σ (.net "parity_err") = some [p] := by
    rw [eval_net hparity, hp]
  have hbit : (decoderSource c l).eval σ (.bit "data" (.literal j)) = some [(σ "data")[j]] := by
    rw [eval_bit hdata, List.getElem?_eq_getElem hjw, Option.map_some]
  rw [Verilog.eval_xor hbit (Verilog.eval_and hodd (Verilog.eval_equal (eval_net hsyndrome) hliteral
    hlen)), hp, List.getD_eq_getElem?_getD, List.getElem?_eq_getElem hjw]
  rfl

end drives

/-- **The decoder settles on what the received word says**, and on nothing else. -/
theorem solution_decoder_iff (hecc : c.eccLayout = some l) (hl : l.Extended c.width r) :
    (decoderSource c l).Solution σ ↔ DecoderNets l c.width r σ := by
  constructor
  · intro h
    have hw := widths_of_solution hecc hl h
    have hholds := h.holds
    rw [drives_decoder] at hholds
    simp only [List.forall_mem_append, List.forall_mem_cons] at hholds
    obtain ⟨⟨⟨⟨hdata, hcheck, hparity, -⟩, hsyndrome⟩, hok, hbad, -⟩, hcorrected⟩ := hholds
    rw [holds_data_iff hecc hl hw] at hdata
    rw [holds_check_iff hecc hl hw] at hcheck
    rw [holds_parity_iff hecc hl] at hparity
    rw [holds_syndrome_iff hecc hl hw, hcheck, hdata] at hsyndrome
    rw [holds_correctable_iff hecc hl, hparity] at hok
    rw [holds_uncorrectable_iff hecc hl hw, hparity, hsyndrome] at hbad
    rw [holds_corrections_iff hecc hl hw, hparity, hsyndrome, hdata] at hcorrected
    exact ⟨hw.code, hdata, hcheck, hparity, hsyndrome, hok, hbad,
      hcorrected.trans (Ecc.correctList_eq_mapIdx_positions hl hw.code).symm⟩
  · intro h
    have hw := h.widths hl
    refine ⟨Verilog.width_of_declared ?_, ?_⟩
    · have hrdata := rangeWidth_data (decoderSource c l) rfl hl
      have hrcode := rangeWidth_code (decoderSource c l) rfl hecc hl
      have hrcheck := rangeWidth_literal (decoderSource c l) hl.hammingBits_pos
      have hrbit : (decoderSource c l).rangeWidth none = some 1 := rfl
      rw [declared_decoder, hl.hammingBits]
      simp only [List.forall_mem_cons]
      exact ⟨hrcode.trans (by rw [hw.code]), hrdata.trans (by rw [hw.corrected]),
        hrbit.trans (by rw [hw.correctable]), hrbit.trans (by rw [hw.uncorrectable]),
        hrdata.trans (by rw [hw.data]), hrcheck.trans (by rw [hw.check]),
        hrcheck.trans (by rw [hw.syndrome]), hrbit.trans (by rw [hw.parity]),
        fun _ hp => absurd hp List.not_mem_nil⟩
    · rw [drives_decoder]
      simp only [List.forall_mem_append, List.forall_mem_cons]
      refine ⟨⟨⟨⟨?_, ?_, ?_, fun _ hd => absurd hd List.not_mem_nil⟩, ?_⟩, ?_, ?_,
        fun _ hd => absurd hd List.not_mem_nil⟩, ?_⟩
      · exact (holds_data_iff hecc hl hw).2 h.data
      · exact (holds_check_iff hecc hl hw).2 h.check
      · exact (holds_parity_iff hecc hl).2 h.parity
      · rw [holds_syndrome_iff hecc hl hw, h.syndrome, h.check, h.data]
        rfl
      · rw [holds_correctable_iff hecc hl, h.correctable, h.parity]
      · rw [holds_uncorrectable_iff hecc hl hw, h.uncorrectable, h.parity, h.syndrome]
        rfl
      · rw [holds_corrections_iff hecc hl hw, h.corrected, h.parity, h.syndrome, h.data]
        exact Ecc.correctList_eq_mapIdx_positions hl hw.code

theorem drivers_decoder (hl : l.Extended c.width r) :
    (∀ i < r, (decoderSource c l).drivers "check" i = 1) ∧
      (∀ i < r, (decoderSource c l).drivers "syndrome" i = 1) ∧
      (∀ j < c.width, (decoderSource c l).drivers "data_o" j = 1) ∧
      (decoderSource c l).drivers "correctable_o" 0 = 1 ∧
      (decoderSource c l).drivers "uncorrectable_o" 0 = 1 := by
  have hcover : l.coverage.length = r := by
    rw [hl.coverage, List.length_map, List.length_range]
  simp only [Verilog.Module.drivers, drives_decoder, List.countP_append, syndromeDrives, correctionDrives]
  refine ⟨fun i _ => ?_, fun i hi => ?_, fun j hj => ?_, ?_, ?_⟩
  · rw [Verilog.countP_bitDrives_of_ne (by decide), Verilog.countP_bitDrives_of_ne (by decide)]
    rfl
  · rw [Verilog.countP_bitDrives _ (hcover.symm ▸ hi), Verilog.countP_bitDrives_of_ne (by decide)]
    rfl
  · rw [Verilog.countP_bitDrives _ (hl.length_positions.symm ▸ hj),
      Verilog.countP_bitDrives_of_ne (by decide)]
    rfl
  · rw [Verilog.countP_bitDrives_of_ne (by decide), Verilog.countP_bitDrives_of_ne (by decide)]
    rfl
  · rw [Verilog.countP_bitDrives_of_ne (by decide), Verilog.countP_bitDrives_of_ne (by decide)]
    rfl

end circuit

end MemoryCompiler.Rtl
