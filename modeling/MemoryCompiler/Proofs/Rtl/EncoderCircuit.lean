import MemoryCompiler.Proofs.Ecc.BitLists
import MemoryCompiler.Proofs.Rtl.EccText

/-!
# What the encoder computes

The equations of the encoder have one solution for every data word: `solution_encoder_iff` gives the
bits of each net.
-/

namespace MemoryCompiler.Rtl

open Verilog (Drive Expr Valuation bitDrives eval_net eval_bit eval_sumOf sumOf)
open Ecc (xorAll checkList encodeList)

section circuit

variable {c : Config} {l : Ecc.Layout} {r : Nat} {σ : Valuation}

/-! ### Parameters -/

theorem eccBits_eq (hecc : c.eccLayout = some l) (hl : l.Extended c.width r) : c.eccBits = r + 1 := by
  rw [Config.eccBits, hecc]
  show l.hammingBits + 1 = r + 1
  rw [hl.hammingBits]

theorem codeWidth_eq (hecc : c.eccLayout = some l) (hl : l.Extended c.width r) :
    c.codeWidth = c.width + r + 1 := by
  rw [Config.codeWidth, eccBits_eq hecc hl, Nat.add_assoc]

theorem width_pos (hl : l.Extended c.width r) : 0 < c.width := by
  obtain ⟨p, hp, -⟩ := hl.covered 0 hl.hammingBits_pos
  rw [← hl.length_positions]
  exact List.length_pos_of_mem hp

theorem constant_minus_one {m : Verilog.Module} {x : String} {n : Nat}
    (hx : m.params.lookup x = some n) (hn : 0 < n) :
    m.constant (.minus (.parameter x) (.literal 1)) = some (n - 1) := by
  have hname : m.constant (.parameter x) = some n := hx
  rw [Verilog.Module.constant, hname]
  show (if 1 ≤ n then some (n - 1) else none) = _
  rw [if_pos (Nat.succ_le_of_lt hn)]

theorem rangeWidth_paramRange {m : Verilog.Module} {x : String} {n : Nat}
    (hx : m.params.lookup x = some n) (hn : 0 < n) : m.rangeWidth (paramRange x) = some n := by
  rw [paramRange, Verilog.Module.rangeWidth, constant_minus_one hx hn]
  show some (n - 1 + 1) = some n
  rw [Nat.sub_add_cancel hn]

theorem rangeWidth_literal (m : Verilog.Module) (hr : 0 < r) :
    m.rangeWidth (some (.literal (r - 1), .literal 0)) = some r := by
  show some (r - 1 + 1) = some r
  rw [Nat.sub_add_cancel hr]

/-! ### Sums of covered bits -/

theorem eval_covered {m : Verilog.Module} {x : String} {n i : Nat} {covered : List Nat}
    (hx : m.width? x = some n) (hlen : (σ x).length = l.positions.length) (hl : l.Extended c.width r)
    (hi : l.coverage[i]? = some covered) :
    (covered.map fun j => Expr.bit x (.literal j)).map (m.eval σ) =
      (covered.map fun j => (σ x).getD j false).map fun b => some [b] := by
  rw [List.map_map, List.map_map]
  apply List.map_congr_left
  intro j hj
  rw [hl.coverage, List.getElem?_map, Option.map_eq_some_iff] at hi
  obtain ⟨k, -, rfl⟩ := hi
  obtain ⟨p, hp, -⟩ := Ecc.mem_coveredBy.1 hj
  have hjx : j < (σ x).length := by
    rw [hlen]
    exact (List.getElem?_eq_some_iff.1 hp).1
  rw [Function.comp_apply, Function.comp_apply, eval_bit hx, List.getElem?_eq_getElem hjx,
    List.getD_eq_getElem?_getD, List.getElem?_eq_getElem hjx]
  rfl

/-! ### The encoder -/

theorem declared_encoder :
    (encoderSource c l).declared =
      [("data_i", paramRange "DATA_WIDTH"), ("code_o", paramRange "CODE_WIDTH"),
        ("check", some (.literal (l.hammingBits - 1), .literal 0))] := by
  rw [Verilog.Module.declared, encoderSource, encoderItems, List.filterMap_append, List.filterMap_cons,
    checkItems, Verilog.filterMap_declared?_mapIdx]
  rfl

theorem drives_encoder :
    (encoderSource c l).drives =
      bitDrives "check" l.coverage (fun _ covered =>
          sumOf (covered.map fun j => .bit "data_i" (.literal j))) ++
        [⟨"code_o", none, .concat (.reduceXor (.concat (.net "check") (.net "data_i")))
          (.concat (.net "check") (.net "data_i"))⟩] := by
  rw [Verilog.Module.drives, encoderSource, encoderItems, List.filterMap_append, List.filterMap_cons,
    checkItems, Verilog.filterMap_drive?_mapIdx]
  rfl

theorem rangeWidth_data (m : Verilog.Module) (hm : m.params = eccParamValues c)
    (hl : l.Extended c.width r) : m.rangeWidth (paramRange "DATA_WIDTH") = some c.width :=
  rangeWidth_paramRange (by rw [hm]; rfl) (width_pos hl)

theorem rangeWidth_code (m : Verilog.Module) (hm : m.params = eccParamValues c)
    (hecc : c.eccLayout = some l) (hl : l.Extended c.width r) :
    m.rangeWidth (paramRange "CODE_WIDTH") = some (c.width + r + 1) :=
  rangeWidth_paramRange (by rw [hm, ← codeWidth_eq hecc hl]; rfl) (Nat.succ_pos _)

theorem width?_encoder (hecc : c.eccLayout = some l) (hl : l.Extended c.width r) :
    (encoderSource c l).width? "data_i" = some c.width ∧
      (encoderSource c l).width? "check" = some r ∧
      (encoderSource c l).width? "code_o" = some (c.width + r + 1) := by
  rw [Verilog.Module.width?, Verilog.Module.width?, Verilog.Module.width?, declared_encoder,
    hl.hammingBits]
  exact ⟨rangeWidth_data _ rfl hl, rangeWidth_literal _ hl.hammingBits_pos,
    rangeWidth_code _ rfl hecc hl⟩

theorem holds_checkDrives_iff (hecc : c.eccLayout = some l) (hl : l.Extended c.width r)
    (hdlen : (σ "data_i").length = c.width) (hclen : (σ "check").length = r) :
    (∀ d ∈ bitDrives "check" l.coverage fun _ covered =>
        sumOf (covered.map fun j => Expr.bit "data_i" (.literal j)),
      (encoderSource c l).Holds σ d) ↔ σ "check" = checkList l (σ "data_i") := by
  have hcover : l.coverage.length = r := by
    rw [hl.coverage, List.length_map, List.length_range]
  have hlist : checkList l (σ "data_i") = l.coverage.mapIdx fun _ covered =>
      xorAll (covered.map fun j => (σ "data_i").getD j false) := by
    rw [checkList]
    apply List.ext_getElem (by simp)
    intro i hi hi'
    rw [List.getElem_map, List.getElem_mapIdx]
  rw [hlist]
  exact Verilog.holds_bitDrives_iff (hclen.trans hcover.symm) fun i covered hi =>
    eval_sumOf (mt List.map_eq_nil_iff.1 (Ecc.covered_ne_nil hl hi))
      (eval_covered (width?_encoder hecc hl).1 (hdlen.trans hl.length_positions.symm) hl hi)

theorem holds_code_iff (hecc : c.eccLayout = some l) (hl : l.Extended c.width r) :
    (encoderSource c l).Holds σ ⟨"code_o", none, .concat (.reduceXor (.concat (.net "check")
        (.net "data_i"))) (.concat (.net "check") (.net "data_i"))⟩ ↔
      σ "code_o" = σ "data_i" ++ σ "check" ++ [xorAll (σ "data_i" ++ σ "check")] := by
  obtain ⟨hdata, hcheck, -⟩ := width?_encoder hecc hl
  have hboth := Verilog.eval_concat (eval_net (σ := σ) hcheck) (eval_net (σ := σ) hdata)
  have hall := Verilog.eval_concat (Verilog.eval_reduceXor hboth) hboth
  show (encoderSource c l).eval σ _ = some (σ "code_o") ↔ _
  rw [hall, Option.some.injEq, eq_comm]
  rfl

/-- **The encoder settles on the code word of its input**, and on nothing else. -/
theorem solution_encoder_iff (hecc : c.eccLayout = some l) (hl : l.Extended c.width r) :
    (encoderSource c l).Solution σ ↔
      (σ "data_i").length = c.width ∧ σ "check" = checkList l (σ "data_i") ∧
        σ "code_o" = encodeList l (σ "data_i") := by
  obtain ⟨hdata, hcheck, hcode⟩ := width?_encoder hecc hl
  constructor
  · intro h
    have hdlen := h.width _ _ hdata
    have hholds := h.holds
    rw [drives_encoder, List.forall_mem_append, List.forall_mem_singleton] at hholds
    have hc := (holds_checkDrives_iff hecc hl hdlen (h.width _ _ hcheck)).1 hholds.1
    have ho := (holds_code_iff hecc hl).1 hholds.2
    rw [hc] at ho
    exact ⟨hdlen, hc, ho⟩
  · rintro ⟨hdlen, hc, ho⟩
    have hclen : (σ "check").length = r := by rw [hc, Ecc.length_checkList hl]
    have holen : (σ "code_o").length = c.width + r + 1 := by
      rw [ho, encodeList, List.length_append, List.length_append, hdlen, Ecc.length_checkList hl,
        List.length_singleton]
    refine ⟨Verilog.width_of_declared ?_, ?_⟩
    · have hrdata := rangeWidth_data (encoderSource c l) rfl hl
      have hrcode := rangeWidth_code (encoderSource c l) rfl hecc hl
      have hrcheck := rangeWidth_literal (encoderSource c l) hl.hammingBits_pos
      rw [declared_encoder, hl.hammingBits]
      simp only [List.forall_mem_cons]
      exact ⟨hrdata.trans (by rw [hdlen]), hrcode.trans (by rw [holen]), hrcheck.trans (by rw [hclen]),
        fun _ h => absurd h List.not_mem_nil⟩
    · rw [drives_encoder, List.forall_mem_append, List.forall_mem_singleton]
      refine ⟨(holds_checkDrives_iff hecc hl hdlen hclen).2 hc, (holds_code_iff hecc hl).2 ?_⟩
      rw [ho, hc]
      rfl

theorem drivers_encoder (hl : l.Extended c.width r) :
    (∀ i < r, (encoderSource c l).drivers "check" i = 1) ∧
      ∀ i, (encoderSource c l).drivers "code_o" i = 1 := by
  have hcover : l.coverage.length = r := by
    rw [hl.coverage, List.length_map, List.length_range]
  constructor
  · intro i hi
    rw [Verilog.Module.drivers, drives_encoder, List.countP_append,
      Verilog.countP_bitDrives _ (hcover.symm ▸ hi)]
    rfl
  · intro i
    rw [Verilog.Module.drivers, drives_encoder, List.countP_append,
      Verilog.countP_bitDrives_of_ne (by decide)]
    rfl

end circuit

end MemoryCompiler.Rtl
