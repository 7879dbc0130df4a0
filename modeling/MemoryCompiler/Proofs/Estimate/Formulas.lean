import Mathlib
import MemoryCompiler.Estimate.Power

/-!
# The estimates in real arithmetic

The formulas of the estimates are written over any type of numbers; here they are read over the reals.
For positive constants, a positive geometry and a supply voltage above the threshold no divisor is zero
and every quantity has the sign it should have: `AreaEstimate.sound_ofNode`,
`TimingEstimate.sound_ofNode`, `PowerEstimate.sound_ofNode`.
-/

namespace MemoryCompiler

open Scalar (ofCount root)

noncomputable instance : Scalar ℝ where
  ofCount n := n
  root := Real.sqrt

@[simp] theorem ofCount_real (n : Nat) : (ofCount n : ℝ) = n := rfl

@[simp] theorem root_real (x : ℝ) : root x = √x := rfl

/-- A geometry with words, bits and banks. -/
structure Config.Proper (c : Config) : Prop where
  depth : 0 < c.depth
  width : 0 < c.width
  banks : 0 < c.banks

/-! ### What a sound estimate is -/

/-- There is some area, and the bit cells take a part of it that is neither nothing nor all. -/
structure AreaEstimate.Sound (e : AreaEstimate ℝ) : Prop where
  total : 0 < e.total
  efficiency_pos : 0 < e.efficiency
  efficiency_lt : e.efficiency < 1

/-- An access takes time, and a cycle takes longer. -/
structure TimingEstimate.Sound (e : TimingEstimate ℝ) : Prop where
  access : 0 < e.access
  access_lt : e.access < e.cycle

/-- The powers have their signs; the retention power, in µW, is nothing without retention and with it
above zero and below the static power, in mW. -/
structure PowerEstimate.Sound (e : PowerEstimate ℝ) (retained : Bool) : Prop where
  dynamic : 0 ≤ e.dynamic
  static : 0 < e.static
  total : e.total = e.dynamic + e.static
  without : retained = false → e.retention = 0
  within : retained = true → 0 < e.retention ∧ e.retention < e.static * 1000

theorem TimingEstimate.Sound.cycle {e : TimingEstimate ℝ} (h : e.Sound) : 0 < e.cycle :=
  h.access.trans h.access_lt

section formulas

variable {c : Config} {n : ProcessNode ℝ} (hc : c.Proper) (hn : ∀ k, 0 < n.get k)

/-! ### Area -/

namespace AreaEstimate

theorem le_addWhen {on : Bool} {extra periphery : ℝ} (h : 0 ≤ extra) :
    periphery ≤ addWhen on extra periphery := by
  unfold addWhen
  split_ifs
  · linarith
  · exact le_refl periphery

include hc hn

theorem bitcellArea_pos : 0 < bitcellArea c n := by
  have hdepth : (0 : ℝ) < c.depth := Nat.cast_pos.2 hc.depth
  have hwidth : (0 : ℝ) < c.width := Nat.cast_pos.2 hc.width
  have hcell : 0 < n.bitcellArea := hn .bitcellArea
  simp only [bitcellArea, ofCount_real]
  positivity

theorem peripheryArea_pos : 0 < peripheryArea c n := by
  have hcells := bitcellArea_pos hc hn
  have hbanks : (0 : ℝ) < c.banks := Nat.cast_pos.2 hc.banks
  have hcell : 0 < n.bitcellArea := hn .bitcellArea
  have hgate : 0 < n.gateArea := hn .gateArea
  simp only [peripheryArea, ofCount_real, root_real]
  -- the share of the array is positive, and no feature takes anything away
  calc (0 : ℝ) < bitcellArea c n * 0.35 * √c.banks := by positivity
    _ ≤ _ := le_addWhen (by positivity)
    _ ≤ _ := le_addWhen (by positivity)
    _ ≤ _ := le_addWhen (by positivity)
    _ ≤ _ := le_addWhen (by positivity)
    _ ≤ _ := le_addWhen (by positivity)

theorem sound_ofNode : (ofNode c n).Sound := by
  have hcells : 0 < bitcellArea c n / 1e6 := div_pos (bitcellArea_pos hc hn) (by norm_num)
  have hperiphery : 0 < peripheryArea c n / 1e6 := div_pos (peripheryArea_pos hc hn) (by norm_num)
  have htotal : 0 < (ofNode c n).total := add_pos hcells hperiphery
  refine ⟨htotal, div_pos hcells htotal, ?_⟩
  exact (div_lt_one htotal).2 (lt_add_of_pos_right _ hperiphery)

end AreaEstimate

/-! ### Timing -/

namespace TimingEstimate

variable {v : ℝ} (hv : n.vTh < v)

include hn hv

theorem accessTime_pos : 0 < accessTime c n v := by
  have hbase : 0 < n.baseAccess := hn .baseAccess
  have hwire : 0 < n.wireDelay := hn .wireDelay
  have hdrive : 0 < n.driveDelay / (v - n.vTh) := div_pos (hn .driveDelay) (sub_pos.2 hv)
  simp only [accessTime, ofCount_real, root_real]
  positivity

omit hv in
theorem accessTime_lt_cycleTime : accessTime c n v < cycleTime c n v := by
  have hsetup : 0 < n.setupHold := hn .setupHold
  have hecc : 0 < n.eccStage := hn .eccStage
  unfold cycleTime
  dsimp only
  split_ifs
  all_goals
    norm_num
    linarith

theorem sound_ofNode : (ofNode c n v).Sound :=
  ⟨accessTime_pos hn hv, accessTime_lt_cycleTime hn⟩

theorem maxFrequency_pos : 0 < (ofNode c n v).maxFrequency :=
  div_pos (by norm_num) (sound_ofNode (c := c) hn hv).cycle

end TimingEstimate

/-! ### Power -/

namespace PowerEstimate

variable {v f a : ℝ} (hv : 0 < v)

include hn hv in
theorem dynamicPower_nonneg (hf : 0 < f) (ha : 0 ≤ a) : 0 ≤ dynamicPower c n v f a := by
  have hcolumn : 0 < n.columnCap := hn .columnCap
  unfold dynamicPower capacitance
  simp only [ofCount_real]
  split_ifs
  all_goals positivity

include hc hn hv in
theorem staticPower_pos : 0 < staticPower c n v := by
  have htotal := (AreaEstimate.sound_ofNode hc hn).total
  have hleak : 0 < n.leakage := hn .leakage
  unfold staticPower
  dsimp only
  split_ifs
  all_goals positivity

include hc hn hv in
theorem sound_ofNode (hf : 0 < f) (ha : 0 ≤ a) : (ofNode c n v f a).Sound c.retentionMode where
  dynamic := dynamicPower_nonneg hn hv hf ha
  static := staticPower_pos hc hn hv
  total := rfl
  without := by
    intro h
    simp [ofNode, h]
  within := by
    intro h
    have hstatic := staticPower_pos hc hn hv
    simp only [ofNode, h, if_true]
    constructor
    · positivity
    · norm_num
      linarith

end PowerEstimate

end formulas

end MemoryCompiler
