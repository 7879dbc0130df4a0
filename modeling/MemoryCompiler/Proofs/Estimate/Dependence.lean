import MemoryCompiler.Proofs.Ecc.LeastCheckBits
import MemoryCompiler.Proofs.Estimate.Formulas

/-!
# What the estimates depend on

How the formulas of the estimates move in real arithmetic when one field of a configuration is raised and
all others stay (`Config.Raised`). The bit cells grow with depth and width only; banks and features add to
the periphery (`AreaEstimate.peripheryArea_lt`), so the area grows and the share of the bit cells in it
shrinks. The access time depends on the voltage and on the rows of a bank, the cycle time also on the
stages of error correction and clock gating. Dynamic power is an activity factor times what toggles in a
cycle (`PowerEstimate.dynamicPower_eq`), static power goes with the area.
-/

namespace MemoryCompiler

open Scalar (ofCount root)

/-- The second configuration is the first with one field raised: a larger number, or a feature switched
on. All other fields are the same. -/
inductive Config.Raised : ConfigField → Config → Config → Prop
  | depth {c : Config} {k} (h : c.depth < k) : Raised .depth c { c with depth := k }
  | width {c : Config} {k} (h : c.width < k) : Raised .width c { c with width := k }
  | banks {c : Config} {k} (h : c.banks < k) : Raised .banks c { c with banks := k }
  | voltage {c : Config} {v} (h : c.voltage < v) : Raised .voltage c { c with voltage := v }
  | powerGating {c : Config} (h : c.powerGating = false) :
      Raised .powerGating c { c with powerGating := true }
  | clockGating {c : Config} (h : c.clockGating = false) :
      Raised .clockGating c { c with clockGating := true }
  | retentionMode {c : Config} (h : c.retentionMode = false) :
      Raised .retentionMode c { c with retentionMode := true }
  | eccEnable {c : Config} (h : c.eccEnable = false) : Raised .eccEnable c { c with eccEnable := true }

namespace Config.Raised

variable {f : ConfigField} {c c' : Config}

theorem processNode_eq (h : Raised f c c') : c'.processNode = c.processNode := by
  cases h <;> rfl

theorem geometry_le (h : Raised f c c') :
    c.depth ≤ c'.depth ∧ c.width ≤ c'.width ∧ c.banks ≤ c'.banks := by
  cases h with
  | depth h | width h | banks h => simp [h.le]
  | voltage | powerGating | clockGating | retentionMode | eccEnable => simp

theorem checkBits_le (h : Raised f c c') (hsafe : c'.width < 2 ^ 53) :
    Ecc.checkBits c.width ≤ Ecc.checkBits c'.width :=
  Ecc.checkBits_mono h.geometry_le.2.1 hsafe

end Config.Raised

namespace ConfigField

def geometry : List ConfigField := [.depth, .width, .banks]

def features : List ConfigField := [.powerGating, .clockGating, .retentionMode, .eccEnable]

theorem ne_of_mem_features {f : ConfigField} (h : f ∈ features) : f ≠ .depth ∧ f ≠ .width := by
  cases f with
  | depth | width => simp [features] at h
  | banks | voltage | processNode | powerGating | clockGating | retentionMode | eccEnable => simp

end ConfigField

/-- An estimate of times that are all shorter, at a higher frequency. -/
structure TimingEstimate.Faster (e e' : TimingEstimate ℝ) : Prop where
  access : e.access < e'.access
  cycle : e.cycle < e'.cycle
  maxFrequency : e'.maxFrequency < e.maxFrequency

section formulas

variable {c c' : Config} {n : ProcessNode ℝ} {f : ConfigField} (hc : c.Proper) (hn : ∀ k, 0 < n.get k)

/-! ### Area -/

namespace AreaEstimate

open Config (Raised)

section addWhen

variable {on : Bool} {extra extra' periphery periphery' : ℝ}

theorem addWhen_true : addWhen true extra periphery = periphery + extra := rfl

theorem addWhen_false : addWhen false extra periphery = periphery := rfl

theorem addWhen_lt_addWhen (hextra : extra ≤ extra') (h : periphery < periphery') :
    addWhen on extra periphery < addWhen on extra' periphery' := by
  unfold addWhen
  split_ifs
  · exact add_lt_add_of_lt_of_le h hextra
  · exact h

theorem addWhen_addWhen :
    addWhen on extra' (addWhen on extra periphery) = addWhen on (extra + extra') periphery := by
  unfold addWhen
  split_ifs
  · ring
  · rfl

theorem addWhen_add (more : ℝ) : addWhen on extra (periphery + more) = addWhen on extra periphery + more := by
  unfold addWhen
  split_ifs
  · ring
  · rfl

end addWhen

/-- The share of the bit cells that the periphery starts with, in µm². -/
noncomputable def bankedArea (c : Config) (n : ProcessNode ℝ) : ℝ := bitcellArea c n * 0.35 * √c.banks

/-- What a feature adds to the periphery when it is on, in µm². -/
noncomputable def featureArea (c : Config) (n : ProcessNode ℝ) : ConfigField → ℝ
  | .eccEnable => c.depth * Ecc.checkBits c.width * n.bitcellArea + c.width * eccGatesPerBit * n.gateArea
  | .powerGating => bitcellArea c n * 0.04
  | .retentionMode => bitcellArea c n * 0.02
  | .clockGating => c.banks * clockGateGates * n.gateArea
  | _ => 0

theorem peripheryArea_eq : peripheryArea c n =
    addWhen c.clockGating (featureArea c n .clockGating)
      (addWhen c.retentionMode (featureArea c n .retentionMode)
        (addWhen c.powerGating (featureArea c n .powerGating)
          (addWhen c.eccEnable (featureArea c n .eccEnable) (bankedArea c n)))) := by
  simp only [peripheryArea, addWhen_addWhen]
  rfl

theorem bitcellArea_eq (h : Raised f c c') (hf : f ≠ .depth ∧ f ≠ .width) :
    bitcellArea c' n = bitcellArea c n := by
  cases h with
  | depth => exact absurd rfl hf.1
  | width => exact absurd rfl hf.2
  | banks | voltage | powerGating | clockGating | retentionMode | eccEnable => rfl

/-- A feature that is switched on adds its part, and no other part changes. -/
theorem peripheryArea_of_feature (h : Raised f c c') (hf : f ∈ ConfigField.features) :
    peripheryArea c' n = peripheryArea c n + featureArea c n f := by
  rw [peripheryArea_eq, peripheryArea_eq]
  cases h with
  | depth | width | banks | voltage => simp [ConfigField.features] at hf
  | powerGating h | clockGating h | retentionMode h | eccEnable h =>
    simp only [h, featureArea, bitcellArea, bankedArea, addWhen_true, addWhen_false, addWhen_add]

theorem total_of_feature (h : Raised f c c') (hf : f ∈ ConfigField.features) :
    (ofNode c' n).total = (ofNode c n).total + featureArea c n f / 1e6 := by
  show bitcellArea c' n / 1e6 + peripheryArea c' n / 1e6
    = bitcellArea c n / 1e6 + peripheryArea c n / 1e6 + featureArea c n f / 1e6
  rw [bitcellArea_eq h (ConfigField.ne_of_mem_features hf), peripheryArea_of_feature h hf]
  ring

theorem bitcell_of_feature (h : Raised f c c') (hf : f ∈ ConfigField.features) :
    (ofNode c' n).bitcell = (ofNode c n).bitcell := by
  show bitcellArea c' n / 1e6 = bitcellArea c n / 1e6
  rw [bitcellArea_eq h (ConfigField.ne_of_mem_features hf)]

include hc hn

theorem featureArea_pos (hf : f ∈ ConfigField.features) : 0 < featureArea c n f := by
  have hcells := bitcellArea_pos hc hn
  have hcell : 0 < n.bitcellArea := hn .bitcellArea
  have hgate : 0 < n.gateArea := hn .gateArea
  have hdepth : (0 : ℝ) < c.depth := Nat.cast_pos.2 hc.depth
  have hwidth : (0 : ℝ) < c.width := Nat.cast_pos.2 hc.width
  have hbanks : (0 : ℝ) < c.banks := Nat.cast_pos.2 hc.banks
  have hbits : (0 : ℝ) < Ecc.checkBits c.width := Nat.cast_pos.2 (Nat.succ_pos _)
  simp only [ConfigField.features, List.mem_cons, List.not_mem_nil, or_false] at hf
  rcases hf with rfl | rfl | rfl | rfl
  all_goals
    simp only [featureArea, eccGatesPerBit, clockGateGates]
    positivity

/-! #### A larger geometry -/

omit hc in
theorem bitcellArea_le (h : Raised f c c') : bitcellArea c n ≤ bitcellArea c' n := by
  have hcell : 0 < n.bitcellArea := hn .bitcellArea
  obtain ⟨hdepth, hwidth, -⟩ := h.geometry_le
  simp only [bitcellArea, ofCount_real]
  gcongr

theorem bitcellArea_lt (h : Raised f c c') (hf : f = .depth ∨ f = .width) :
    bitcellArea c n < bitcellArea c' n := by
  have hcell : 0 < n.bitcellArea := hn .bitcellArea
  have hdepth : (0 : ℝ) < c.depth := Nat.cast_pos.2 hc.depth
  have hwidth : (0 : ℝ) < c.width := Nat.cast_pos.2 hc.width
  simp only [bitcellArea, ofCount_real]
  cases h with
  | depth h | width h => gcongr
  | banks | voltage | powerGating | clockGating | retentionMode | eccEnable => simp at hf

theorem bankedArea_lt (h : Raised f c c') (hf : f ∈ ConfigField.geometry) :
    bankedArea c n < bankedArea c' n := by
  have hcells := bitcellArea_pos hc hn
  have hbanks : (0 : ℝ) < c.banks := Nat.cast_pos.2 hc.banks
  unfold bankedArea
  cases h with
  | depth h =>
    have hless := bitcellArea_lt hc hn (.depth h) (.inl rfl)
    gcongr
  | width h =>
    have hless := bitcellArea_lt hc hn (.width h) (.inr rfl)
    gcongr
  | banks h =>
    show bitcellArea c n * 0.35 * √c.banks < bitcellArea c n * 0.35 * √(_ : ℕ)
    gcongr
  | voltage | powerGating | clockGating | retentionMode | eccEnable =>
    simp [ConfigField.geometry] at hf

omit hc in
theorem featureArea_le (h : Raised f c c') (hsafe : c'.width < 2 ^ 53) (g : ConfigField) :
    featureArea c n g ≤ featureArea c' n g := by
  have hcell : 0 < n.bitcellArea := hn .bitcellArea
  have hgate : 0 < n.gateArea := hn .gateArea
  have hdepth : (c.depth : ℝ) ≤ c'.depth := Nat.cast_le.2 h.geometry_le.1
  have hwidth : (c.width : ℝ) ≤ c'.width := Nat.cast_le.2 h.geometry_le.2.1
  have hbanks : (c.banks : ℝ) ≤ c'.banks := Nat.cast_le.2 h.geometry_le.2.2
  have hbits : (Ecc.checkBits c.width : ℝ) ≤ Ecc.checkBits c'.width := Nat.cast_le.2 (h.checkBits_le hsafe)
  cases g with
  | powerGating | retentionMode =>
    exact mul_le_mul_of_nonneg_right (bitcellArea_le hn h) (by norm_num)
  | clockGating =>
    exact mul_le_mul_of_nonneg_right (mul_le_mul_of_nonneg_right hbanks (Nat.cast_nonneg _)) hgate.le
  | eccEnable =>
    have hcolumns : (c.depth : ℝ) * Ecc.checkBits c.width ≤ c'.depth * Ecc.checkBits c'.width :=
      mul_le_mul hdepth hbits (Nat.cast_nonneg _) (Nat.cast_nonneg _)
    have hlogic : (c.width : ℝ) * eccGatesPerBit ≤ c'.width * eccGatesPerBit :=
      mul_le_mul_of_nonneg_right hwidth (Nat.cast_nonneg _)
    exact add_le_add (mul_le_mul_of_nonneg_right hcolumns hcell.le)
      (mul_le_mul_of_nonneg_right hlogic hgate.le)
  | depth | width | banks | voltage | processNode => exact le_rfl

theorem peripheryArea_lt_of_geometry (h : Raised f c c') (hf : f ∈ ConfigField.geometry)
    (hsafe : c'.width < 2 ^ 53) : peripheryArea c n < peripheryArea c' n := by
  have hextra := featureArea_le hn h hsafe
  have hbanked := bankedArea_lt hc hn h hf
  rw [peripheryArea_eq, peripheryArea_eq]
  cases h with
  | depth | width | banks =>
    exact addWhen_lt_addWhen (hextra _) (addWhen_lt_addWhen (hextra _)
      (addWhen_lt_addWhen (hextra _) (addWhen_lt_addWhen (hextra _) hbanked)))
  | voltage | powerGating | clockGating | retentionMode | eccEnable =>
    simp [ConfigField.geometry] at hf

/-! #### The whole -/

theorem peripheryArea_lt (h : Raised f c c') (hf : f ∈ ConfigField.geometry ++ ConfigField.features)
    (hsafe : c'.width < 2 ^ 53) : peripheryArea c n < peripheryArea c' n := by
  rcases List.mem_append.1 hf with hgeometry | hfeature
  · exact peripheryArea_lt_of_geometry hc hn h hgeometry hsafe
  · rw [peripheryArea_of_feature h hfeature]
    exact lt_add_of_pos_right _ (featureArea_pos hc hn hfeature)

theorem total_lt (h : Raised f c c') (hf : f ∈ ConfigField.geometry ++ ConfigField.features)
    (hsafe : c'.width < 2 ^ 53) : (ofNode c n).total < (ofNode c' n).total := by
  have hcells := bitcellArea_le hn h
  have hperiphery := peripheryArea_lt hc hn h hf hsafe
  show bitcellArea c n / 1e6 + peripheryArea c n / 1e6 < bitcellArea c' n / 1e6 + peripheryArea c' n / 1e6
  exact add_lt_add_of_le_of_lt (by gcongr) (by gcongr)

theorem bitcell_lt (h : Raised f c c') (hf : f = .depth ∨ f = .width) :
    (ofNode c n).bitcell < (ofNode c' n).bitcell :=
  div_lt_div_of_pos_right (bitcellArea_lt hc hn h hf) (by norm_num)

theorem efficiency_lt (h : Raised f c c') (hf : f = .banks ∨ f ∈ ConfigField.features)
    (hsafe : c'.width < 2 ^ 53) : (ofNode c' n).efficiency < (ofNode c n).efficiency := by
  have hgrows : f ∈ ConfigField.geometry ++ ConfigField.features := by
    rcases hf with rfl | hf
    · decide
    · exact List.mem_append_right _ hf
  have hstays : f ≠ .depth ∧ f ≠ .width := by
    rcases hf with rfl | hf
    · simp
    · exact ConfigField.ne_of_mem_features hf
  have htotal := total_lt hc hn h hgrows hsafe
  have hcells : 0 < bitcellArea c n / 1e6 := div_pos (bitcellArea_pos hc hn) (by norm_num)
  show bitcellArea c' n / 1e6 / (ofNode c' n).total < bitcellArea c n / 1e6 / (ofNode c n).total
  rw [bitcellArea_eq h hstays]
  exact div_lt_div_of_pos_left hcells (sound_ofNode hc hn).total htotal

end AreaEstimate

/-! ### Timing -/

namespace TimingEstimate

variable {v v' : ℝ}

/-- A cycle is an access and what comes after it, which the voltage and the geometry do not change. -/
theorem cycleTime_eq : cycleTime c n v = accessTime c n v + n.setupHold
    + (if c.eccEnable then n.eccStage else 0) + (if c.clockGating then 0.02 else 0) := by
  unfold cycleTime
  dsimp only
  split_ifs <;> ring

include hn

theorem accessTime_lt_of_voltage (hv : n.vTh < v) (h : v < v') : accessTime c n v' < accessTime c n v := by
  have hdrive : 0 < n.driveDelay := hn .driveDelay
  have hless : n.driveDelay / (v' - n.vTh) < n.driveDelay / (v - n.vTh) :=
    div_lt_div_of_pos_left hdrive (sub_pos.2 hv) (sub_lt_sub_right h _)
  unfold accessTime
  exact add_lt_add_right hless _

include hc in
theorem accessTime_lt_of_banks (h : Config.Raised .banks c c') : accessTime c' n v < accessTime c n v := by
  have hwire : 0 < n.wireDelay := hn .wireDelay
  have hdepth : (0 : ℝ) < c.depth := Nat.cast_pos.2 hc.depth
  have hbanks : (0 : ℝ) < c.banks := Nat.cast_pos.2 hc.banks
  cases h with
  | banks h =>
    simp only [accessTime, ofCount_real, root_real]
    gcongr

theorem cycleTime_lt_of_stage (h : Config.Raised f c c') (hf : f = .eccEnable ∨ f = .clockGating) :
    accessTime c' n v = accessTime c n v ∧ cycleTime c n v < cycleTime c' n v := by
  have hecc : 0 < n.eccStage := hn .eccStage
  rw [cycleTime_eq, cycleTime_eq]
  cases h with
  | eccEnable h =>
    refine ⟨rfl, ?_⟩
    simp only [h, if_true, Bool.false_eq_true, if_false]
    exact add_lt_add_left (add_lt_add_right hecc _) _
  | clockGating h =>
    refine ⟨rfl, ?_⟩
    simp only [h, if_true, Bool.false_eq_true, if_false]
    exact add_lt_add_right (by norm_num) _
  | depth | width | banks | voltage | powerGating | retentionMode => simp at hf

theorem maxFrequency_lt (hv : n.vTh < v) (h : cycleTime c n v < cycleTime c' n v') :
    (ofNode c' n v').maxFrequency < (ofNode c n v).maxFrequency :=
  div_lt_div_of_pos_left (by norm_num) (sound_ofNode (c := c) hn hv).cycle h

theorem faster_of_access (hv' : n.vTh < v') (haccess : accessTime c' n v' < accessTime c n v)
    (hecc : c'.eccEnable = c.eccEnable) (hgating : c'.clockGating = c.clockGating) :
    Faster (ofNode c' n v') (ofNode c n v) := by
  have hcycle : cycleTime c' n v' < cycleTime c n v := by
    rw [cycleTime_eq, cycleTime_eq, hecc, hgating]
    gcongr
  exact ⟨haccess, hcycle, maxFrequency_lt hn hv' hcycle⟩

end TimingEstimate

/-! ### Power -/

namespace PowerEstimate

open AreaEstimate (bitcellArea featureArea total_of_feature)

variable {v v' q q' a a' : ℝ}

theorem dynamicPower_eq : dynamicPower c n v q a = dynamicPower c n v q 1 * a := by
  unfold dynamicPower
  simp only [mul_one, mul_div_right_comm _ a]
  split_ifs
  · exact mul_right_comm _ _ _
  · rfl

theorem dynamicPower_of_clockGating (h : Config.Raised .clockGating c c') :
    dynamicPower c' n v q a = dynamicPower c n v q a * 0.75 := by
  cases h with
  | clockGating h =>
    simp only [dynamicPower, h, if_true, Bool.false_eq_true, if_false]
    rfl

theorem staticPower_of_powerGating (h : Config.Raised .powerGating c c') :
    staticPower c' n v = (AreaEstimate.ofNode c' n).total * n.leakage * v * 0.4 := by
  cases h with
  | powerGating h => simp only [staticPower, if_true]

include hc hn

theorem capacitance_pos : 0 < capacitance c n := by
  have hcolumn : 0 < n.columnCap := hn .columnCap
  have hstored : (0 : ℝ) < storedWidth c := Nat.cast_pos.2 (Nat.lt_of_lt_of_le hc.width (Nat.le_add_right ..))
  have hbanks : (0 : ℝ) < c.banks := Nat.cast_pos.2 hc.banks
  exact mul_pos (mul_pos hcolumn hstored) hbanks

omit hc in
theorem capacitance_le_of_banks (h : Config.Raised .banks c c') : capacitance c n ≤ capacitance c' n := by
  have hcolumn : 0 < n.columnCap := hn .columnCap
  cases h with
  | banks h =>
    exact mul_le_mul_of_nonneg_left (Nat.cast_le.2 h.le) (mul_nonneg hcolumn.le (Nat.cast_nonneg _))

variable (hv : 0 < v) (hq : 0 < q)

include hv hq

theorem dynamicPower_pos (ha : 0 < a) : 0 < dynamicPower c n v q a := by
  have hcap := capacitance_pos hc hn
  unfold dynamicPower
  dsimp only
  split_ifs
  all_goals positivity

theorem dynamicPower_lt_of_activity (ha : a < a') : dynamicPower c n v q a < dynamicPower c n v q a' := by
  rw [dynamicPower_eq (a := a), dynamicPower_eq (a := a')]
  exact mul_lt_mul_of_pos_left ha (dynamicPower_pos hc hn hv hq one_pos)

theorem dynamicPower_eq_zero_iff : dynamicPower c n v q a = 0 ↔ a = 0 := by
  rw [dynamicPower_eq, mul_eq_zero]
  exact or_iff_right (dynamicPower_pos hc hn hv hq one_pos).ne'

/-- Where no less switches, at no lower a voltage and at a higher frequency, more dynamic power is spent. -/
theorem dynamicPower_lt (hcap : capacitance c n ≤ capacitance c' n) (hgating : c'.clockGating = c.clockGating)
    (hvoltage : v ≤ v') (hfrequency : q < q') (ha : 0 < a) :
    dynamicPower c n v q a < dynamicPower c' n v' q' a := by
  have hpos := capacitance_pos hc hn
  have hpos' : 0 < v' := hv.trans_le hvoltage
  have hpos'' : 0 < capacitance c' n := hpos.trans_le hcap
  have hcharge : capacitance c n * (v * v) ≤ capacitance c' n * (v' * v') := by gcongr
  have hspent : capacitance c n * (v * v) * q < capacitance c' n * (v' * v') * q' :=
    mul_lt_mul' hcharge hfrequency hq.le (by positivity)
  unfold dynamicPower
  rw [hgating]
  dsimp only
  split_ifs
  all_goals gcongr

omit hq

theorem dynamicPower_lt_of_clockGating (h : Config.Raised .clockGating c c') (hq' : 0 < q')
    (hfrequency : q' ≤ q) (ha : 0 < a) : dynamicPower c' n v q' a < dynamicPower c n v q a := by
  have hpos := dynamicPower_pos hc hn hv hq' ha
  rw [dynamicPower_of_clockGating h]
  calc dynamicPower c n v q' a * 0.75 < dynamicPower c n v q' a := by linarith
    _ ≤ dynamicPower c n v q a := by
      rcases hfrequency.eq_or_lt with rfl | hlower
      · exact le_rfl
      · exact (dynamicPower_lt hc hn hv hq' le_rfl rfl le_rfl hlower ha).le

theorem dynamicPower_le_of_clockGating (h : Config.Raised .clockGating c c') (hq' : 0 < q')
    (hfrequency : q' ≤ q) (ha : 0 ≤ a) : dynamicPower c' n v q' a ≤ dynamicPower c n v q a := by
  rcases ha.eq_or_lt with rfl | hactive
  · rw [dynamicPower_eq, mul_zero, dynamicPower_eq, mul_zero]
  · exact (dynamicPower_lt_of_clockGating hc hn hv h hq' hfrequency hactive).le

omit hv

theorem staticPower_lt_of_voltage (h : v < v') : staticPower c n v < staticPower c n v' := by
  have htotal := (AreaEstimate.sound_ofNode hc hn).total
  have hleak : 0 < n.leakage := hn .leakage
  unfold staticPower
  dsimp only
  split_ifs
  all_goals gcongr

include hv

omit hc in
theorem staticPower_lt_of_total (h : (AreaEstimate.ofNode c n).total < (AreaEstimate.ofNode c' n).total)
    (hgating : c'.powerGating = c.powerGating) : staticPower c n v < staticPower c' n v := by
  have hleak : 0 < n.leakage := hn .leakage
  unfold staticPower
  rw [hgating]
  dsimp only
  split_ifs
  all_goals gcongr

theorem staticPower_lt_of_powerGating (h : Config.Raised .powerGating c c') :
    staticPower c' n v < staticPower c n v := by
  have hleak : 0 < n.leakage := hn .leakage
  have hperiphery : 0 < AreaEstimate.peripheryArea c n / 1e6 :=
    div_pos (AreaEstimate.peripheryArea_pos hc hn) (by norm_num)
  have hcells : 0 < bitcellArea c n / 1e6 := div_pos (AreaEstimate.bitcellArea_pos hc hn) (by norm_num)
  have htotal' := total_of_feature (n := n) h (by decide)
  have harea : (AreaEstimate.ofNode c' n).total * 0.4 < (AreaEstimate.ofNode c n).total := by
    have htotal : (AreaEstimate.ofNode c n).total
      = bitcellArea c n / 1e6 + AreaEstimate.peripheryArea c n / 1e6 := rfl
    have hswitches : featureArea c n .powerGating / 1e6 = bitcellArea c n / 1e6 * 0.04 := by
      show bitcellArea c n * 0.04 / 1e6 = bitcellArea c n / 1e6 * 0.04
      ring
    -- two fifths of the whole with its switches, which are a twenty-fifth of the bit cells
    rw [htotal', hswitches, htotal]
    linarith
  have hungated : staticPower c n v = (AreaEstimate.ofNode c n).total * n.leakage * v := by
    cases h with
    | powerGating h => simp only [staticPower, h, Bool.false_eq_true, if_false]
  rw [staticPower_of_powerGating h, hungated]
  calc (AreaEstimate.ofNode c' n).total * n.leakage * v * 0.4
      = (AreaEstimate.ofNode c' n).total * 0.4 * n.leakage * v := by ring
    _ < (AreaEstimate.ofNode c n).total * n.leakage * v := by gcongr

end PowerEstimate

end formulas

end MemoryCompiler
