import MemoryCompiler.Proofs.Estimate.Dependence
import MemoryCompiler.Proofs.Estimate.Verdicts

/-!
# Comparing estimates

Two configurations accepted under one table, equal but for one field that the second raises
(`Config.Raised`): how their estimates compare in real arithmetic. The main statements are
`Config.area_of_raised`, `Config.power_of_gating` and `Config.operating_point_ordered`. The last also
compares the estimates that one configuration has over a list of activity factors.
-/

namespace MemoryCompiler

open Decimal (toReal toReal_lt_iff)

theorem Document.IsActivity.toReal_nonneg {v : Document} {a : Float} (h : v.IsActivity a) : 0 ≤ toReal a := by
  rcases h with ⟨-, rfl⟩ | ⟨-, hfinite, hnonneg, -⟩
  · exact Decimal.toReal_nonneg (by decide +kernel) (by decide +kernel)
  · exact Decimal.toReal_nonneg hfinite hnonneg

namespace ProcessTable

theorem sound_of_lookup {documents : List Document} {t : ProcessTable}
    (ht : documents.foldlM merge .standard = .ok t) {node : Nat} {n : ProcessNode Float}
    (h : t.lookup node = .ok n) : n.Sound := by
  unfold lookup at h
  split at h
  · next hfind =>
    cases h
    exact (sound_standard.merges ht _ (mem_of_find? hfind)).2
  · cases h

end ProcessTable

namespace Config

/-- What the estimates need to know of a configuration and the constants of its node. -/
structure Modelled (c : Config) (t : ProcessTable) (n : ProcessNode Float) : Prop where
  node : t.lookup c.processNode = .ok n
  sound : n.Sound
  proper : c.Proper
  safe : c.width < 2 ^ 53
  voltage : c.voltage.isFinite = true

/-- The estimates of a configuration at an operating point are those of the formulas. -/
structure Answers (c : Config) (t : ProcessTable) (n : ProcessNode Float) (activity frequency : Document)
    (a q : Float) : Prop where
  area : c.area t = .ok (AreaEstimate.ofNode c n)
  timing : c.timing t = .ok (TimingEstimate.ofNode c n c.voltage)
  power : c.power activity frequency t = .ok (PowerEstimate.ofNode c n c.voltage q a)

section accepted

variable {check : List (String × Document) → Except (List SchemaIssue) Config} (hcheck : ChecksSchema check)
  {documents : List Document} {t : ProcessTable} (ht : documents.foldlM ProcessTable.merge .standard = .ok t)
  {raw : Document} {c : Config} (hc : ofDocumentWith check raw t = .ok c)

include hcheck ht hc

theorem exists_modelled : ∃ n, c.Modelled t n := by
  obtain ⟨hheld, hlisted⟩ := holds_of_ofDocumentWith hcheck hc
  obtain ⟨n, hnode⟩ := lookup_eq_ok_iff.2 hlisted
  have hsafe : c.width < 2 ^ 53 := lt_of_le_of_lt (hheld .width).2.1 (by decide)
  exact ⟨n, hnode, ProcessTable.sound_of_lookup ht hnode, ⟨(hheld .depth).1, (hheld .width).1,
    (hheld .banks).1⟩, hsafe, (hheld .voltage).1⟩

theorem Raised.modelled {f : ConfigField} {c₀ : Config} {n : ProcessNode Float} (h : Raised f c₀ c)
    (hm : c₀.Modelled t n) : c.Modelled t n := by
  obtain ⟨n', hm'⟩ := exists_modelled hcheck ht hc
  have hsame : t.lookup c.processNode = .ok n := by
    rw [h.processNode_eq]
    exact hm.node
  cases hsame.symm.trans hm'.node
  exact hm'

end accepted

section modelled

variable {c : Config} {t : ProcessTable} {n : ProcessNode Float} {activity frequency : Document} {a q : Float}
  (hm : c.Modelled t n) (hwindow : c.InWindow n)

include hm

theorem Modelled.constants_pos (k : Constant) : 0 < (n.map toReal).get k :=
  Config.constants_pos hm.sound k

include hwindow

theorem Modelled.threshold_lt : (n.map toReal).vTh < toReal c.voltage :=
  Config.threshold_lt hm.sound hm.voltage hwindow

theorem Modelled.voltage_pos : 0 < toReal c.voltage :=
  (hm.constants_pos .vTh).trans (hm.threshold_lt hwindow)

theorem Modelled.answers (ha : activity.IsActivity a)
    (hq : frequency.IsFrequency (TimingEstimate.ofNode c n c.voltage).maxFrequency q) :
    c.Answers t n activity frequency a q where
  area := area_of_lookup hm.node
  timing := (timing_eq_ok_iff hm.node hm.sound hm.voltage).2 ⟨hwindow, rfl⟩
  power := (power_eq_ok_iff hm.node hm.sound hm.voltage).2 ⟨a, q, ha, hwindow, hq, rfl⟩

end modelled

section pair

variable {c c' : Config} {t : ProcessTable} {n : ProcessNode Float} {f : ConfigField} {frequency : Document}
  {a : Float} (hm : c.Modelled t n) (hm' : c'.Modelled t n) (hwindow : c.InWindow n)
  (hwindow' : c'.InWindow n)

theorem Raised.inWindow (h : Raised f c c') (hf : f ∈ ConfigField.features) (hwindow : c.InWindow n) :
    c'.InWindow n := by
  cases h with
  | powerGating | clockGating | retentionMode | eccEnable => exact hwindow
  | depth | width | banks | voltage => simp [ConfigField.features] at hf

/-- The switches of power gating toggle nothing. -/
theorem dynamic_of_powerGating (h : Raised .powerGating c c') :
    (c'.exactPower n a frequency).dynamic = (c.exactPower n a frequency).dynamic := by
  cases h with
  | powerGating => rfl

include hm

theorem stage_of_ecc (h : Raised .eccEnable c c') :
    (c'.exactTiming n).access = (c.exactTiming n).access ∧
      (c.exactTiming n).cycle < (c'.exactTiming n).cycle := by
  cases h with
  | eccEnable hoff =>
    exact TimingEstimate.cycleTime_lt_of_stage hm.constants_pos (.eccEnable hoff) (.inl rfl)

include hwindow

theorem static_lt_of_powerGating (h : Raised .powerGating c c') :
    (c'.exactPower n a frequency).static < (c.exactPower n a frequency).static := by
  have hless := PowerEstimate.staticPower_lt_of_powerGating hm.proper hm.constants_pos
    (hm.voltage_pos hwindow) h
  cases h with
  | powerGating => exact hless

theorem exactFrequency_le_of_clockGating (h : Raised .clockGating c c') (frequency : Document) :
    c'.exactFrequency n frequency ≤ c.exactFrequency n frequency := by
  have hlower : (c'.exactTiming n).maxFrequency < (c.exactTiming n).maxFrequency := by
    cases h with
    | clockGating hoff =>
      exact TimingEstimate.maxFrequency_lt hm.constants_pos (hm.threshold_lt hwindow)
        (TimingEstimate.cycleTime_lt_of_stage hm.constants_pos (.clockGating hoff) (.inr rfl)).2
  cases frequency with
  | number => exact le_rfl
  | undefined | null | boolean | integer | text | list | record => exact hlower.le

theorem dynamic_of_clockGating (h : Raised .clockGating c c') (hq : 0 < c'.exactFrequency n frequency)
    (ha : 0 ≤ toReal a) :
    (c'.exactPower n a frequency).dynamic ≤ (c.exactPower n a frequency).dynamic ∧
      (0 < toReal a → (c'.exactPower n a frequency).dynamic < (c.exactPower n a frequency).dynamic) := by
  have hv := hm.voltage_pos hwindow
  have hfrequency := exactFrequency_le_of_clockGating hm hwindow h frequency
  have hle := PowerEstimate.dynamicPower_le_of_clockGating hm.proper hm.constants_pos hv h hq hfrequency ha
  have hlt := PowerEstimate.dynamicPower_lt_of_clockGating (a := toReal a) hm.proper hm.constants_pos hv h hq
    hfrequency
  -- both stand at the voltage of the first, which the second shares
  cases h with
  | clockGating => exact ⟨hle, hlt⟩

include hm'

theorem static_lt_of_raised (h : Raised f c c') (hf : f = .voltage ∨ f = .banks ∨ f = .eccEnable) :
    (c.exactPower n a frequency).static < (c'.exactPower n a frequency).static := by
  have hv := hm.voltage_pos hwindow
  have htotal := AreaEstimate.total_lt hm.proper hm.constants_pos h
  cases h with
  | voltage hless =>
    exact PowerEstimate.staticPower_lt_of_voltage hm.proper hm.constants_pos
      ((toReal_lt_iff hm.voltage hm'.voltage).2 hless)
  | banks | eccEnable =>
    exact PowerEstimate.staticPower_lt_of_total hm.constants_pos hv (htotal (by decide) hm'.safe) rfl
  | depth | width | powerGating | clockGating | retentionMode => simp at hf

include hwindow'

theorem faster_of_raised (h : Raised f c c') (hf : f = .voltage ∨ f = .banks) :
    (c'.exactTiming n).Faster (c.exactTiming n) := by
  have hv := hm.threshold_lt hwindow
  have hv' := hm'.threshold_lt hwindow'
  cases h with
  | voltage hless =>
    have haccess := TimingEstimate.accessTime_lt_of_voltage (c := c) hm.constants_pos hv
      ((toReal_lt_iff hm.voltage hm'.voltage).2 hless)
    exact TimingEstimate.faster_of_access hm.constants_pos hv' haccess rfl rfl
  | banks hless =>
    exact TimingEstimate.faster_of_access hm.constants_pos hv'
      (TimingEstimate.accessTime_lt_of_banks hm.proper hm.constants_pos (.banks hless)) rfl rfl
  | depth | width | powerGating | clockGating | retentionMode | eccEnable => simp at hf

/-- The dynamic power rises with the highest frequency, and nothing that it goes with falls. -/
theorem dynamic_lt_of_raised (h : Raised f c c') (hf : f = .voltage ∨ f = .banks) (ha : 0 < toReal a) :
    (c.exactPower n a .undefined).dynamic < (c'.exactPower n a .undefined).dynamic := by
  have hv := hm.voltage_pos hwindow
  have hq := TimingEstimate.maxFrequency_pos (c := c) hm.constants_pos (hm.threshold_lt hwindow)
  have hfrequency := (faster_of_raised hm hm' hwindow hwindow' h hf).maxFrequency
  cases h with
  | voltage hless =>
    exact PowerEstimate.dynamicPower_lt hm.proper hm.constants_pos hv hq le_rfl rfl
      ((toReal_lt_iff hm.voltage hm'.voltage).2 hless).le hfrequency ha
  | banks hless =>
    have hcap := PowerEstimate.capacitance_le_of_banks hm.constants_pos (.banks hless)
    exact PowerEstimate.dynamicPower_lt hm.proper hm.constants_pos hv hq hcap rfl le_rfl hfrequency ha
  | depth | width | powerGating | clockGating | retentionMode | eccEnable => simp at hf

end pair

/-! ### One configuration over a list of activity factors -/

/-- The powers of a configuration over activity factors: those that switch grow with the factor and are
nothing where it is zero, the others stay. -/
structure SweepOrdered (c : Config) (n : ProcessNode Float) (frequency : Document)
    (factors : List Float) : Prop where
  dynamic : ∀ x ∈ factors, ∀ y ∈ factors, x < y →
    (c.exactPower n x frequency).dynamic < (c.exactPower n y frequency).dynamic
  total : ∀ x ∈ factors, ∀ y ∈ factors, x < y →
    (c.exactPower n x frequency).total < (c.exactPower n y frequency).total
  static : ∀ x ∈ factors, ∀ y ∈ factors,
    (c.exactPower n x frequency).static = (c.exactPower n y frequency).static
  retention : ∀ x ∈ factors, ∀ y ∈ factors,
    (c.exactPower n x frequency).retention = (c.exactPower n y frequency).retention
  idle : ∀ x ∈ factors, (c.exactPower n x frequency).dynamic = 0 ↔ toReal x = 0

section sweep

variable {c : Config} {t : ProcessTable} {n : ProcessNode Float} {frequency : Document} {q : Float}
  {factors : List Float} (hm : c.Modelled t n) (hwindow : c.InWindow n)
  (hq : frequency.IsFrequency (TimingEstimate.ofNode c n c.voltage).maxFrequency q)
  (hfactors : ∀ x ∈ factors, x.isFinite = true ∧ 0 ≤ x ∧ x ≤ 1)

include hm hwindow hq hfactors

theorem Modelled.sweep_eq : c.sweep (factors.map .number) frequency t =
    .ok (factors.map fun x => (.number x, PowerEstimate.ofNode c n c.voltage q x)) := by
  have hpower : ∀ x ∈ factors, c.power (.number x) frequency t =
      .ok (PowerEstimate.ofNode c n c.voltage q x) :=
    fun x hx => (hm.answers hwindow (.inr ⟨rfl, hfactors x hx⟩) hq).power
  clear hfactors
  unfold sweep
  induction factors with
  | nil => rfl
  | cons x xs ih =>
    rw [List.map_cons, List.mapM_cons, hpower x List.mem_cons_self,
      ih fun y hy => hpower y (List.mem_cons_of_mem x hy)]
    rfl

theorem Modelled.sweepOrdered : c.SweepOrdered n frequency factors := by
  have hv := hm.voltage_pos hwindow
  have hfrequency := exactFrequency_pos hm.sound hm.voltage hwindow hq
  have hdynamic : ∀ x ∈ factors, ∀ y ∈ factors, x < y →
      (c.exactPower n x frequency).dynamic < (c.exactPower n y frequency).dynamic := by
    intro x hx y hy hless
    exact PowerEstimate.dynamicPower_lt_of_activity hm.proper hm.constants_pos hv hfrequency
      ((toReal_lt_iff (hfactors x hx).1 (hfactors y hy).1).2 hless)
  refine ⟨hdynamic, ?_, fun _ _ _ _ => rfl, fun _ _ _ _ => rfl, ?_⟩
  · intro x hx y hy hless
    exact add_lt_add_left (hdynamic x hx y hy hless) _
  · intro x _
    exact PowerEstimate.dynamicPower_eq_zero_iff hm.proper hm.constants_pos hv hfrequency

end sweep

/-! ### The comparisons -/

/-- A small macro with error correction at a node of the built-in table. -/
def small (width : Nat) (voltage : Float) (gated : Bool) : Config :=
  ⟨8, width, 2, voltage, 7, false, gated, false, true⟩

def smallDocument (width : Nat) (voltage : Float) (gated : Bool) : Document :=
  .record [("depth", .ofNat 8), ("width", .ofNat width), ("banks", .ofNat 2), ("voltage", .number voltage),
    ("process_node", .ofNat 7), ("clock_gating", .boolean gated), ("ecc_enable", .boolean true)]

theorem inWindow_small {width : Nat} {voltage : Float} {gated : Bool} {n : ProcessNode Float}
    (hnode : ProcessTable.standard.lookup 7 = .ok n) (hv : 0.6 ≤ voltage ∧ voltage ≤ 0.9) :
    (small width voltage gated).InWindow n := by
  have hseven : ProcessTable.standard.lookup 7 =
      .ok ⟨0.027, 0.08, 90, 0.03, 0.12, 0.002, 0.06, 0.22, 0.035, 0.06, 0.6, 0.9, 0.75⟩ :=
    toOption_eq_some_iff.1 (by decide +kernel)
  cases hseven.symm.trans hnode
  exact hv

section main

variable {check : List (String × Document) → Except (List SchemaIssue) Config} {documents : List Document}
  {t : ProcessTable} {raw raw' : Document} {c c' : Config} {f : ConfigField}

/-- **Area is monotone in every field that it depends on.** For every table that successful merges make of
the built-in one and two configurations accepted under it that differ in one raised field: more words,
wider words, more banks and each feature take a larger area; a larger geometry in words or bits also has
larger bit cells; banks and features leave the bit cells a smaller share, and features leave them as they
are. Wider words have no fewer check bits. -/
theorem area_of_raised (hcheck : ChecksSchema check)
    (ht : documents.foldlM ProcessTable.merge .standard = .ok t)
    (hc : ofDocumentWith check raw t = .ok c) (hc' : ofDocumentWith check raw' t = .ok c')
    (h : Raised f c c') :
    ∃ n, t.lookup c.processNode = .ok n ∧
      c.area t = .ok (AreaEstimate.ofNode c n) ∧ c'.area t = .ok (AreaEstimate.ofNode c' n) ∧
      (f ∈ ConfigField.geometry ++ ConfigField.features →
        (c.exactArea n).total < (c'.exactArea n).total) ∧
      (f = .banks ∨ f ∈ ConfigField.features → (c'.exactArea n).efficiency < (c.exactArea n).efficiency) ∧
      (f ∈ ConfigField.features → (c'.exactArea n).bitcell = (c.exactArea n).bitcell) ∧
      (f = .depth ∨ f = .width → (c.exactArea n).bitcell < (c'.exactArea n).bitcell) ∧
      Ecc.checkBits c.width ≤ Ecc.checkBits c'.width := by
  obtain ⟨n, hm⟩ := exists_modelled hcheck ht hc
  have hm' := h.modelled hcheck ht hc' hm
  refine ⟨n, hm.node, area_of_lookup hm.node, area_of_lookup hm'.node, ?_, ?_, ?_, ?_, ?_⟩
  · exact fun hf => AreaEstimate.total_lt hm.proper hm.constants_pos h hf hm'.safe
  · exact fun hf => AreaEstimate.efficiency_lt hm.proper hm.constants_pos h hf hm'.safe
  · exact fun hf => AreaEstimate.bitcell_of_feature h hf
  · exact fun hf => AreaEstimate.bitcell_lt hm.proper hm.constants_pos h hf
  · exact h.checkBits_le hm'.safe

/-- At twelve bits a word needs a check bit more than at eleven. -/
theorem area_of_raised_width : ∃ c c' n, ChecksSchema checkSchema ∧
    [].foldlM ProcessTable.merge .standard = .ok .standard ∧
    ofDocument (smallDocument 11 0.75 false) .standard = .ok c ∧
    ofDocument (smallDocument 12 0.75 false) .standard = .ok c' ∧ Raised .width c c' ∧
    ProcessTable.standard.lookup c.processNode = .ok n ∧
    (c.exactArea n).bitcell < (c'.exactArea n).bitcell ∧
    (c.exactArea n).total < (c'.exactArea n).total ∧ Ecc.checkBits c.width ≤ Ecc.checkBits c'.width := by
  have ht : [].foldlM ProcessTable.merge .standard = .ok .standard := rfl
  have hc : ofDocument (smallDocument 11 0.75 false) .standard = .ok (small 11 0.75 false) :=
    toOption_eq_some_iff.1 (by decide +kernel)
  have hc' : ofDocument (smallDocument 12 0.75 false) .standard = .ok (small 12 0.75 false) :=
    toOption_eq_some_iff.1 (by decide +kernel)
  have h : Raised .width (small 11 0.75 false) (small 12 0.75 false) := .width (by decide)
  obtain ⟨n, hnode, -, -, htotal, -, -, hcells, hbits⟩ :=
    area_of_raised checksSchema_checkSchema ht hc hc' h
  exact ⟨_, _, n, checksSchema_checkSchema, ht, hc, hc', h, hnode, hcells (.inr rfl), htotal (by decide),
    hbits⟩

/-- **Gating lowers the power it is for.** For every table that successful merges make of the built-in one,
two configurations accepted under it of which the second gates what the first does not, a supply voltage in
the window, an activity factor and a frequency that both accept or none: power gating lowers the static and
the total power and leaves the dynamic power, although the area grows; clock gating does not raise the
dynamic power, and lowers it where anything toggles. -/
theorem power_of_gating (hcheck : ChecksSchema check)
    (ht : documents.foldlM ProcessTable.merge .standard = .ok t)
    (hc : ofDocumentWith check raw t = .ok c) (hc' : ofDocumentWith check raw' t = .ok c')
    (h : Raised f c c') (hf : f = .powerGating ∨ f = .clockGating) (activity frequency : Document) :
    ∃ n, t.lookup c.processNode = .ok n ∧ ∀ a q q', c.InWindow n → activity.IsActivity a →
      frequency.IsFrequency (TimingEstimate.ofNode c n c.voltage).maxFrequency q →
      frequency.IsFrequency (TimingEstimate.ofNode c' n c'.voltage).maxFrequency q' →
      c.Answers t n activity frequency a q ∧ c'.Answers t n activity frequency a q' ∧
      (f = .powerGating →
        (c'.exactPower n a frequency).dynamic = (c.exactPower n a frequency).dynamic ∧
        (c'.exactPower n a frequency).static < (c.exactPower n a frequency).static ∧
        (c'.exactPower n a frequency).total < (c.exactPower n a frequency).total ∧
        (c.exactArea n).total < (c'.exactArea n).total) ∧
      (f = .clockGating →
        (c'.exactPower n a frequency).dynamic ≤ (c.exactPower n a frequency).dynamic ∧
        (0 < toReal a →
          (c'.exactPower n a frequency).dynamic < (c.exactPower n a frequency).dynamic)) := by
  obtain ⟨n, hm⟩ := exists_modelled hcheck ht hc
  have hm' := h.modelled hcheck ht hc' hm
  have hfeature : f ∈ ConfigField.features := by
    rcases hf with rfl | rfl <;> decide
  refine ⟨n, hm.node, ?_⟩
  intro a q q' hwindow ha hq hq'
  have hwindow' := h.inWindow hfeature hwindow
  have harea := AreaEstimate.total_lt hm.proper hm.constants_pos h (List.mem_append_right _ hfeature) hm'.safe
  refine ⟨hm.answers hwindow ha hq, hm'.answers hwindow' ha hq', ?_, ?_⟩
  · rintro rfl
    have hdynamic : (c'.exactPower n a frequency).dynamic = (c.exactPower n a frequency).dynamic :=
      dynamic_of_powerGating h
    have hstatic : (c'.exactPower n a frequency).static < (c.exactPower n a frequency).static :=
      static_lt_of_powerGating hm hwindow h
    exact ⟨hdynamic, hstatic, add_lt_add_of_le_of_lt hdynamic.le hstatic, harea⟩
  · rintro rfl
    have hfrequency := exactFrequency_pos hm'.sound hm'.voltage hwindow' hq'
    exact dynamic_of_clockGating hm hwindow h hfrequency ha.toReal_nonneg

/-- The dynamic power where everything toggles, at the highest frequency with and without clock gating. -/
theorem power_of_gating_clock : ∃ c c' n, ChecksSchema checkSchema ∧
    [].foldlM ProcessTable.merge .standard = .ok .standard ∧
    ofDocument (smallDocument 8 0.75 false) .standard = .ok c ∧
    ofDocument (smallDocument 8 0.75 true) .standard = .ok c' ∧ Raised .clockGating c c' ∧
    ProcessTable.standard.lookup c.processNode = .ok n ∧ c.InWindow n ∧ (Document.number 1).IsActivity 1 ∧
    (c'.exactPower n 1 .undefined).dynamic < (c.exactPower n 1 .undefined).dynamic := by
  have ht : [].foldlM ProcessTable.merge .standard = .ok .standard := rfl
  have hc : ofDocument (smallDocument 8 0.75 false) .standard = .ok (small 8 0.75 false) :=
    toOption_eq_some_iff.1 (by decide +kernel)
  have hc' : ofDocument (smallDocument 8 0.75 true) .standard = .ok (small 8 0.75 true) :=
    toOption_eq_some_iff.1 (by decide +kernel)
  have h : Raised .clockGating (small 8 0.75 false) (small 8 0.75 true) := .clockGating rfl
  have hactivity : (Document.number 1).IsActivity 1 :=
    .inr ⟨rfl, by decide +kernel, by decide +kernel, by decide +kernel⟩
  obtain ⟨n, hnode, hpower⟩ :=
    power_of_gating checksSchema_checkSchema ht hc hc' h (.inr rfl) (.number 1) .undefined
  have hwindow : (small 8 0.75 false).InWindow n :=
    inWindow_small hnode ⟨by decide +kernel, by decide +kernel⟩
  obtain ⟨-, -, -, hclock⟩ := hpower 1 _ _ hwindow hactivity (.inl ⟨rfl, rfl⟩) (.inl ⟨rfl, rfl⟩)
  have hone : 0 < toReal 1 := Decimal.toReal_pos (by decide +kernel) (by decide +kernel)
  exact ⟨_, _, n, checksSchema_checkSchema, ht, hc, hc', h, hnode, hwindow, hactivity, (hclock rfl).2 hone⟩

/-- **Times and powers follow the operating point.** For every table that successful merges make of the
built-in one and a configuration accepted under it with its supply voltage in the window. Against another
that is accepted, has its voltage in the window and differs in one raised field, at the highest frequency
of each and one activity factor: a higher voltage and more banks shorten access and cycle, raise the highest
frequency and the static power, and the dynamic power where anything toggles; error correction lengthens the
cycle, not the access, and raises the static power. Over a list of activity factors, at any frequency that
is accepted, the sweep succeeds and its powers are ordered as the factors are. -/
theorem operating_point_ordered (hcheck : ChecksSchema check)
    (ht : documents.foldlM ProcessTable.merge .standard = .ok t)
    (hc : ofDocumentWith check raw t = .ok c) :
    ∃ n, t.lookup c.processNode = .ok n ∧ (c.InWindow n →
      (∀ f raw' c' activity a, ofDocumentWith check raw' t = .ok c' → Raised f c c' → c'.InWindow n →
        activity.IsActivity a →
        c.Answers t n activity .undefined a (TimingEstimate.ofNode c n c.voltage).maxFrequency ∧
        c'.Answers t n activity .undefined a (TimingEstimate.ofNode c' n c'.voltage).maxFrequency ∧
        (f = .voltage ∨ f = .banks →
          (c'.exactTiming n).Faster (c.exactTiming n) ∧
          (c.exactPower n a .undefined).static < (c'.exactPower n a .undefined).static ∧
          (0 < toReal a → (c.exactPower n a .undefined).dynamic < (c'.exactPower n a .undefined).dynamic)) ∧
        (f = .eccEnable →
          (c'.exactTiming n).access = (c.exactTiming n).access ∧
          (c.exactTiming n).cycle < (c'.exactTiming n).cycle ∧
          (c.exactPower n a .undefined).static < (c'.exactPower n a .undefined).static)) ∧
      (∀ frequency q factors,
        frequency.IsFrequency (TimingEstimate.ofNode c n c.voltage).maxFrequency q →
        (∀ x ∈ factors, x.isFinite = true ∧ 0 ≤ x ∧ x ≤ 1) →
        c.sweep (factors.map .number) frequency t =
          .ok (factors.map fun x => (.number x, PowerEstimate.ofNode c n c.voltage q x)) ∧
        c.SweepOrdered n frequency factors)) := by
  obtain ⟨n, hm⟩ := exists_modelled hcheck ht hc
  refine ⟨n, hm.node, fun hwindow => ⟨?_, ?_⟩⟩
  · intro f raw' c' activity a hc' h hwindow' ha
    have hm' := h.modelled hcheck ht hc' hm
    refine ⟨hm.answers hwindow ha (.inl ⟨rfl, rfl⟩), hm'.answers hwindow' ha (.inl ⟨rfl, rfl⟩), ?_, ?_⟩
    · intro hf
      exact ⟨faster_of_raised hm hm' hwindow hwindow' h hf, static_lt_of_raised hm hm' hwindow h (hf.imp_right .inl),
        dynamic_lt_of_raised hm hm' hwindow hwindow' h hf⟩
    · rintro rfl
      obtain ⟨haccess, hcycle⟩ := stage_of_ecc hm h
      exact ⟨haccess, hcycle, static_lt_of_raised hm hm' hwindow h (.inr (.inr rfl))⟩
  · intro frequency q factors hq hfactors
    exact ⟨hm.sweep_eq hwindow hq hfactors, hm.sweepOrdered hwindow hq hfactors⟩

/-- A supply voltage raised to the top of the window, and a sweep from nothing to half. -/
theorem operating_point_ordered_voltage : ∃ c c' n, ChecksSchema checkSchema ∧
    [].foldlM ProcessTable.merge .standard = .ok .standard ∧
    ofDocument (smallDocument 8 0.75 false) .standard = .ok c ∧
    ofDocument (smallDocument 8 0.9 false) .standard = .ok c' ∧ Raised .voltage c c' ∧
    ProcessTable.standard.lookup c.processNode = .ok n ∧ c.InWindow n ∧ c'.InWindow n ∧
    (Document.number 1).IsActivity 1 ∧
    (c'.exactTiming n).Faster (c.exactTiming n) ∧
    (c.exactPower n 1 .undefined).dynamic < (c'.exactPower n 1 .undefined).dynamic ∧
    (c.exactPower n 0 .undefined).total < (c.exactPower n 0.5 .undefined).total := by
  have ht : [].foldlM ProcessTable.merge .standard = .ok .standard := rfl
  have hc : ofDocument (smallDocument 8 0.75 false) .standard = .ok (small 8 0.75 false) :=
    toOption_eq_some_iff.1 (by decide +kernel)
  have hc' : ofDocument (smallDocument 8 0.9 false) .standard = .ok (small 8 0.9 false) :=
    toOption_eq_some_iff.1 (by decide +kernel)
  have h : Raised .voltage (small 8 0.75 false) (small 8 0.9 false) := .voltage (by decide +kernel)
  have hactivity : (Document.number 1).IsActivity 1 :=
    .inr ⟨rfl, by decide +kernel, by decide +kernel, by decide +kernel⟩
  have hone : 0 < toReal 1 := Decimal.toReal_pos (by decide +kernel) (by decide +kernel)
  obtain ⟨n, hnode, hordered⟩ := operating_point_ordered checksSchema_checkSchema ht hc
  have hwindow : (small 8 0.75 false).InWindow n :=
    inWindow_small hnode ⟨by decide +kernel, by decide +kernel⟩
  have hwindow' : (small 8 0.9 false).InWindow n :=
    inWindow_small hnode ⟨by decide +kernel, by decide +kernel⟩
  obtain ⟨hraised, hsweep⟩ := hordered hwindow
  obtain ⟨-, -, hfaster, -⟩ := hraised .voltage _ _ (.number 1) 1 hc' h hwindow' hactivity
  obtain ⟨hshort, -, hdynamic⟩ := hfaster (.inl rfl)
  obtain ⟨-, hordered⟩ := hsweep .undefined _ [0, 0.5] (.inl ⟨rfl, rfl⟩) (by decide +kernel)
  exact ⟨_, _, n, checksSchema_checkSchema, ht, hc, hc', h, hnode, hwindow, hwindow', hactivity, hshort,
    hdynamic hone, hordered.total 0 (by simp) 0.5 (by simp) (by decide +kernel)⟩

end main

end Config

end MemoryCompiler
