import MemoryCompiler.Proofs.Config.Acceptance
import MemoryCompiler.Proofs.Decimal.Reals
import MemoryCompiler.Proofs.Estimate.Formulas
import MemoryCompiler.Proofs.Process.Tables

/-!
# When an estimate is refused

The three estimates of a configuration that is accepted under a sound table. The area always has one;
the timing has one when the supply voltage is inside the window of the node; the power asks in this order
for an activity factor, for a supply voltage in the window and for a frequency that the cycle time admits,
and reports the first that fails (`Config.power_eq_error_iff`, `Config.power_eq_ok_iff`). Where there is an
estimate, its formula in real arithmetic is sound. The main statement is `Config.estimates_verdict`.
-/

namespace MemoryCompiler

open Decimal (toReal toReal_lt_iff toReal_le_iff toReal_pos toReal_nonneg)

/-! ### What the checks ask for -/

namespace Document

/-- The activity factor in force: a finite number from 0 to 1, or the default where none is given. -/
def IsActivity (v : Document) (a : Float) : Prop :=
  v = undefined ∧ a = defaultActivity ∨ v = number a ∧ a.isFinite = true ∧ 0 ≤ a ∧ a ≤ 1

/-- The frequency in force: a finite number above zero that does not exceed the highest one, or the
highest one where none is given. -/
def IsFrequency (highest : Float) (v : Document) (f : Float) : Prop :=
  v = undefined ∧ f = highest ∨ v = number f ∧ f.isFinite = true ∧ 0 < f ∧ ¬ highest < f

end Document

namespace Config

/-- The supply voltage is inside the window of a node. -/
def InWindow (c : Config) (n : ProcessNode Float) : Prop := n.vMin ≤ c.voltage ∧ c.voltage ≤ n.vMax

def voltageError (c : Config) (n : ProcessNode Float) : EstimateError :=
  .outOfRange ⟨"voltage", .number c.voltage, n.vMin, n.vMax, c.processNode, false⟩

def frequencyError (c : Config) (highest : Float) (frequency : Document) : EstimateError :=
  .outOfRange ⟨"frequency_mhz", frequency, 0, highest, c.processNode, true⟩

end Config

section checks

variable {v : Document} {a : Float}

theorem checkActivity_eq_ok_iff : checkActivity v = .ok a ↔ v.IsActivity a := by
  unfold checkActivity Document.IsActivity
  cases v with
  | undefined =>
    simp only [Except.ok.injEq, true_and, reduceCtorEq, false_and, or_false]
    exact eq_comm
  | number x =>
    by_cases hx : x.isFinite = true ∧ 0 ≤ x ∧ x ≤ 1
    · simp only [hx, decide_true, Bool.and_self, if_true, Except.ok.injEq, Document.number.injEq,
        reduceCtorEq, false_and, false_or]
      constructor
      · rintro rfl
        exact ⟨rfl, hx⟩
      · exact fun h => h.1
    · have hguard : ¬ (x.isFinite && decide (0 ≤ x) && decide (x ≤ 1)) = true := by
        simpa [and_assoc] using hx
      simp only [hguard, if_false, Document.number.injEq, reduceCtorEq, false_and, false_or, false_iff]
      rintro ⟨rfl, h⟩
      exact hx h
  | null | boolean | integer | text | list | record => simp

theorem checkActivity_eq_error_iff {e : EstimateError} :
    checkActivity v = .error e ↔ (¬ ∃ a, v.IsActivity a) ∧ e = .badActivity v := by
  simp only [← checkActivity_eq_ok_iff]
  unfold checkActivity
  split
  · simp
  · split_ifs
    · simp
    · simp [eq_comm]
  · simp [eq_comm]

variable {c : Config} {highest f : Float}

theorem checkFrequency_eq_ok_iff :
    checkFrequency c highest v = .ok f ↔ v.IsFrequency highest f := by
  unfold checkFrequency Document.IsFrequency
  cases v with
  | undefined =>
    simp only [Except.ok.injEq, true_and, reduceCtorEq, false_and, or_false]
    exact eq_comm
  | number x =>
    by_cases hx : x.isFinite = true ∧ 0 < x ∧ ¬ highest < x
    · simp only [hx, decide_true, decide_false, Bool.not_false, Bool.and_self, if_true, Except.ok.injEq,
        Document.number.injEq, reduceCtorEq, false_and, false_or]
      constructor
      · rintro rfl
        exact ⟨rfl, hx⟩
      · exact fun h => h.1
    · have hguard : ¬ (x.isFinite && decide (0 < x) && !decide (highest < x)) = true := by
        simpa [and_assoc] using hx
      simp only [hguard, if_false, Document.number.injEq, reduceCtorEq, false_and, false_or, false_iff]
      rintro ⟨rfl, h⟩
      exact hx h
  | null | boolean | integer | text | list | record => simp

theorem checkFrequency_eq_error_iff {e : EstimateError} : checkFrequency c highest v = .error e ↔
    (¬ ∃ f, v.IsFrequency highest f) ∧ e = c.frequencyError highest v := by
  simp only [← checkFrequency_eq_ok_iff (c := c)]
  unfold checkFrequency Config.frequencyError
  split
  · simp
  · split_ifs
    · simp
    · simp [eq_comm]
  · simp [eq_comm]

end checks

namespace Config

section verdicts

variable {c : Config} {n : ProcessNode Float} {t : ProcessTable} {activity frequency : Document}
  {e : EstimateError}

theorem checkVoltage_eq_ok_iff (hn : n.Sound) (hv : c.voltage.isFinite = true) :
    c.checkVoltage n = .ok () ↔ c.InWindow n := by
  have hmin : n.vMin.isFinite = true := hn.finite .vMin
  have hmax : n.vMax.isFinite = true := hn.finite .vMax
  unfold checkVoltage InWindow
  rw [← Decimal.not_lt_iff hv hmin, ← Decimal.not_lt_iff hmax hv]
  split_ifs with h
  · simp at h
    simp
    tauto
  · simpa using h

theorem checkVoltage_eq_error_iff (hn : n.Sound) (hv : c.voltage.isFinite = true) :
    c.checkVoltage n = .error e ↔ ¬ c.InWindow n ∧ e = c.voltageError n := by
  rw [← checkVoltage_eq_ok_iff hn hv]
  unfold checkVoltage voltageError
  split_ifs
  · simp [eq_comm]
  · simp

/-! ### The estimates of a configuration -/

variable (hnode : t.lookup c.processNode = .ok n)

include hnode

theorem node_of_lookup : c.node t = .ok n := by
  unfold node
  rw [hnode]

theorem area_of_lookup : c.area t = .ok (AreaEstimate.ofNode c n) := by
  unfold area
  rw [hnode]
  rfl

variable (hn : n.Sound) (hv : c.voltage.isFinite = true)

include hn hv

theorem timing_eq_ok_iff {r : TimingEstimate Float} :
    c.timing t = .ok r ↔ c.InWindow n ∧ r = TimingEstimate.ofNode c n c.voltage := by
  unfold timing
  rw [node_of_lookup hnode]
  simp only [bind_eq_ok_iff, Except.ok.injEq, exists_eq_left', ← checkVoltage_eq_ok_iff hn hv]
  constructor
  · rintro ⟨_, hcheck, hr⟩
    exact ⟨hcheck, (Except.ok.inj hr).symm⟩
  · rintro ⟨hcheck, rfl⟩
    exact ⟨(), hcheck, rfl⟩

theorem timing_eq_error_iff : c.timing t = .error e ↔ ¬ c.InWindow n ∧ e = c.voltageError n := by
  unfold timing
  rw [node_of_lookup hnode]
  simp only [bind_eq_error_iff, reduceCtorEq, false_or, Except.ok.injEq, exists_eq_left',
    checkVoltage_eq_error_iff hn hv]
  constructor
  · rintro (h | ⟨_, -, h⟩)
    · exact h
    · cases h
  · exact .inl

theorem power_eq_ok_iff {p : PowerEstimate Float} : c.power activity frequency t = .ok p ↔
    ∃ a f, activity.IsActivity a ∧ c.InWindow n ∧
      frequency.IsFrequency (TimingEstimate.ofNode c n c.voltage).maxFrequency f ∧
      p = PowerEstimate.ofNode c n c.voltage f a := by
  unfold power
  rw [node_of_lookup hnode]
  simp only [bind_eq_ok_iff, Except.ok.injEq, exists_eq_left', checkActivity_eq_ok_iff,
    checkFrequency_eq_ok_iff, timing_eq_ok_iff hnode hn hv]
  constructor
  · rintro ⟨a, ha, _, ⟨hwindow, rfl⟩, f, hf, hp⟩
    exact ⟨a, f, ha, hwindow, hf, (Except.ok.inj hp).symm⟩
  · rintro ⟨a, f, ha, hwindow, hf, rfl⟩
    exact ⟨a, ha, _, ⟨hwindow, rfl⟩, f, hf, rfl⟩

theorem power_eq_error_iff : c.power activity frequency t = .error e ↔
    (¬ ∃ a, activity.IsActivity a) ∧ e = .badActivity activity ∨
    (∃ a, activity.IsActivity a) ∧ ¬ c.InWindow n ∧ e = c.voltageError n ∨
    (∃ a, activity.IsActivity a) ∧ c.InWindow n ∧
      (¬ ∃ f, frequency.IsFrequency (TimingEstimate.ofNode c n c.voltage).maxFrequency f) ∧
      e = c.frequencyError (TimingEstimate.ofNode c n c.voltage).maxFrequency frequency := by
  unfold power
  rw [node_of_lookup hnode]
  simp only [bind_eq_error_iff, Except.ok.injEq, exists_eq_left', reduceCtorEq, false_or,
    checkActivity_eq_ok_iff, checkActivity_eq_error_iff, checkFrequency_eq_error_iff,
    timing_eq_ok_iff hnode hn hv, timing_eq_error_iff hnode hn hv]
  refine or_congr_right ?_
  constructor
  · rintro ⟨a, ha, h | ⟨_, ⟨hwindow, rfl⟩, h | ⟨f, -, h⟩⟩⟩
    · exact .inl ⟨⟨a, ha⟩, h⟩
    · exact .inr ⟨⟨a, ha⟩, hwindow, h⟩
    · cases h
  · rintro (⟨⟨a, ha⟩, h⟩ | ⟨⟨a, ha⟩, hwindow, h⟩)
    · exact ⟨a, ha, .inl h⟩
    · exact ⟨a, ha, .inr ⟨_, ⟨hwindow, rfl⟩, .inl h⟩⟩

end verdicts

/-! ### The estimates read as reals -/

noncomputable def exactArea (c : Config) (n : ProcessNode Float) : AreaEstimate ℝ :=
  AreaEstimate.ofNode c (n.map toReal)

noncomputable def exactTiming (c : Config) (n : ProcessNode Float) : TimingEstimate ℝ :=
  TimingEstimate.ofNode c (n.map toReal) (toReal c.voltage)

noncomputable def exactFrequency (c : Config) (n : ProcessNode Float) (frequency : Document) : ℝ :=
  match frequency with
  | .number f => toReal f
  | _ => (c.exactTiming n).maxFrequency

noncomputable def exactPower (c : Config) (n : ProcessNode Float) (activity : Float)
    (frequency : Document) : PowerEstimate ℝ :=
  PowerEstimate.ofNode c (n.map toReal) (toReal c.voltage) (c.exactFrequency n frequency)
    (toReal activity)

section exact

variable {c : Config} {n : ProcessNode Float} (hn : n.Sound)

include hn

theorem constants_pos (k : Constant) : 0 < (n.map toReal).get k := by
  rw [ProcessNode.map, ProcessNode.get_ofFn]
  exact toReal_pos (hn.finite k) (hn.positive k)

variable (hv : c.voltage.isFinite = true) (hwindow : c.InWindow n)

include hv hwindow

theorem threshold_lt : (n.map toReal).vTh < toReal c.voltage := by
  have hlow := (toReal_lt_iff (hn.finite .vTh) (hn.finite .vMin)).2 hn.threshold
  have hhigh := (toReal_le_iff (hn.finite .vMin) hv).2 hwindow.1
  exact lt_of_lt_of_le hlow hhigh

theorem sound_exactTiming : (c.exactTiming n).Sound :=
  TimingEstimate.sound_ofNode (constants_pos hn) (threshold_lt hn hv hwindow)

theorem exactFrequency_pos {highest f : Float} {frequency : Document}
    (hf : frequency.IsFrequency highest f) : 0 < c.exactFrequency n frequency := by
  rcases hf with ⟨rfl, -⟩ | ⟨rfl, hfinite, hpos, -⟩
  · exact TimingEstimate.maxFrequency_pos (constants_pos hn) (threshold_lt hn hv hwindow)
  · exact toReal_pos hfinite hpos

theorem sound_exactPower {highest a f : Float} {activity frequency : Document} (hc : c.Proper)
    (ha : activity.IsActivity a) (hf : frequency.IsFrequency highest f) :
    (c.exactPower n a frequency).Sound c.retentionMode := by
  have hvoltage : 0 < toReal c.voltage :=
    (constants_pos hn .vTh).trans (threshold_lt hn hv hwindow)
  have hactivity : 0 ≤ toReal a := by
    rcases ha with ⟨-, rfl⟩ | ⟨-, hfinite, hnonneg, -⟩
    · exact toReal_nonneg (by decide +kernel) (by decide +kernel)
    · exact toReal_nonneg hfinite hnonneg
  exact PowerEstimate.sound_ofNode hc (constants_pos hn) hvoltage
    (exactFrequency_pos hn hv hwindow hf) hactivity

end exact

/-- **Estimates are refused outside the window of the model, and are sound inside.** For every table that
successful merges make of the built-in one and every configuration accepted under it: the power estimate
is refused for its activity factor, else for its supply voltage, else for its frequency, and for nothing
else; the timing for its supply voltage only, the area never. Where an estimate is given, its formula has
in real arithmetic no divisor that is not above zero, and its quantities are sound. -/
theorem estimates_verdict
    {check : List (String × Document) → Except (List SchemaIssue) Config} (hcheck : ChecksSchema check)
    {documents : List Document} {t : ProcessTable}
    (ht : documents.foldlM ProcessTable.merge .standard = .ok t) {raw : Document} {c : Config}
    (hc : ofDocumentWith check raw t = .ok c) (activity frequency : Document) :
    ∃ n, t.lookup c.processNode = .ok n ∧
      (∀ e, c.power activity frequency t = .error e ↔
        (¬ ∃ a, activity.IsActivity a) ∧ e = .badActivity activity ∨
        (∃ a, activity.IsActivity a) ∧ ¬ c.InWindow n ∧ e = c.voltageError n ∨
        (∃ a, activity.IsActivity a) ∧ c.InWindow n ∧
          (¬ ∃ f, frequency.IsFrequency (1000.0 / (TimingEstimate.ofNode c n c.voltage).cycle) f) ∧
          e = c.frequencyError (1000.0 / (TimingEstimate.ofNode c n c.voltage).cycle) frequency) ∧
      (∀ p, c.power activity frequency t = .ok p ↔ ∃ a f, activity.IsActivity a ∧ c.InWindow n ∧
        frequency.IsFrequency (1000.0 / (TimingEstimate.ofNode c n c.voltage).cycle) f ∧
        p = PowerEstimate.ofNode c n c.voltage f a) ∧
      (∀ e, c.timing t = .error e ↔ ¬ c.InWindow n ∧ e = c.voltageError n) ∧
      (∀ r, c.timing t = .ok r ↔ c.InWindow n ∧ r = TimingEstimate.ofNode c n c.voltage) ∧
      c.area t = .ok (AreaEstimate.ofNode c n) ∧
      (0 < (c.banks : ℝ) ∧ (c.exactArea n).Sound) ∧
      (c.InWindow n → 0 < toReal c.voltage - toReal n.vTh ∧ (c.exactTiming n).Sound ∧
        ∀ a f, activity.IsActivity a →
          frequency.IsFrequency (1000.0 / (TimingEstimate.ofNode c n c.voltage).cycle) f →
          (c.exactPower n a frequency).Sound c.retentionMode) := by
  obtain ⟨hheld, hlisted⟩ := holds_of_ofDocumentWith hcheck hc
  have hproper : c.Proper := ⟨(hheld .depth).1, (hheld .width).1, (hheld .banks).1⟩
  have hv : c.voltage.isFinite = true := (hheld .voltage).1
  obtain ⟨n, hnode⟩ := lookup_eq_ok_iff.2 hlisted
  have hn : n.Sound := by
    have hfind : t.find? c.processNode = some n := by
      unfold ProcessTable.lookup at hnode
      split at hnode
      · next hfind =>
        cases hnode
        exact hfind
      · cases hnode
    exact (ProcessTable.sound_standard.merges ht _ (ProcessTable.mem_of_find? hfind)).2
  refine ⟨n, hnode, fun e => power_eq_error_iff hnode hn hv, fun p => power_eq_ok_iff hnode hn hv,
    fun e => timing_eq_error_iff hnode hn hv, fun r => timing_eq_ok_iff hnode hn hv,
    area_of_lookup hnode, ?_, ?_⟩
  · exact ⟨Nat.cast_pos.2 hproper.banks, AreaEstimate.sound_ofNode hproper (constants_pos hn)⟩
  · intro hwindow
    refine ⟨sub_pos.2 (threshold_lt hn hv hwindow), sound_exactTiming hn hv hwindow, ?_⟩
    intro a f ha hf
    exact sound_exactPower hn hv hwindow hproper ha hf

/-- A node patched down to half a volt, at that voltage and the highest activity, with retention. -/
theorem estimates_verdict_patched : ∃ t c n, ChecksSchema checkSchema ∧
    [Document.record [("process_nodes", .record [("7", .record [("v_min", .text "0.5")])])]].foldlM
      ProcessTable.merge .standard = .ok t ∧
    ofDocument (.record [("depth", .ofNat 8), ("width", .ofNat 8), ("banks", .ofNat 2),
      ("voltage", .number 0.5), ("process_node", .ofNat 7), ("retention_mode", .boolean true)]) t = .ok c ∧
    c.InWindow n ∧ 0 < toReal c.voltage - toReal n.vTh ∧
    (Document.number 1).IsActivity 1 ∧ 0 < (c.exactPower n 1 .undefined).retention := by
  have hrun : ([Document.record [("process_nodes", .record
      [("7", .record [("v_min", .text "0.5")])])]].foldlM ProcessTable.merge .standard).toOption.bind
      (fun t => (ofDocument (.record [("depth", .ofNat 8), ("width", .ofNat 8), ("banks", .ofNat 2),
        ("voltage", .number 0.5), ("process_node", .ofNat 7), ("retention_mode", .boolean true)])
        t).toOption.bind fun c => (t.lookup c.processNode).toOption.map fun n => (c, n)) =
      some (⟨8, 8, 2, 0.5, 7, false, false, true, false⟩,
        ⟨0.027, 0.08, 90, 0.03, 0.12, 0.002, 0.06, 0.22, 0.035, 0.06, 0.5, 0.9, 0.75⟩) := by
    decide +kernel
  simp only [Option.bind_eq_some_iff, Option.map_eq_some_iff, toOption_eq_some_iff,
    Prod.mk.injEq] at hrun
  obtain ⟨t, ht, c, hc, n, hlookup, rfl, rfl⟩ := hrun
  obtain ⟨n, hnode, -, -, -, -, -, -, hsound⟩ :=
    estimates_verdict checksSchema_checkSchema ht hc (.number 1) .undefined
  cases hlookup.symm.trans hnode
  have hactivity : (Document.number 1).IsActivity 1 :=
    .inr ⟨rfl, by decide +kernel, by decide +kernel, by decide +kernel⟩
  have hwindow : Config.InWindow ⟨8, 8, 2, 0.5, 7, false, false, true, false⟩
      ⟨0.027, 0.08, 90, 0.03, 0.12, 0.002, 0.06, 0.22, 0.035, 0.06, 0.5, 0.9, 0.75⟩ :=
    ⟨by decide +kernel, by decide +kernel⟩
  obtain ⟨hdrive, -, hpower⟩ := hsound hwindow
  exact ⟨t, _, _, checksSchema_checkSchema, ht, hc, hwindow, hdrive, hactivity,
    ((hpower 1 _ hactivity (.inl ⟨rfl, rfl⟩)).within rfl).1⟩

end Config

end MemoryCompiler
