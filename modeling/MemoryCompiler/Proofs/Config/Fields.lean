import MemoryCompiler.Config.Check
import MemoryCompiler.Proofs.Decimal.WholeDoubles

/-!
# The fields of a configuration

What each field of a record has to be on its own (`ConfigField.Admits`), in the terms of a reader: a
whole number from 1 to the safe limit, a finite number above zero, a truth value or nothing. The checks
that the schema chains on a number come to the same (`ConfigField.admits_iff`), a value that passes them
has no issues (`ConfigField.issues_eq_nil_iff`), and what it stands for is what the configuration holds
(`Config.holds_iff`, `Config.reads_ofFields`).
-/

namespace MemoryCompiler

open Document (fieldIn)

/-! ### The rules -/

namespace Document

/-- A whole number from 1 to the safe limit. -/
def IsCount (v : Document) (n : Nat) : Prop := 0 < n ∧ n ≤ Decimal.safeLimit ∧ v = ofNat n

/-- A finite number above zero. -/
def IsSupply (v : Document) (x : Float) : Prop := x.isFinite = true ∧ 0 < x ∧ v = number x

/-- A truth value, or nothing, which stands for `false`. -/
def IsSwitch (v : Document) (b : Bool) : Prop := v = boolean b ∨ v = undefined ∧ b = false

/-- A number that stands for a whole one. -/
def IsWhole (v : Document) (n : Nat) : Prop :=
  ∃ x, v = number x ∧ Decimal.wholeValue x = some (n : Int)

/-- The value that a configuration holds for a given one. -/
def settled (v : Document) : Document := if v.isUndefined then boolean false else v

end Document

/-- The rule of a field on its own. -/
def ConfigField.Admits : ConfigField → Document → Prop
  | .depth, v | .width, v | .banks, v | .processNode, v => ∃ n, v.IsCount n
  | .voltage, v => ∃ x, v.IsSupply x
  | .powerGating, v | .clockGating, v | .retentionMode, v | .eccEnable, v => ∃ b, v.IsSwitch b

def FieldSchema.Passes : FieldSchema → Document → Prop
  | .number checks, v => ∃ x, v = .number x ∧ x.isNaN = false ∧ ∀ c ∈ checks, c.passes x = true
  | .switch, v => v = .undefined ∨ ∃ b, v = .boolean b

def SchemaIssue.IsAbout (issue : SchemaIssue) (f : ConfigField) : Prop :=
  issue = .invalid f ∨ ∃ maximum, issue = .tooLarge f maximum

namespace Config

/-- The value is read as the field of a configuration. -/
def Reads (c : Config) : ConfigField → Document → Prop
  | .depth, v => v.IsWhole c.depth
  | .width, v => v.IsWhole c.width
  | .banks, v => v.IsWhole c.banks
  | .voltage, v => v = .number c.voltage
  | .processNode, v => v.IsWhole c.processNode
  | .powerGating, v => v.IsSwitch c.powerGating
  | .clockGating, v => v.IsSwitch c.clockGating
  | .retentionMode, v => v.IsSwitch c.retentionMode
  | .eccEnable, v => v.IsSwitch c.eccEnable

/-- The value keeps the rule of a field and stands for the field of a configuration. -/
def Holds (c : Config) : ConfigField → Document → Prop
  | .depth, v => v.IsCount c.depth
  | .width, v => v.IsCount c.width
  | .banks, v => v.IsCount c.banks
  | .voltage, v => v.IsSupply c.voltage
  | .processNode, v => v.IsCount c.processNode
  | .powerGating, v => v.IsSwitch c.powerGating
  | .clockGating, v => v.IsSwitch c.clockGating
  | .retentionMode, v => v.IsSwitch c.retentionMode
  | .eccEnable, v => v.IsSwitch c.eccEnable

end Config

/-! ### Counts, supplies and switches -/

namespace Document

variable {v : Document}

theorem exists_isCount_iff :
    (∃ n, v.IsCount n) ↔ (FieldSchema.number [.whole, .positive, .safe]).Passes v := by
  have hpasses : ∀ x : Float, (∀ c ∈ [NumberCheck.whole, .positive, .safe], c.passes x = true) ↔
      ∃ n, 0 < n ∧ n ≤ Decimal.safeLimit ∧ x = Float.ofNat n := by
    intro x
    rw [← Decimal.isCount_iff]
    simp [NumberCheck.passes]
  constructor
  · rintro ⟨n, hpos, hle, rfl⟩
    have hfinite := Decimal.isFinite_ofNat hpos (Nat.lt_succ_of_le hle)
    exact ⟨_, rfl, Decimal.isNaN_of_isFinite hfinite, (hpasses _).2 ⟨n, hpos, hle, rfl⟩⟩
  · rintro ⟨x, rfl, -, hx⟩
    obtain ⟨n, hpos, hle, rfl⟩ := (hpasses x).1 hx
    exact ⟨n, hpos, hle, rfl⟩

theorem IsCount.isWhole {n : Nat} (h : v.IsCount n) : v.IsWhole n := by
  obtain ⟨hpos, hle, rfl⟩ := h
  exact ⟨_, rfl, (Decimal.wholeValue_eq_some_iff hpos (Nat.lt_succ_of_le hle)).2 rfl⟩

theorem IsWhole.unique {m n : Nat} (hm : v.IsWhole m) (hn : v.IsWhole n) : m = n := by
  obtain ⟨x, rfl, hm⟩ := hm
  obtain ⟨y, hy, hn⟩ := hn
  cases hy
  rw [hm] at hn
  exact Int.ofNat.inj (Option.some.inj hn)

theorem IsCount.unique {m n : Nat} (hm : v.IsCount m) (hn : v.IsCount n) : m = n :=
  hm.isWhole.unique hn.isWhole

theorem isCount_iff {n : Nat} : v.IsCount n ↔
    (FieldSchema.number [.whole, .positive, .safe]).Passes v ∧ v.IsWhole n := by
  constructor
  · exact fun h => ⟨exists_isCount_iff.1 ⟨n, h⟩, h.isWhole⟩
  · rintro ⟨hpass, hn⟩
    obtain ⟨m, hm⟩ := exists_isCount_iff.2 hpass
    rwa [hn.unique hm.isWhole]

theorem isSupply_iff {x : Float} :
    v.IsSupply x ↔ (FieldSchema.number [.finite, .positive]).Passes v ∧ v = .number x := by
  constructor
  · rintro ⟨hfinite, hpos, rfl⟩
    refine ⟨⟨x, rfl, Decimal.isNaN_of_isFinite hfinite, ?_⟩, rfl⟩
    simp [NumberCheck.passes, hfinite, hpos]
  · rintro ⟨⟨y, rfl, -, hy⟩, hx⟩
    cases hx
    simp only [List.forall_mem_cons, NumberCheck.passes, decide_eq_true_eq] at hy
    exact ⟨hy.1, hy.2.1, rfl⟩

theorem exists_isSupply_iff :
    (∃ x, v.IsSupply x) ↔ (FieldSchema.number [.finite, .positive]).Passes v := by
  constructor
  · rintro ⟨x, hx⟩
    exact (isSupply_iff.1 hx).1
  · rintro ⟨x, rfl, hx⟩
    exact ⟨x, isSupply_iff.2 ⟨⟨x, rfl, hx⟩, rfl⟩⟩

theorem exists_isSwitch_iff : (∃ b, v.IsSwitch b) ↔ FieldSchema.switch.Passes v := by
  constructor
  · rintro ⟨b, rfl | ⟨rfl, -⟩⟩
    · exact .inr ⟨b, rfl⟩
    · exact .inl rfl
  · rintro (rfl | ⟨b, rfl⟩)
    · exact ⟨false, .inr ⟨rfl, rfl⟩⟩
    · exact ⟨b, .inl rfl⟩

theorem IsSwitch.unique {a b : Bool} (ha : v.IsSwitch a) (hb : v.IsSwitch b) : a = b := by
  rcases ha with rfl | ⟨rfl, rfl⟩
  · rcases hb with hb | ⟨hb, -⟩
    · exact boolean.inj hb
    · cases hb
  · rcases hb with hb | ⟨-, rfl⟩
    · cases hb
    · rfl

end Document

/-! ### Schemas and their issues -/

theorem NumberCheck.isAbout_issue (c : NumberCheck) (f : ConfigField) (x : Float) :
    (c.issue f x).IsAbout f := by
  cases c with
  | whole | positive | finite => exact .inl rfl
  | safe =>
    rw [NumberCheck.issue]
    split_ifs
    · exact .inr ⟨_, rfl⟩
    · exact .inl rfl

namespace ConfigField

variable {f : ConfigField} {v : Document}

/-- The rule of a field is its schema. -/
theorem admits_iff : f.Admits v ↔ f.schema.Passes v := by
  cases f with
  | depth | width | banks | processNode => exact Document.exists_isCount_iff
  | voltage => exact Document.exists_isSupply_iff
  | powerGating | clockGating | retentionMode | eccEnable => exact Document.exists_isSwitch_iff

theorem issues_eq_nil_iff : f.issues v = [] ↔ f.schema.Passes v := by
  unfold ConfigField.issues
  generalize f.schema = schema
  cases schema with
  | number checks =>
    cases v with
    | number x =>
      have hpasses : (FieldSchema.number checks).Passes (.number x) ↔
          x.isNaN = false ∧ ∀ c ∈ checks, c.passes x = true :=
        ⟨fun ⟨y, hy, h⟩ => Document.number.inj hy ▸ h, fun h => ⟨x, rfl, h⟩⟩
      dsimp only
      rw [hpasses]
      cases x.isNaN <;> simp
    | undefined | null | boolean | integer | text | list | record => simp [FieldSchema.Passes]
  | switch => cases v <;> simp [FieldSchema.Passes]

theorem isAbout_of_mem_issues {issue : SchemaIssue} (h : issue ∈ f.issues v) : issue.IsAbout f := by
  have hinvalid : ∀ i ∈ [SchemaIssue.invalid f], i.IsAbout f := fun i hi =>
    .inl (List.mem_singleton.1 hi)
  unfold ConfigField.issues at h
  generalize f.schema = schema at h
  cases schema with
  | number checks =>
    cases v with
    | number x =>
      dsimp only at h
      split_ifs at h
      · exact hinvalid issue h
      · obtain ⟨c, -, rfl⟩ := List.mem_map.1 h
        exact c.isAbout_issue f x
    | undefined | null | boolean | integer | text | list | record => exact hinvalid issue h
  | switch =>
    cases v with
    | undefined | boolean => cases h
    | null | number | integer | text | list | record => exact hinvalid issue h

end ConfigField

/-! ### What a configuration holds -/

namespace Config

variable {c : Config} {f : ConfigField} {v : Document}

theorem holds_iff : c.Holds f v ↔ f.schema.Passes v ∧ c.Reads f v := by
  have hswitch : ∀ {b : Bool}, v.IsSwitch b ↔ FieldSchema.switch.Passes v ∧ v.IsSwitch b :=
    ⟨fun h => ⟨Document.exists_isSwitch_iff.1 ⟨_, h⟩, h⟩, And.right⟩
  cases f with
  | depth | width | banks | processNode => exact Document.isCount_iff
  | voltage => exact Document.isSupply_iff
  | powerGating | clockGating | retentionMode | eccEnable => exact hswitch

theorem Holds.admits (h : c.Holds f v) : f.Admits v := ConfigField.admits_iff.2 (holds_iff.1 h).1

theorem Holds.get_eq (h : c.Holds f v) : c.get f = v.settled := by
  have hcount : ∀ {n : Nat}, v.IsCount n → Document.ofNat n = v.settled := by
    rintro n ⟨-, -, rfl⟩
    rfl
  have hswitch : ∀ {b : Bool}, v.IsSwitch b → Document.boolean b = v.settled := by
    rintro b (rfl | ⟨rfl, rfl⟩)
    · rfl
    · rfl
  cases f with
  | depth | width | banks | processNode => exact hcount h
  | voltage =>
    obtain ⟨-, -, rfl⟩ := h
    rfl
  | powerGating | clockGating | retentionMode | eccEnable => exact hswitch h

theorem Holds.self (h : c.Holds f v) : c.Holds f (c.get f) := by
  cases f with
  | depth | width | banks | processNode => exact ⟨h.1, h.2.1, rfl⟩
  | voltage => exact ⟨h.1, h.2.1, rfl⟩
  | powerGating | clockGating | retentionMode | eccEnable => exact .inl rfl

theorem Reads.unique {c' : Config} {value : ConfigField → Document}
    (h : ∀ f, c.Reads f (value f)) (h' : ∀ f, c'.Reads f (value f)) : c = c' := by
  have hnumber : c.voltage = c'.voltage :=
    Document.number.inj ((h .voltage).symm.trans (h' .voltage))
  obtain ⟨depth, width, banks, voltage, node, power, clock, retention, ecc⟩ := c
  rw [Config.mk.injEq]
  exact ⟨Document.IsWhole.unique (h .depth) (h' .depth),
    Document.IsWhole.unique (h .width) (h' .width),
    Document.IsWhole.unique (h .banks) (h' .banks), hnumber,
    Document.IsWhole.unique (h .processNode) (h' .processNode),
    Document.IsSwitch.unique (h .powerGating) (h' .powerGating),
    Document.IsSwitch.unique (h .clockGating) (h' .clockGating),
    Document.IsSwitch.unique (h .retentionMode) (h' .retentionMode),
    Document.IsSwitch.unique (h .eccEnable) (h' .eccEnable)⟩

variable {fields : List (String × Document)}

theorem reads_ofFields (h : f.schema.Passes (fieldIn fields f.name)) :
    (ofFields fields).Reads f (fieldIn fields f.name) := by
  have hcount : ∀ {v : Document}, (FieldSchema.number [.whole, .positive, .safe]).Passes v →
      v.IsWhole v.toCount := by
    intro v hv
    obtain ⟨n, hn⟩ := Document.exists_isCount_iff.2 hv
    obtain ⟨x, rfl, hx⟩ := hn.isWhole
    refine ⟨x, rfl, ?_⟩
    rw [Document.toCount, hx]
    rfl
  have hswitch : ∀ {v : Document}, FieldSchema.switch.Passes v → v.IsSwitch v.toSwitch := by
    rintro v (rfl | ⟨b, rfl⟩)
    · exact .inr ⟨rfl, rfl⟩
    · exact .inl rfl
  cases f with
  | depth | width | banks | processNode => exact hcount h
  | voltage =>
    obtain ⟨x, hx, -⟩ := h
    show fieldIn fields ConfigField.voltage.name =
      .number (fieldIn fields ConfigField.voltage.name).toNumber
    rw [hx]
    rfl
  | powerGating | clockGating | retentionMode | eccEnable => exact hswitch h

theorem holds_ofFields (h : f.Admits (fieldIn fields f.name)) :
    (ofFields fields).Holds f (fieldIn fields f.name) := by
  have hpass := ConfigField.admits_iff.1 h
  exact holds_iff.2 ⟨hpass, reads_ofFields hpass⟩

end Config

end MemoryCompiler
