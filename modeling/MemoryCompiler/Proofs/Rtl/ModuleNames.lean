import MemoryCompiler.Proofs.Decimal.WholeText
import MemoryCompiler.Proofs.Rtl.EccRefinement
import MemoryCompiler.Proofs.Rtl.Wiring

/-!
# Names of modules

The name of a module says all that its text depends on below the header: the geometry and the features
of its configuration, and its role (`module_name_identifies`). A tag of a feature and the suffix of a
role may be spelled alike, but a role occurs only with its feature, so what stands behind the geometry
in a name belongs to one set of features and one role (`ending_injective`).
-/

namespace MemoryCompiler

open Rtl
open Text (StartsOutside)

/-! ### Features and roles -/

/-- The features that are on. -/
structure Features where
  power : Bool
  clock : Bool
  retention : Bool
  ecc : Bool
deriving DecidableEq

namespace Features

def all : List Features :=
  [false, true].flatMap fun p => [false, true].flatMap fun c => [false, true].flatMap fun r =>
    [false, true].map fun e => ⟨p, c, r, e⟩

theorem mem_all (f : Features) : f ∈ all := by
  obtain ⟨p, c, r, e⟩ := f
  revert p c r e
  decide

/-- What follows the geometry in a base name. -/
def tagText (f : Features) : String :=
  let tags := (if f.power then "pg" else "") ++ (if f.clock then "cg" else "")
    ++ (if f.retention then "rt" else "") ++ (if f.ecc then "ec" else "")
  if tags = "" then "" else "_" ++ tags

end Features

namespace Rtl

/-- What the name of a module adds to the base name. -/
def Role.suffix : Role → String
  | top => ""
  | core => "_core"
  | powerWrapper => "_pg_wrap"
  | clockGate => "_cg"
  | eccEncoder => "_ecc_enc"
  | eccDecoder => "_ecc_dec"

/-- The features with which a role occurs. -/
def Role.occurs (f : Features) : Role → Bool
  | top | core => true
  | powerWrapper => f.power
  | clockGate => f.clock
  | eccEncoder | eccDecoder => f.ecc

theorem Role.mem_all (r : Role) : r ∈ Role.all := by cases r <;> decide

/-- What follows the geometry in the name of a module. -/
def ending (f : Features) (r : Role) : String := f.tagText ++ r.suffix

theorem Role.startsOutside_suffix (r : Role) : StartsOutside Char.isDigit r.suffix := by
  cases r <;> simp [suffix, StartsOutside]

theorem startsOutside_ending (f : Features) (r : Role) : StartsOutside Char.isDigit (ending f r) := by
  have hbar : StartsOutside Char.isDigit "_" := by simp [StartsOutside]
  rw [ending, Features.tagText]
  generalize (if f.power then "pg" else "") ++ (if f.clock then "cg" else "") ++
    (if f.retention then "rt" else "") ++ (if f.ecc then "ec" else "") = tags
  by_cases htags : tags = ""
  · rw [htags, if_pos rfl, String.empty_append]
    exact r.startsOutside_suffix
  · rw [if_neg htags, String.append_assoc]
    exact hbar.append (by decide) _

/-- The roles that occur, each with the features it occurs with. -/
def occurring : List (Features × Role) :=
  Features.all.flatMap fun f => (Role.all.filter (Role.occurs f)).map fun r => (f, r)

theorem mem_occurring {f : Features} {r : Role} (h : r.occurs f = true) : (f, r) ∈ occurring := by
  rw [occurring, List.mem_flatMap]
  exact ⟨f, f.mem_all, List.mem_map_of_mem (List.mem_filter.2 ⟨r.mem_all, h⟩)⟩

theorem nodup_endings : (occurring.map fun p => ending p.1 p.2).Nodup := by
  decide +kernel

/-- Features and role are known from what follows the geometry. -/
theorem ending_injective {f g : Features} {r s : Role} (hr : r.occurs f = true)
    (hs : s.occurs g = true) (h : ending f r = ending g s) : f = g ∧ r = s :=
  Prod.mk.inj (List.inj_on_of_nodup_map nodup_endings (mem_occurring hr) (mem_occurring hs) h)

end Rtl

namespace Config

variable (c : Config)

def features : Features := ⟨c.powerGating, c.clockGating, c.retentionMode, c.eccEnable⟩

def moduleOf : Role → Module
  | .top => c.topModule
  | .core => c.coreModule
  | .powerWrapper => c.powerWrapper
  | .clockGate => c.clockGate
  | .eccEncoder => c.eccEncoder
  | .eccDecoder => c.eccDecoder

theorem name_moduleOf (r : Role) : (c.moduleOf r).name = c.baseName ++ r.suffix := by
  cases r with
  | top => exact (String.append_empty).symm
  | _ => rfl

theorem powerWrapper_mem (h : c.powerGating = true) : c.powerWrapper ∈ c.modules := by
  simp [modules, h]

theorem mem_modules_iff {m : Module} :
    m ∈ c.modules ↔ m.role.occurs c.features = true ∧ m = c.moduleOf m.role := by
  constructor
  · intro h
    simp only [modules, List.mem_append, List.mem_cons, List.not_mem_nil, or_false] at h
    rcases h with (((rfl | rfl) | h) | h) | h
    · exact ⟨rfl, rfl⟩
    · exact ⟨rfl, rfl⟩
    · split_ifs at h with hp
      · rw [List.mem_singleton] at h
        subst h
        exact ⟨hp, rfl⟩
      · cases h
    · split_ifs at h with hp
      · rw [List.mem_singleton] at h
        subst h
        exact ⟨hp, rfl⟩
      · cases h
    · split_ifs at h with hp
      · simp only [List.mem_cons, List.not_mem_nil, or_false] at h
        rcases h with rfl | rfl
        · exact ⟨hp, rfl⟩
        · exact ⟨hp, rfl⟩
      · cases h
  · rintro ⟨hoccurs, hm⟩
    rw [hm]
    generalize m.role = r at hoccurs
    cases r with
    | top => exact List.mem_cons_self
    | core => exact c.coreModule_mem
    | powerWrapper => exact c.powerWrapper_mem hoccurs
    | clockGate => exact clockGate_mem hoccurs
    | eccEncoder => exact eccEncoder_mem hoccurs
    | eccDecoder => exact eccDecoder_mem hoccurs

theorem name_moduleOf_eq (r : Role) : (c.moduleOf r).name =
    "sram_" ++ (Decimal.natText c.depth ++ ("x" ++ (Decimal.natText c.width ++ ("_b" ++
      (Decimal.natText c.banks ++ ending c.features r))))) := by
  rw [name_moduleOf, baseName, ending, Features.tagText, features]
  dsimp only
  split_ifs <;> simp only [String.append_assoc, String.append_empty, String.empty_append]

end Config

/-! ### Configurations of one macro -/

/-- Two configurations agree on all that their hardware depends on: they differ in voltage and process
node at most. -/
structure Config.SameMacro (c₁ c₂ : Config) : Prop where
  depth : c₁.depth = c₂.depth
  width : c₁.width = c₂.width
  banks : c₁.banks = c₂.banks
  powerGating : c₁.powerGating = c₂.powerGating
  clockGating : c₁.clockGating = c₂.clockGating
  retentionMode : c₁.retentionMode = c₂.retentionMode
  eccEnable : c₁.eccEnable = c₂.eccEnable

def Config.atPoint (c : Config) (voltage : Float) (processNode : Nat) : Config :=
  { c with voltage, processNode }

theorem Config.SameMacro.eq_atPoint {c₁ c₂ : Config} (h : c₁.SameMacro c₂) :
    c₂ = c₁.atPoint c₂.voltage c₂.processNode := by
  obtain ⟨hdepth, hwidth, hbanks, hpower, hclock, hretention, hecc⟩ := h
  rw [Config.atPoint, hdepth, hwidth, hbanks, hpower, hclock, hretention, hecc]

namespace Rtl

open Config (mem_modules_iff name_moduleOf_eq)

variable {c₁ c₂ : Config} {r s : Role}

/-- The name of a module gives back geometry, features and role. -/
theorem sameMacro_of_name (hr : r.occurs c₁.features = true) (hs : s.occurs c₂.features = true)
    (h : (c₁.moduleOf r).name = (c₂.moduleOf s).name) : c₁.SameMacro c₂ ∧ r = s := by
  have hx : ∀ t, StartsOutside Char.isDigit ("x" ++ t) :=
    StartsOutside.append (by simp [StartsOutside]) (by decide)
  have hb : ∀ t, StartsOutside Char.isDigit ("_b" ++ t) :=
    StartsOutside.append (by simp [StartsOutside]) (by decide)
  rw [name_moduleOf_eq, name_moduleOf_eq] at h
  obtain ⟨hdepth, h⟩ := Decimal.natText_append_inj (hx _) (hx _) ((String.append_right_inj _).1 h)
  obtain ⟨hwidth, h⟩ := Decimal.natText_append_inj (hb _) (hb _) ((String.append_right_inj _).1 h)
  obtain ⟨hbanks, h⟩ := Decimal.natText_append_inj (startsOutside_ending _ r)
    (startsOutside_ending _ s) ((String.append_right_inj _).1 h)
  obtain ⟨hfeatures, hrole⟩ := ending_injective hr hs h
  simp only [Config.features, Features.mk.injEq] at hfeatures
  obtain ⟨hpower, hclock, hretention, hecc⟩ := hfeatures
  exact ⟨⟨hdepth, hwidth, hbanks, hpower, hclock, hretention, hecc⟩, hrole⟩

/-! ### Texts of one macro -/

def textLines (t : String) : List String := (t.toList.splitOn '\n').map String.ofList

theorem textLines_append {l : String} (hl : OneLine l) (t : String) :
    textLines (l ++ "\n" ++ t) = l :: textLines t := by
  have hchars : (l ++ "\n" ++ t).toList = l.toList ++ '\n' :: t.toList := by
    rw [String.toList_append, String.toList_append, List.append_assoc]
    rfl
  rw [textLines, hchars, List.splitOn, List.splitOnP_append_cons_of_forall_mem, List.map_cons,
    String.ofList_toList]
  · rfl
  · intro c hc
    exact decide_eq_false fun hend => hl (hend ▸ hc)
  · rfl

theorem textLines_joinLines {l : String} (hl : OneLine l) (m : String) (ls : List String) :
    textLines (joinLines (l :: m :: ls)) = l :: textLines (joinLines (m :: ls)) := by
  rw [joinLines, String.intercalate_cons_cons, textLines_append hl, joinLines]

/-- The lines of a header that say for which configuration a file was generated: its label and its
fingerprint. -/
def stampLines (c : Config) : List String :=
  ["// Generated by sram-compiler for " ++ c.label ++ ". Do not edit.",
    "// Configuration fingerprint: " ++ c.fingerprint]

/-- Two modules have texts, and the same lines stand in both apart from the label and the fingerprint
below the first line. -/
def SameText (c₁ c₂ : Config) (m₁ m₂ : Module) : Prop :=
  ∃ t₁ t₂ title rest, c₁.design.moduleText m₁ = .ok t₁ ∧ c₂.design.moduleText m₂ = .ok t₂ ∧
    textLines t₁ = title :: (stampLines c₁ ++ rest) ∧
    textLines t₂ = title :: (stampLines c₂ ++ rest)

/-- The lines of a module behind its first directive. -/
def codeLines (m : Module) (body : List String) : List String :=
  ["`default_nettype none", ""] ++ declarationLines m ++ [""] ++ body ++
    ["", "endmodule", "", "`default_nettype wire", ""]

theorem bodyLines_congr {d₁ d₂ : Design} (h : d₁.ecc = d₂.ecc) (m : Module) :
    bodyLines d₁ m = bodyLines d₂ m := by
  simp only [bodyLines, Design.layoutFor, h]

theorem exists_bodyLines {c : Config} {m : Module} (hm : m ∈ c.modules) :
    ∃ body, bodyLines c.design m = .ok body := by
  have hlayout : c.eccEnable = true → c.design.layoutFor m = .ok (Ecc.Layout.ofWidth c.width) := by
    intro hecc
    refine layoutFor_design ?_ m
    rw [Config.eccLayout, if_pos hecc]
  have hoccurs := (mem_modules_iff c).1 hm |>.1
  rw [bodyLines]
  cases hrole : m.role with
  | top | powerWrapper | core | clockGate => exact ⟨_, rfl⟩
  | eccEncoder | eccDecoder =>
    rw [hrole] at hoccurs
    rw [hlayout hoccurs]
    exact ⟨_, rfl⟩

theorem moduleText_eq {d : Design} {m : Module} {body : List String} (h : bodyLines d m = .ok body) :
    d.moduleText m = .ok (joinLines (headerLines d m ++ declarationLines m ++ [""] ++ body ++
      ["", "endmodule", "", "`default_nettype wire", ""])) := by
  rw [Design.moduleText, h]
  rfl

theorem oneLine_title {m : Module} (hname : OneLine m.name) :
    OneLine ("// " ++ m.name ++ ": " ++ m.role.title) := by
  have htitle : OneLine m.role.title := by cases m.role <;> decide
  have hslashes : OneLine "// " := by decide
  exact ((hslashes.append hname).append (by decide)).append htitle

theorem oneLine_name {c : Config} {m : Module} (hm : m ∈ c.modules) : OneLine m.name := by
  have hsuffix : ∀ r : Role, OneLine r.suffix := by
    intro r
    cases r <;> decide
  rw [((mem_modules_iff c).1 hm).2, Config.name_moduleOf]
  exact (oneLine_of_isIdentifier c.isIdentifier_baseName).append (hsuffix _)

theorem textLines_moduleText {c : Config} {m : Module} {body : List String} (hm : m ∈ c.modules)
    (h : bodyLines c.design m = .ok body) :
    ∃ t, c.design.moduleText m = .ok t ∧
      textLines t = ("// " ++ m.name ++ ": " ++ m.role.title) ::
        (stampLines c ++ textLines (joinLines ("`timescale 1ns / 1ps" :: codeLines m body))) := by
  have hlabel : OneLine ("// Generated by sram-compiler for " ++ c.label ++ ". Do not edit.") :=
    ((by decide : OneLine "// Generated by sram-compiler for ").append c.oneLine_label).append
      (by decide)
  have hfingerprint : OneLine ("// Configuration fingerprint: " ++ c.fingerprint) :=
    (by decide : OneLine "// Configuration fingerprint: ").append c.oneLine_fingerprint
  have hlines : headerLines c.design m ++ declarationLines m ++ [""] ++ body ++
      ["", "endmodule", "", "`default_nettype wire", ""] =
      ("// " ++ m.name ++ ": " ++ m.role.title) ::
        ("// Generated by sram-compiler for " ++ c.label ++ ". Do not edit.") ::
        ("// Configuration fingerprint: " ++ c.fingerprint) ::
        "`timescale 1ns / 1ps" :: codeLines m body := rfl
  refine ⟨_, moduleText_eq h, ?_⟩
  rw [hlines, textLines_joinLines (oneLine_title (oneLine_name hm)), textLines_joinLines hlabel,
    textLines_joinLines hfingerprint]
  rfl

/-- Voltage and process node are written in label and fingerprint only. -/
theorem sameText_atPoint {c : Config} {m : Module} (hm : m ∈ c.modules) (voltage : Float)
    (processNode : Nat) : SameText c (c.atPoint voltage processNode) m m := by
  obtain ⟨body, hbody⟩ := exists_bodyLines hm
  have hecc : c.design.ecc = (c.atPoint voltage processNode).design.ecc := rfl
  have hbody' : bodyLines (c.atPoint voltage processNode).design m = .ok body := by
    rw [← bodyLines_congr hecc, hbody]
  obtain ⟨t₁, htext₁, hlines₁⟩ := textLines_moduleText hm hbody
  have hm' : m ∈ (c.atPoint voltage processNode).modules := hm
  obtain ⟨t₂, htext₂, hlines₂⟩ := textLines_moduleText hm' hbody'
  exact ⟨t₁, t₂, _, _, htext₁, htext₂, hlines₁, hlines₂⟩

/-! ### Files of one design -/

theorem exists_files (c : Config) : ∃ artifacts, c.design.artifacts = .ok artifacts ∧
    artifacts.map Artifact.name = c.modules.map fun m => m.name ++ ".v" := by
  have htexts : ∀ m ∈ c.design.modules, ∃ t, c.design.moduleText m = .ok t := by
    intro m hm
    obtain ⟨body, hbody⟩ := exists_bodyLines hm
    exact ⟨_, moduleText_eq hbody⟩
  obtain ⟨artifacts, hartifacts, hnames, -⟩ := artifacts_of_forall htexts
  exact ⟨artifacts, hartifacts, hnames⟩

theorem nodup_fileNames (c : Config) : (c.modules.map fun m => m.name ++ ".v").Nodup := by
  have hmap : (c.modules.map fun m => m.name ++ ".v") =
      (c.modules.map Module.name).map (· ++ ".v") := by
    rw [List.map_map]
    rfl
  rw [hmap]
  exact c.nodup_modules.map fun _ _ => (String.append_left_inj _).1

/-- Two modules of one name, whatever the configurations are they come from, belong to one macro, play
one role and have the same text up to label and fingerprint. The names of modules and files in one
design are distinct, and another operating point changes neither the modules nor any line of their
texts but label and fingerprint. -/
theorem module_name_identifies :
    (∀ (c₁ c₂ : Config) (m₁ m₂ : Module), m₁ ∈ c₁.design.modules → m₂ ∈ c₂.design.modules →
      m₁.name = m₂.name → c₁.SameMacro c₂ ∧ m₁.role = m₂.role ∧ SameText c₁ c₂ m₁ m₂) ∧
    (∀ c : Config, (c.design.modules.map Module.name).Nodup ∧
      ∃ artifacts, c.design.artifacts = .ok artifacts ∧ (artifacts.map Artifact.name).Nodup) ∧
    ∀ (c : Config) (voltage : Float) (processNode : Nat),
      (c.atPoint voltage processNode).design.modules = c.design.modules ∧
        ∀ m ∈ c.design.modules, SameText c (c.atPoint voltage processNode) m m := by
  refine ⟨fun c₁ c₂ m₁ m₂ hm₁ hm₂ hname => ?_, fun c => ?_, fun c voltage processNode => ?_⟩
  · obtain ⟨hoccurs₁, heq₁⟩ := (mem_modules_iff c₁).1 hm₁
    obtain ⟨hoccurs₂, heq₂⟩ := (mem_modules_iff c₂).1 hm₂
    rw [heq₁, heq₂] at hname
    obtain ⟨hagree, hrole⟩ := sameMacro_of_name hoccurs₁ hoccurs₂ hname
    have hpoint := hagree.eq_atPoint
    generalize c₂.voltage = voltage, c₂.processNode = processNode at hpoint
    subst hpoint
    have hsame : m₂ = m₁ := by
      rw [heq₁, heq₂, hrole]
      cases m₂.role <;> rfl
    rw [hsame]
    exact ⟨hagree, rfl, sameText_atPoint hm₁ voltage processNode⟩
  · obtain ⟨artifacts, hartifacts, hnames⟩ := exists_files c
    refine ⟨c.nodup_modules, artifacts, hartifacts, ?_⟩
    rw [hnames]
    exact nodup_fileNames c
  · exact ⟨rfl, fun m hm => sameText_atPoint hm voltage processNode⟩

theorem module_name_identifies_nibble :
    nibbleConfig.eccDecoder ∈ nibbleConfig.design.modules ∧
      (nibbleConfig.atPoint 0.9 45).eccDecoder ∈ (nibbleConfig.atPoint 0.9 45).design.modules ∧
      nibbleConfig.eccDecoder.name = (nibbleConfig.atPoint 0.9 45).eccDecoder.name ∧
      SameText nibbleConfig (nibbleConfig.atPoint 0.9 45) nibbleConfig.eccDecoder
        (nibbleConfig.atPoint 0.9 45).eccDecoder :=
  have hmem₁ : nibbleConfig.eccDecoder ∈ nibbleConfig.design.modules := Config.eccDecoder_mem rfl
  have hmem₂ : (nibbleConfig.atPoint 0.9 45).eccDecoder ∈
      (nibbleConfig.atPoint 0.9 45).design.modules := Config.eccDecoder_mem rfl
  have hname : ∀ (c : Config) (v : Float) (n : Nat),
      c.eccDecoder.name = (c.atPoint v n).eccDecoder.name := fun _ _ _ => rfl
  ⟨hmem₁, hmem₂, hname _ _ _, (module_name_identifies.1 _ _ _ _ hmem₁ hmem₂ (hname _ _ _)).2.2⟩

end Rtl

end MemoryCompiler
