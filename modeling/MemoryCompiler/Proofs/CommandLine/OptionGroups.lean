import Mathlib
import MemoryCompiler.CommandLine.Options

/-!
# Options in any order

A command line is made of groups, each an option with what it takes. A group sets its own field and leaves
the others alone (`read_group`), so groups of different words can be read in any order, but for one pair:
the names to compare go on to the next word that starts with two dashes, and the short word for help has
only one. Right behind the names it is taken for one of them (`ofArguments_groups`).
-/

namespace MemoryCompiler.CommandLine.Options

/-! ### Groups -/

/-- The fields that options set. -/
inductive Field where
  | config | output | generateVerilog | powerAnalysis | areaAnalysis | diagram
  | compare | listConfigs | templates | tech | help
deriving DecidableEq

/-- What a field holds. -/
def Field.Value : Field → Type
  | config | templates | tech => Option String
  | output => String
  | compare => Option (List String)
  | generateVerilog | powerAnalysis | areaAnalysis | diagram | listConfigs | help => Bool

def get (o : Options) : (f : Field) → f.Value
  | .config => o.config
  | .output => o.output
  | .generateVerilog => o.generateVerilog
  | .powerAnalysis => o.powerAnalysis
  | .areaAnalysis => o.areaAnalysis
  | .diagram => o.diagram
  | .compare => o.compare
  | .listConfigs => o.listConfigs
  | .templates => o.templates
  | .tech => o.tech
  | .help => o.help

theorem ext_get {o o' : Options} (h : ∀ f, o.get f = o'.get f) : o = o' := by
  cases o
  cases o'
  rw [Options.mk.injEq]
  exact ⟨h .config, h .output, h .generateVerilog, h .powerAnalysis, h .areaAnalysis, h .diagram,
    h .compare, h .listConfigs, h .templates, h .tech, h .help⟩

/-- The options without a value; help has two words. -/
inductive Switch where
  | generateVerilog | powerAnalysis | areaAnalysis | diagram | listConfigs | help | shortHelp
deriving DecidableEq

inductive Setting where
  | config | output | templates | tech
deriving DecidableEq

inductive Group where
  | switch (s : Switch)
  | setting (s : Setting) (value : String)
  | compare (names : List String)
deriving DecidableEq

def Switch.word : Switch → String
  | generateVerilog => "--generate-verilog"
  | powerAnalysis => "--power-analysis"
  | areaAnalysis => "--area-analysis"
  | diagram => "--diagram"
  | listConfigs => "--list-configs"
  | help => "--help"
  | shortHelp => "-h"

def Setting.word : Setting → String
  | config => "--config"
  | output => "--output"
  | templates => "--templates"
  | tech => "--tech"

namespace Group

def word : Group → String
  | switch s => s.word
  | setting s _ => s.word
  | compare _ => "--compare"

def arguments : Group → List String
  | switch _ => []
  | setting _ value => [value]
  | compare names => names

def words (g : Group) : List String := g.word :: g.arguments

/-- Nothing an option takes looks like an option, and there is a name to compare. -/
def WellFormed : Group → Prop
  | switch _ => True
  | setting _ value => isOption value = false
  | compare names => names ≠ [] ∧ ∀ n ∈ names, isOption n = false

instance : DecidablePred WellFormed
  | switch _ => isTrue trivial
  | setting _ value => inferInstanceAs (Decidable (isOption value = false))
  | compare names => inferInstanceAs (Decidable (names ≠ [] ∧ ∀ n ∈ names, isOption n = false))

def field : Group → Field
  | switch .generateVerilog => .generateVerilog
  | switch .powerAnalysis => .powerAnalysis
  | switch .areaAnalysis => .areaAnalysis
  | switch .diagram => .diagram
  | switch .listConfigs => .listConfigs
  | switch .help | switch .shortHelp => .help
  | setting .config _ => .config
  | setting .output _ => .output
  | setting .templates _ => .templates
  | setting .tech _ => .tech
  | compare _ => .compare

def value : (g : Group) → g.field.Value
  | switch .generateVerilog => true
  | switch .powerAnalysis => true
  | switch .areaAnalysis => true
  | switch .diagram => true
  | switch .listConfigs => true
  | switch .help => true
  | switch .shortHelp => true
  | setting .config v => some v
  | setting .output v => v
  | setting .templates v => some v
  | setting .tech v => some v
  | compare names => some names

theorem isOption_setting (s : Setting) : isOption s.word = true := by
  cases s <;> decide

theorem isOption_word {g : Group} (h : g ≠ switch .shortHelp) : isOption g.word = true := by
  cases g with
  | switch s =>
    cases s with
    | shortHelp => exact absurd rfl h
    | generateVerilog | powerAnalysis | areaAnalysis | diagram | listConfigs | help => rfl
  | setting s v => exact isOption_setting s
  | compare names => exact (by decide : isOption "--compare" = true)

end Group

def wordsOf (gs : List Group) : List String := gs.flatMap Group.words

/-- Reading some groups turns options into others: each group has its field hold what it asks for, and the
fields of no group stay as they are. -/
structure Sets (gs : List Group) (o o' : Options) : Prop where
  given : ∀ g ∈ gs, o'.get g.field = g.value
  others : ∀ f, f ∉ gs.map Group.field → o'.get f = o.get f

section sets

variable {g : Group} {gs : List Group} {o o₁ o₂ : Options}

theorem Sets.nil (o : Options) : Sets [] o o :=
  ⟨fun _ hg => absurd hg List.not_mem_nil, fun _ _ => rfl⟩

theorem Sets.singleton (hset : o₁.get g.field = g.value) (hkept : ∀ f, f ≠ g.field → o₁.get f = o.get f) :
    Sets [g] o o₁ where
  given := by
    intro g' hg'
    cases List.mem_singleton.1 hg'
    exact hset
  others := by
    intro f hf
    exact hkept f fun h => hf (List.mem_singleton.2 h)

theorem eq_of_field_eq {g' : Group} (hfield : g.field = g'.field) (hword : g.word ≠ g'.word)
    (hset : o.get g'.field = g'.value) : o.get g.field = g.value := by
  rcases g with s | ⟨s, v⟩ | names
  · rcases g' with s' | ⟨s', v'⟩ | names'
    · cases s <;> cases s' <;> first | exact hset | cases hfield
    · cases s <;> cases s' <;> cases hfield
    · cases s <;> cases hfield
  · rcases g' with s' | ⟨s', v'⟩ | names'
    · cases s <;> cases s' <;> cases hfield
    · cases s <;> cases s' <;> first | exact absurd rfl hword | cases hfield
    · cases s <;> cases hfield
  · rcases g' with s' | ⟨s', v'⟩ | names'
    · cases s' <;> cases hfield
    · cases s' <;> cases hfield
    · exact absurd rfl hword

theorem Sets.cons (hg : Sets [g] o o₁) (hgs : Sets gs o₁ o₂) (hword : g.word ∉ gs.map Group.word) :
    Sets (g :: gs) o o₂ where
  given := by
    intro g' hg'
    rcases List.mem_cons.1 hg' with rfl | hg'
    · by_cases hshared : g'.field ∈ gs.map Group.field
      · obtain ⟨other, hother, hfield⟩ := List.mem_map.1 hshared
        have hdifferent : g'.word ≠ other.word := fun h => hword (h ▸ List.mem_map_of_mem hother)
        exact eq_of_field_eq hfield.symm hdifferent (hgs.given other hother)
      · rw [hgs.others _ hshared]
        exact hg.given g' (List.mem_singleton_self g')
    · exact hgs.given g' hg'
  others := by
    intro f hf
    rw [List.map_cons, List.mem_cons, not_or] at hf
    rw [hgs.others f hf.2]
    exact hg.others f fun h => hf.1 (List.mem_singleton.1 h)

theorem Sets.unique {gs' : List Group} (h₁ : Sets gs o o₁) (h₂ : Sets gs' o o₂)
    (hsame : ∀ g, g ∈ gs ↔ g ∈ gs') : o₁ = o₂ := by
  apply ext_get
  intro f
  by_cases hf : f ∈ gs.map Group.field
  · obtain ⟨g, hg, rfl⟩ := List.mem_map.1 hf
    rw [h₁.given g hg, h₂.given g ((hsame g).1 hg)]
  · have hf' : f ∉ gs'.map Group.field := by
      intro h
      obtain ⟨g, hg, hfield⟩ := List.mem_map.1 h
      exact hf (hfield ▸ List.mem_map_of_mem ((hsame g).2 hg))
    rw [h₁.others f hf, h₂.others f hf']

end sets

/-! ### Reading -/

section read

variable {gs : List Group}

theorem sets_setSwitch? (o : Options) (s : Switch) :
    ∃ o', setSwitch? o s.word = some o' ∧ Sets [.switch s] o o' := by
  cases s <;> exact ⟨_, rfl, .singleton rfl fun f hf => by
    cases f <;> first | rfl | exact absurd rfl hf⟩

theorem sets_setValue? (o : Options) (s : Setting) (v : String) :
    ∃ o', setValue? o s.word v = some o' ∧ Sets [.setting s v] o o' := by
  cases s <;> exact ⟨_, rfl, .singleton rfl fun f hf => by
    cases f <;> first | rfl | exact absurd rfl hf⟩

/-- The short word for help stands right behind names to compare. -/
def HelpBehindNames (gs : List Group) : Prop :=
  ∃ names, [.compare names, .switch .shortHelp] <:+: gs

/-- Names to compare end where the next group starts, unless that is the short word for help. -/
theorem takeNames {names : List String} (hnames : ∀ n ∈ names, isOption n = false)
    (hnext : gs.head? ≠ some (.switch .shortHelp)) :
    (names ++ wordsOf gs).takeWhile (fun w => !isOption w) = names ∧
      (names ++ wordsOf gs).dropWhile (fun w => !isOption w) = wordsOf gs := by
  have hplain : ∀ n ∈ names, (!isOption n) = true := by
    intro n hn
    rw [hnames n hn]
    rfl
  rw [List.takeWhile_append_of_pos hplain, List.dropWhile_append_of_pos hplain]
  cases gs with
  | nil => exact ⟨List.append_nil names, rfl⟩
  | cons g rest =>
    have hstop : isOption g.word = true := Group.isOption_word fun h => hnext (congrArg some h)
    have hwords : wordsOf (g :: rest) = g.word :: (g.arguments ++ wordsOf rest) := rfl
    rw [hwords, List.takeWhile_cons, List.dropWhile_cons, hstop]
    exact ⟨List.append_nil names, rfl⟩

theorem read_group (o : Options) {g : Group} (hg : g.WellFormed)
    (hnext : ∀ names, g = .compare names → gs.head? ≠ some (.switch .shortHelp)) :
    ∃ o', Sets [g] o o' ∧ read o (wordsOf (g :: gs)) = read o' (wordsOf gs) := by
  cases g with
  | switch s =>
    obtain ⟨o', hset, hsets⟩ := sets_setSwitch? o s
    have hcompare : s.word ≠ "--compare" := by cases s <;> decide
    refine ⟨o', hsets, ?_⟩
    show read o (s.word :: wordsOf gs) = _
    rw [read.eq_def]
    dsimp only
    rw [if_neg hcompare, hset]
  | setting s v =>
    obtain ⟨o', hset, hsets⟩ := sets_setValue? o s v
    have hcompare : s.word ≠ "--compare" := by cases s <;> decide
    have hswitch : setSwitch? o s.word = none := by cases s <;> rfl
    have htakes : takesValue s.word = true := by cases s <;> rfl
    have hvalue : isOption v = false := hg
    refine ⟨o', hsets, ?_⟩
    show read o (s.word :: v :: wordsOf gs) = _
    rw [read, if_neg hcompare, hswitch]
    simp [htakes, hvalue, hset]
  | compare names =>
    obtain ⟨hne, hnames⟩ := hg
    obtain ⟨htake, hdrop⟩ := takeNames hnames (hnext names rfl)
    refine ⟨{ o with compare := some names }, .singleton rfl fun f hf => by
      cases f <;> first | rfl | exact absurd rfl hf, ?_⟩
    show read o ("--compare" :: (names ++ wordsOf gs)) = _
    rw [read.eq_def]
    dsimp only
    rw [if_pos rfl, htake, hdrop]
    cases names with
    | nil => exact absurd rfl hne
    | cons n ns => rfl

/-- Groups of different words are all read, and each sets its field. -/
theorem read_groups (hgs : ∀ g ∈ gs, g.WellFormed) (hwords : (gs.map Group.word).Nodup)
    (hhelp : ¬ HelpBehindNames gs) (o : Options) : ∃ o', read o (wordsOf gs) = .ok o' ∧ Sets gs o o' := by
  induction gs generalizing o with
  | nil =>
    refine ⟨o, ?_, .nil o⟩
    show read o [] = _
    rw [read]
  | cons g gs ih =>
    rw [List.map_cons, List.nodup_cons] at hwords
    have hnext : ∀ names, g = .compare names → gs.head? ≠ some (.switch .shortHelp) := by
      rintro names rfl hhead
      obtain ⟨rest, rfl⟩ := List.head?_eq_some_iff.1 hhead
      exact hhelp ⟨names, [], rest, rfl⟩
    have hrest : ¬ HelpBehindNames gs := by
      rintro ⟨names, h⟩
      exact hhelp ⟨names, List.infix_cons h⟩
    obtain ⟨o₁, hset, hread⟩ := read_group o (hgs g List.mem_cons_self) hnext
    obtain ⟨o₂, hok, hsets⟩ := ih (fun g' hg' => hgs g' (List.mem_cons_of_mem g hg')) hwords.2 hrest o₁
    exact ⟨o₂, hread.trans hok, hset.cons hsets hwords.1⟩

/-- The short word for help behind names is read as one more of them. -/
theorem read_helpBehindNames {before behind : List Group} {names : List String}
    (hgs : ∀ g ∈ before ++ .compare names :: .switch .shortHelp :: behind, g.WellFormed)
    (hwords : ((before ++ .compare names :: .switch .shortHelp :: behind).map Group.word).Nodup) (o : Options) :
    ∃ o', read o (wordsOf (before ++ .compare names :: .switch .shortHelp :: behind)) = .ok o' ∧
      Sets (before ++ .compare (names ++ ["-h"]) :: behind) o o' := by
  have hsame : wordsOf (before ++ .compare names :: .switch .shortHelp :: behind) =
      wordsOf (before ++ .compare (names ++ ["-h"]) :: behind) := by
    simp [wordsOf, Group.words, Group.word, Group.arguments, Switch.word]
  have hfewer : ((before ++ .compare (names ++ ["-h"]) :: behind).map Group.word).Sublist
      ((before ++ .compare names :: .switch .shortHelp :: behind).map Group.word) := by
    rw [List.map_append, List.map_append]
    exact (List.Sublist.refl _).append ((List.sublist_cons_self _ _).cons_cons _)
  -- The word stood there once, so no group with it is left.
  have honce : Group.switch .shortHelp ∉ before ++ .compare (names ++ ["-h"]) :: behind := by
    simp only [List.map_append, List.map_cons, List.nodup_append, List.nodup_cons, List.mem_cons] at hwords
    obtain ⟨-, ⟨-, hbehind, -⟩, hbefore⟩ := hwords
    simp only [List.mem_append, List.mem_cons, reduceCtorEq, false_or, not_or]
    refine ⟨fun h => ?_, fun h => hbehind (List.mem_map_of_mem h)⟩
    exact hbefore _ (List.mem_map_of_mem h) _ (.inr (.inl rfl)) rfl
  rw [hsame]
  refine read_groups (fun g hg => ?_) (hwords.sublist hfewer) (fun ⟨others, h⟩ => ?_) o
  · have hcompare : (Group.compare names).WellFormed := hgs _ (by simp)
    rcases List.mem_append.1 hg with hg | hg
    · exact hgs g (List.mem_append_left _ hg)
    rcases List.mem_cons.1 hg with rfl | hg
    · refine ⟨by simp, fun n hn => ?_⟩
      rcases List.mem_append.1 hn with hn | hn
      · exact hcompare.2 n hn
      · cases List.mem_singleton.1 hn
        decide
    · exact hgs g (by simp [hg])
  · exact honce (h.subset (by simp))

/-- **Options can stand in any order, unless the short word for help stands right behind names to compare.**
Groups of different words are always read. They set their fields and nothing else if and only if that word
does not stand there; where it does, it is read as one more name. So two orders without it there are read as
the same options. -/
theorem ofArguments_groups (hgs : ∀ g ∈ gs, g.WellFormed) (hwords : (gs.map Group.word).Nodup) :
    ∃ o, ofArguments (wordsOf gs) = .ok o ∧ (Sets gs {} o ↔ ¬ HelpBehindNames gs) ∧
      (∀ before names behind, gs = before ++ .compare names :: .switch .shortHelp :: behind →
        Sets (before ++ .compare (names ++ ["-h"]) :: behind) {} o) ∧
      ∀ gs', gs'.Perm gs → ¬ HelpBehindNames gs → ¬ HelpBehindNames gs' →
        ofArguments (wordsOf gs') = .ok o := by
  have hjoined : ∀ {o before names behind}, ofArguments (wordsOf gs) = .ok o →
      gs = before ++ .compare names :: .switch .shortHelp :: behind →
      Sets (before ++ .compare (names ++ ["-h"]) :: behind) {} o := by
    rintro o before names behind hok rfl
    obtain ⟨o', hok', hsets⟩ := read_helpBehindNames hgs hwords {}
    cases hok.symm.trans hok'
    exact hsets
  by_cases hhelp : HelpBehindNames gs
  · obtain ⟨names, before, behind, hsplit⟩ := hhelp
    have hgs' : gs = before ++ .compare names :: .switch .shortHelp :: behind := by
      rw [← hsplit, List.append_assoc]
      rfl
    obtain ⟨o, hok, hsets⟩ : ∃ o, ofArguments (wordsOf gs) = .ok o ∧
        Sets (before ++ .compare (names ++ ["-h"]) :: behind) {} o := by
      subst hgs'
      exact read_helpBehindNames hgs hwords {}
    have hhelp : HelpBehindNames gs := ⟨names, before, behind, hsplit⟩
    refine ⟨o, hok, iff_of_false (fun h => ?_) (not_not_intro hhelp), fun _ _ _ => hjoined hok,
      fun _ _ h => absurd hhelp h⟩
    have hgiven := h.given (.compare names) (by simp [hgs'])
    have hmore := hsets.given (.compare (names ++ ["-h"])) (by simp)
    have hboth : some names = some (names ++ ["-h"]) := hgiven.symm.trans hmore
    simp at hboth
  · obtain ⟨o, hok, hsets⟩ := read_groups hgs hwords hhelp {}
    refine ⟨o, hok, iff_of_true hsets hhelp, fun _ _ _ => hjoined hok, fun gs' hperm _ hhelp' => ?_⟩
    obtain ⟨o', hok', hsets'⟩ := read_groups (fun g hg => hgs g (hperm.mem_iff.1 hg))
      ((hperm.map _).nodup_iff.2 hwords) hhelp' {}
    rw [hsets.unique hsets' fun g => hperm.mem_iff.symm]
    exact hok'

/-- Two names, both words for help and a value that starts with a dash. -/
def helpBeforeNames : List Group :=
  [.switch .shortHelp, .compare ["a", "b"], .setting .output "-o", .switch .help]

theorem ofArguments_groups_reordered :
    (∀ g ∈ helpBeforeNames, g.WellFormed) ∧ (helpBeforeNames.map Group.word).Nodup ∧
    ofArguments ["-h", "--compare", "a", "b", "--output", "-o", "--help"] =
      .ok { compare := some ["a", "b"], output := "-o", help := true } ∧
    ofArguments ["--help", "-h", "--output", "-o", "--compare", "a", "b"] =
      .ok { compare := some ["a", "b"], output := "-o", help := true } := by
  have hgs : ∀ g ∈ helpBeforeNames, g.WellFormed := by decide
  have hwords : (helpBeforeNames.map Group.word).Nodup := by decide
  obtain ⟨o, hok, hsets, -, hperm⟩ := ofArguments_groups hgs hwords
  have hhelp : ¬ HelpBehindNames helpBeforeNames := by
    simp [HelpBehindNames, helpBeforeNames, List.infix_cons_iff]
  have ho : o = { compare := some ["a", "b"], output := "-o", help := true } := by
    have h := hsets.2 hhelp
    apply ext_get
    intro f
    cases f with
    | compare => exact h.given (.compare ["a", "b"]) (by decide)
    | output => exact h.given (.setting .output "-o") (by decide)
    | help => exact h.given (.switch .help) (by decide)
    | config => exact h.others .config (by decide)
    | generateVerilog => exact h.others .generateVerilog (by decide)
    | powerAnalysis => exact h.others .powerAnalysis (by decide)
    | areaAnalysis => exact h.others .areaAnalysis (by decide)
    | diagram => exact h.others .diagram (by decide)
    | listConfigs => exact h.others .listConfigs (by decide)
    | templates => exact h.others .templates (by decide)
    | tech => exact h.others .tech (by decide)
  rw [ho] at hok hperm
  refine ⟨hgs, hwords, hok, ?_⟩
  exact hperm [.switch .help, .switch .shortHelp, .setting .output "-o", .compare ["a", "b"]] (by decide) hhelp
    (by simp [HelpBehindNames, List.infix_cons_iff])

/-- Groups of different words need not set their fields: help that is asked for behind a name is a name. -/
theorem short_help_read_as_name :
    ofArguments (wordsOf [.compare ["a"], .switch .shortHelp]) = .ok { compare := some ["a", "-h"] } ∧
    ¬ ∀ gs : List Group, (∀ g ∈ gs, g.WellFormed) → (gs.map Group.word).Nodup →
      ∃ o, ofArguments (wordsOf gs) = .ok o ∧ Sets gs {} o := by
  have hread : ofArguments (wordsOf [.compare ["a"], .switch .shortHelp]) =
      .ok { compare := some ["a", "-h"] } := by
    have hwords : wordsOf [.compare ["a"], .switch .shortHelp] = ["--compare", "a", "-h"] := rfl
    have htake : (["a", "-h"].takeWhile fun w => !isOption w) = ["a", "-h"] := by decide
    have hdrop : (["a", "-h"].dropWhile fun w => !isOption w) = [] := by decide
    rw [hwords, ofArguments, read.eq_def]
    dsimp only
    rw [if_pos rfl, htake, hdrop]
    dsimp only
    rw [read]
  refine ⟨hread, fun hall => ?_⟩
  obtain ⟨o, hok, hsets⟩ := hall [.compare ["a"], .switch .shortHelp] (by decide) (by decide)
  cases hread.symm.trans hok
  have hhelp : false = true := hsets.given (.switch .shortHelp) (by decide)
  cases hhelp

end read

end MemoryCompiler.CommandLine.Options
