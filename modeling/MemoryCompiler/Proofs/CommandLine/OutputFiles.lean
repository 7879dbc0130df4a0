import MemoryCompiler.Proofs.CommandLine.Jobs
import MemoryCompiler.Proofs.Rtl.CompleteOrClean
import MemoryCompiler.Proofs.Rtl.ModuleNames

/-!
# The files of a run

What a run writes is a function of its options, the tree it finds and what its environment answers: the
modules of a design, its estimates, its diagram and its report, or the two tables of a comparison, all by
one process table (`outputFiles`). The files of a run have places of their own, since their names end
in different letters or are names of different modules (`distinct_plainFiles`, `exists_verilogFiles`).
-/

namespace MemoryCompiler.CommandLine

open Files Files.Host Rtl.Publication
open Files.Path (lastLetter?)

section files

variable (e : Environment) (o : Options)

def outputPath (name : String) : Path := (Path.ofText o.output).join name

def verilogPlace (directory : Place) : Place := (outputPath o "verilog").placeFrom directory

/-- The modules of a design, in a directory of their own. -/
def verilogFiles (c : Config) : Except Failure (List OutputFile) := do
  let artifacts ← c.design.artifacts.mapError .layout
  return artifacts.map fun a => ((outputPath o "verilog").join a.name, a.text)

def powerFiles (table : ProcessTable) (c : Config) : Except Failure (List OutputFile) := do
  let analysis ← (c.powerAnalysis table (defaultSweep.map .number)).mapError .estimate
  return [(outputPath o "power_analysis.json", fileText analysis)]

def areaFiles (table : ProcessTable) (c : Config) : Except Failure (List OutputFile) := do
  let analysis ← (c.areaTimingAnalysis table).mapError .estimate
  return [(outputPath o "area_timing_analysis.json", fileText analysis)]

def diagramFiles (name : String) (c : Config) : Except Failure (List OutputFile) :=
  return [(outputPath o (name ++ "_diagram.svg"),
    Diagram.blockSvg c.design Diagram.styleSheet (e.layouter (Diagram.blockRequest c.design)))]

def reportFiles (table : ProcessTable) (name : String) (c : Config) :
    Except Failure (List OutputFile) := do
  let summary ← (c.summarize .undefined table).mapError .estimate
  return [(outputPath o (name ++ "_report.md"), Report.designReport name summary)]

/-- The files of a configuration beside its modules. -/
def plainFiles (table : ProcessTable) (name : String) (c : Config) :
    Except Failure (List OutputFile) := do
  let power ← askedFiles o.powerAnalysis (powerFiles o table c)
  let area ← askedFiles o.areaAnalysis (areaFiles o table c)
  let diagram ← askedFiles o.diagram (diagramFiles e o name c)
  return power ++ area ++ diagram ++ (← reportFiles o table name c)

def configFiles (table : ProcessTable) (source : ConfigSource) : Except Failure (List OutputFile) := do
  let c ← (Config.ofDocumentWith e.check source.raw table).mapError .config
  let verilog ← askedFiles o.generateVerilog (verilogFiles o c)
  return verilog ++ (← plainFiles e o table source.name c)

/-- What a reference refers to on a tree. -/
def sourceIn (t : Tree) (directory : Place) (reference : String) : Except Failure ConfigSource :=
  (answerIn t directory (ConfigSource.resolveWith e.yaml reference o.templates).run).mapError .source

def comparisonRowIn (t : Tree) (directory : Place) (table : ProcessTable) (reference : String) :
    Except Failure Report.ComparisonRow := do
  let source ← sourceIn e o t directory reference
  let c ← (Config.ofDocumentWith e.check source.raw table).mapError .config
  return ⟨source.name, ← (c.summarize .undefined table).mapError .estimate⟩

def comparisonFiles (rows : List Report.ComparisonRow) : List OutputFile :=
  [(outputPath o "comparison_report.json",
      fileText (.list (rows.map Report.ComparisonRow.toDocument))),
    (outputPath o "comparison_report.md", Report.comparison rows)]

/-- The process table of a run on a tree: the built-in one with the overrides merged in. -/
def tableIn (t : Tree) (directory : Place) : Except Failure ProcessTable :=
  match o.tech with
  | some file =>
    if file = "" then .ok .standard
    else do
      let overrides ←
        (answerIn t directory (ConfigSource.readDocument e.yaml file).run).mapError Failure.source
      (ProcessTable.standard.merge overrides).mapError .override
  | none => .ok .standard

/-- The files of a run on a tree. The sources are read where the output directory has been made. -/
def outputFiles (t : Tree) (directory : Place) : Except Failure (List OutputFile) := do
  let table ← tableIn e o t directory
  let made := (t.makeDirectories directory (.ofText o.output)).2
  match o.compare with
  | some references =>
    return comparisonFiles o (← references.mapM (comparisonRowIn e o made directory table))
  | none =>
    match o.config with
    | some reference =>
      if reference = "" then .error (.usage .nothingToDo)
      else configFiles e o table (← sourceIn e o made directory reference)
    | none => .error (.usage .nothingToDo)

end files

/-! ### What the steps of a run write -/

section steps

variable {disturbed : Nat → Option Disturbance} {h h' : Host} {paths : List Path} {e : Environment}
  {o : Options} {table : ProcessTable} {c : Config}

theorem puts_writePowerAnalysis : Puts (writePowerAnalysis e o c table) (powerFiles o table c) :=
  .check fun _ => puts_writeFile yields_tell_return

theorem puts_writeAreaAnalysis : Puts (writeAreaAnalysis e o c table) (areaFiles o table c) :=
  .check fun _ => puts_writeFile yields_tell_return

theorem puts_writeDiagram (name : String) :
    Puts (writeDiagram e o name c) (diagramFiles e o name c) :=
  puts_writeFile yields_tell_return

theorem puts_writeReport (name : String) :
    Puts (writeReport o name c table) (reportFiles o table name c) := by
  refine .check fun _ => puts_writeFile fun hreturn => ?_
  obtain ⟨rfl, rfl⟩ := yields_pure.1 hreturn
  exact ⟨rfl, rfl⟩

/-- A configuration that is compiled: its modules are published, then its other files are written. -/
theorem yields_compileConfig {reference : String}
    (hj : Yields disturbed h (compileConfig e o table reference) paths h') :
    ∃ source c verilog h₁ fs, sourceIn e o h.tree h.directory reference = .ok source ∧
      Config.ofDocumentWith e.check source.raw table = .ok c ∧
      Yields disturbed h (onlyIf o.generateVerilog (writeVerilog e o c)) verilog h₁ ∧
      plainFiles e o table source.name c = .ok fs ∧
      paths = verilog ++ fs.map Prod.fst ∧ WithFiles h.directory h₁.tree fs h'.tree := by
  obtain ⟨source, hsource, hj⟩ := (yields_reads_bind (ConfigSource.reads_resolveWith _ _ _)).1 hj
  obtain ⟨c, hc, hj⟩ := yields_check_bind.1 hj
  obtain ⟨verilog, h₁, hverilog, hj⟩ := yields_bind.1 hj
  obtain ⟨power, h₂, hpower, hj⟩ := yields_bind.1 hj
  obtain ⟨area, h₃, harea, hj⟩ := yields_bind.1 hj
  obtain ⟨diagram, h₄, hdiagram, hj⟩ := yields_bind.1 hj
  obtain ⟨report, h₅, hreport, hj⟩ := yields_bind.1 hj
  obtain ⟨hpaths, htree⟩ := yields_tell_return hj
  have hdirectory₁ := hverilog.directory
  have hdirectory₂ := hpower.directory.trans hdirectory₁
  have hdirectory₃ := harea.directory.trans hdirectory₂
  have hdirectory₄ := hdiagram.directory.trans hdirectory₃
  obtain ⟨fs₁, hfs₁, rfl, hput₁⟩ := puts_onlyIf puts_writePowerAnalysis _ _ _ _ hpower
  obtain ⟨fs₂, hfs₂, rfl, hput₂⟩ := puts_onlyIf puts_writeAreaAnalysis _ _ _ _ harea
  obtain ⟨fs₃, hfs₃, rfl, hput₃⟩ := puts_onlyIf (puts_writeDiagram source.name) _ _ _ _ hdiagram
  obtain ⟨fs₄, hfs₄, rfl, hput₄⟩ := puts_writeReport source.name _ _ _ _ hreport
  rw [hdirectory₁] at hput₁
  rw [hdirectory₂] at hput₂
  rw [hdirectory₃] at hput₃
  rw [hdirectory₄, ← htree] at hput₄
  refine ⟨source, c, verilog, h₁, fs₁ ++ fs₂ ++ fs₃ ++ fs₄, ?_, hc, hverilog, ?_, ?_,
    ((hput₁.append hput₂).append hput₃).append hput₄⟩
  · rw [sourceIn, hsource]
    rfl
  · rw [plainFiles, hfs₁, hfs₂, hfs₃, hfs₄]
    rfl
  · rw [hpaths]
    simp only [List.map_append, List.append_assoc]

theorem yields_writeComparison {references : List String}
    (hj : Yields disturbed h (writeComparison e o table references) paths h') :
    ∃ rows, references.mapM (comparisonRowIn e o h.tree h.directory table) = .ok rows ∧
      paths = (comparisonFiles o rows).map Prod.fst ∧
      WithFiles h.directory h.tree (comparisonFiles o rows) h'.tree := by
  have hrow : ∀ reference row h', Yields disturbed h (comparisonRow e o table reference) row h' →
      comparisonRowIn e o h.tree h.directory table reference = .ok row ∧ h' = h := by
    intro reference row h' hj
    obtain ⟨source, hsource, hj⟩ := (yields_reads_bind (ConfigSource.reads_resolveWith _ _ _)).1 hj
    obtain ⟨c, hc, hj⟩ := yields_check_bind.1 hj
    obtain ⟨summary, hsummary, hreturn⟩ := yields_check_bind.1 hj
    obtain ⟨rfl, rfl⟩ := yields_pure.1 hreturn
    rw [comparisonRowIn, sourceIn, hsource]
    refine ⟨?_, rfl⟩
    show ((Config.ofDocumentWith e.check source.raw table).mapError Failure.config >>= _) = _
    rw [hc]
    show ((c.summarize .undefined table).mapError Failure.estimate >>= _) = _
    rw [hsummary]
    rfl
  obtain ⟨rows, h₁, hread, hwrite⟩ := yields_bind.1 hj
  obtain ⟨hrows, rfl⟩ := yields_mapM hrow hread
  obtain ⟨json, h₂, hjson, hothers⟩ := yields_bind.1 hwrite
  obtain ⟨markdown, h₃, hmarkdown, htold⟩ := yields_bind.1 hothers
  obtain ⟨rfl, htree⟩ := yields_tell_return htold
  have hdirectory := hjson.directory
  obtain ⟨rfl, hput₁⟩ := yields_writeFile hjson
  obtain ⟨rfl, hput₂⟩ := yields_writeFile hmarkdown
  rw [hdirectory, ← htree] at hput₂
  exact ⟨rows, hrows, rfl, hput₁.append hput₂⟩

end steps

/-! ### The process table -/

section table

variable {disturbed : Nat → Option Disturbance} {h h' : Host} {e : Environment} {o : Options}
  {table : ProcessTable}

theorem yields_processTable (hj : Yields disturbed h (processTable e o) table h') :
    tableIn e o h.tree h.directory = .ok table ∧ h'.tree = h.tree := by
  rw [processTable] at hj
  rw [tableIn]
  cases htech : o.tech with
  | none =>
    rw [htech] at hj
    obtain ⟨rfl, rfl⟩ := yields_pure.1 hj
    exact ⟨rfl, rfl⟩
  | some file =>
    rw [htech] at hj
    dsimp only at hj ⊢
    by_cases hfile : file = ""
    · rw [if_pos hfile] at hj ⊢
      obtain ⟨rfl, rfl⟩ := yields_pure.1 hj
      exact ⟨rfl, rfl⟩
    · rw [if_neg hfile] at hj ⊢
      obtain ⟨overrides, hread, hmerge⟩ :=
        (yields_reads_bind (ConfigSource.reads_readDocument e.yaml file)).1 hj
      obtain ⟨merged, hmerged, htold⟩ := yields_check_bind.1 hmerge
      obtain ⟨_, h₁, htell, hreturn⟩ := yields_bind.1 htold
      obtain ⟨rfl, rfl⟩ := yields_pure.1 hreturn
      refine ⟨?_, tree_of_yields_tell htell⟩
      rw [hread]
      show (ProcessTable.standard.merge overrides).mapError Failure.override = _
      rw [hmerged]
      rfl

end table

/-! ### Places of their own -/

theorem isName_fileName {c : Config} {m : Rtl.Module} (hm : m ∈ c.modules) : IsName (m.name ++ ".v") := by
  have hsuffix : ∀ r : Rtl.Role, '/' ∉ r.suffix.toList := by
    intro r
    cases r <;> decide
  have hbase := notMem_of_isIdentifier (c := '/') c.isIdentifier_baseName (by decide) (by decide)
  refine Path.isName_of_getLast? (c := 'v') ?_ ?_ (by decide)
  · rw [((Config.mem_modules_iff c).1 hm).2, Config.name_moduleOf, String.toList_append,
      String.toList_append]
    simp [hbase, hsuffix]
  · rw [String.toList_append]
    exact List.getLast?_append_of_ne_nil _ (by decide)

section places

variable {e : Environment} {o : Options} {table : ProcessTable}
  {c : Config} {name : String} {fs gs : List OutputFile} {f : OutputFile} {directory : Place}

/-- The paths that the files beside the modules can have. -/
def plainPaths (o : Options) (name : String) : List Path :=
  [outputPath o "power_analysis.json", outputPath o "area_timing_analysis.json",
    outputPath o (name ++ "_diagram.svg"), outputPath o (name ++ "_report.md")]

theorem paths_of_checked {α ε : Type} {x : Except ε α} {cause : ε → Failure} {path : Path}
    {text : α → String}
    (hfs : (x.mapError cause >>= fun a => pure [(path, text a)]) = Except.ok fs) :
    fs.map Prod.fst = [path] := by
  cases x with
  | error e => cases hfs
  | ok a =>
    cases hfs
    rfl

theorem paths_powerFiles (hfs : powerFiles o table c = .ok fs) :
    fs.map Prod.fst = [outputPath o "power_analysis.json"] := by
  rw [powerFiles] at hfs
  exact paths_of_checked hfs

theorem paths_areaFiles (hfs : areaFiles o table c = .ok fs) :
    fs.map Prod.fst = [outputPath o "area_timing_analysis.json"] := by
  rw [areaFiles] at hfs
  exact paths_of_checked hfs

theorem paths_diagramFiles (hfs : diagramFiles e o name c = .ok fs) :
    fs.map Prod.fst = [outputPath o (name ++ "_diagram.svg")] := by
  cases hfs
  rfl

theorem paths_reportFiles (hfs : reportFiles o table name c = .ok fs) :
    fs.map Prod.fst = [outputPath o (name ++ "_report.md")] := by
  rw [reportFiles] at hfs
  exact paths_of_checked hfs

theorem sublist_of_askedFiles {asked : Bool} {files : Except Failure (List OutputFile)} {path : Path}
    (hfiles : ∀ {fs}, files = .ok fs → fs.map Prod.fst = [path])
    (hfs : askedFiles asked files = .ok fs) : (fs.map Prod.fst).Sublist [path] := by
  cases asked with
  | true => rw [hfiles hfs]
  | false =>
    cases hfs
    exact List.nil_sublist _

theorem sublist_plainFiles (hfs : plainFiles e o table name c = .ok fs) :
    (fs.map Prod.fst).Sublist (plainPaths o name) := by
  rw [plainFiles] at hfs
  simp only [bind_eq_ok_iff] at hfs
  obtain ⟨power, hpower, area, harea, diagram, hdiagram, report, hreport, hreturn⟩ := hfs
  cases hreturn
  have hpower := sublist_of_askedFiles paths_powerFiles hpower
  have harea := sublist_of_askedFiles paths_areaFiles harea
  have hdiagram := sublist_of_askedFiles paths_diagramFiles hdiagram
  rw [List.map_append, List.map_append, List.map_append, paths_reportFiles hreport]
  exact ((hpower.append harea).append hdiagram).append (List.Sublist.refl _)

theorem distinct_plainPaths (hout : (Path.ofText o.output).isEmpty = false) (directory : Place)
    (name : String) :
    ((plainPaths o name).map (Path.placeFrom directory)).Nodup ∧
      ∀ p ∈ plainPaths o name, lastLetter? (p.placeFrom directory) ≠ some 'v' := by
  have hletter : ∀ (name : String) {c : Char}, name.toList.getLast? = some c → c ≠ '/' → c ≠ '.' →
      lastLetter? ((outputPath o name).placeFrom directory) = some c := fun _ _ hlast hslash hdot =>
    Path.lastLetter?_placeFrom_join directory hout hlast hslash hdot
  have hending : ∀ ending : String, ending.toList ≠ [] →
      (name ++ ending).toList.getLast? = ending.toList.getLast? := fun ending hne => by
    rw [String.toList_append]
    exact List.getLast?_append_of_ne_nil _ hne
  have hpower := hletter "power_analysis.json" (c := 'n') rfl (by decide) (by decide)
  have harea := hletter "area_timing_analysis.json" (c := 'n') rfl (by decide) (by decide)
  have hdiagram := hletter _ (c := 'g') (hending "_diagram.svg" (by decide)) (by decide) (by decide)
  have hreport := hletter _ (c := 'd') (hending "_report.md" (by decide)) (by decide) (by decide)
  have hjson : (outputPath o "power_analysis.json").placeFrom directory ≠
      (outputPath o "area_timing_analysis.json").placeFrom directory := by
    rw [outputPath, Path.placeFrom_join_of_isName directory hout (by decide), outputPath,
      Path.placeFrom_join_of_isName directory hout (by decide)]
    exact fun he => absurd (List.append_cancel_left he) (by decide)
  have hapart : ∀ {x y : Place} {a b : Char}, lastLetter? x = some a → lastLetter? y = some b →
      a ≠ b → x ≠ y := by
    rintro x _ a b ha hb hab rfl
    exact hab (Option.some.inj (ha.symm.trans hb))
  constructor
  · simp only [plainPaths, List.map_cons, List.map_nil, List.nodup_cons, List.mem_cons,
      List.not_mem_nil, or_false, not_or, not_false_eq_true, List.nodup_nil, and_true]
    exact ⟨⟨hjson, hapart hpower hdiagram (by decide), hapart hpower hreport (by decide)⟩,
      ⟨hapart harea hdiagram (by decide), hapart harea hreport (by decide)⟩,
      hapart hdiagram hreport (by decide)⟩
  · simp [plainPaths, hpower, harea, hdiagram, hreport]

theorem distinct_plainFiles (hout : (Path.ofText o.output).isEmpty = false) (directory : Place)
    (hfs : plainFiles e o table name c = .ok fs) :
    (placesOf directory fs).Nodup ∧ ∀ f ∈ fs, lastLetter? (f.1.placeFrom directory) ≠ some 'v' := by
  obtain ⟨hnodup, hletters⟩ := distinct_plainPaths hout directory name
  have hsub := sublist_plainFiles hfs
  have hmap : placesOf directory fs = (fs.map Prod.fst).map (Path.placeFrom directory) := by
    rw [List.map_map]
    rfl
  rw [hmap]
  exact ⟨hnodup.sublist (hsub.map _), fun f hf => hletters f.1 (hsub.subset (List.mem_map_of_mem hf))⟩

theorem verilogPlace_eq (hout : (Path.ofText o.output).isEmpty = false) (directory : Place) :
    verilogPlace o directory = (Path.ofText o.output).placeFrom directory ++ ["verilog"] :=
  Path.placeFrom_join_of_isName directory hout (by decide)

/-- The modules of a configuration have places of their own in their directory. -/
theorem exists_verilogFiles (o : Options) (c : Config) (directory : Place) :
    ∃ artifacts, c.design.artifacts = .ok artifacts ∧
      verilogFiles o c =
        .ok (artifacts.map fun a => ((outputPath o "verilog").join a.name, a.text)) ∧
      (artifacts.map Rtl.Artifact.name).Nodup ∧
      (∀ a ∈ artifacts, IsName a.name) ∧
      ∀ a ∈ artifacts, ((outputPath o "verilog").join a.name).placeFrom directory =
        verilogPlace o directory ++ [a.name] ∧
        lastLetter? (((outputPath o "verilog").join a.name).placeFrom directory) = some 'v' := by
  obtain ⟨artifacts, hartifacts, hfiles⟩ := Rtl.exists_files c
  have hfile : ∀ a ∈ artifacts, ∃ m ∈ c.modules, a.name = m.name ++ ".v" := by
    intro a ha
    have hmem : a.name ∈ artifacts.map Rtl.Artifact.name := List.mem_map_of_mem ha
    rw [hfiles] at hmem
    obtain ⟨m, hm, hname⟩ := List.mem_map.1 hmem
    exact ⟨m, hm, hname.symm⟩
  have hname : ∀ a ∈ artifacts, IsName a.name := by
    intro a ha
    obtain ⟨m, hm, hname⟩ := hfile a ha
    rw [hname]
    exact isName_fileName hm
  have hverilog := Path.isEmpty_join (Path.ofText o.output) "verilog"
  refine ⟨artifacts, hartifacts, ?_, ?_, hname, fun a ha => ⟨?_, ?_⟩⟩
  · rw [verilogFiles, hartifacts]
    rfl
  · rw [hfiles]
    exact Rtl.nodup_fileNames c
  · exact Path.placeFrom_join_of_isName directory hverilog (hname a ha)
  · obtain ⟨m, -, hm⟩ := hfile a ha
    refine Path.lastLetter?_placeFrom_join directory hverilog ?_ (by decide) (by decide)
    rw [hm, String.toList_append]
    exact List.getLast?_append_of_ne_nil _ (by decide)

end places

/-! ### Published modules -/

/-- The directory `d` of the second tree holds these files and nothing else; outside of it the second
tree is the first one. -/
structure Filled (directory d : Place) (t : Tree) (fs : List OutputFile) (t' : Tree) : Prop where
  there : t'.get? d = some .directory
  written : ∀ f ∈ fs, t'.get? (f.1.placeFrom directory) = some (.file f.2)
  only : ∀ x, x ≠ [] → d ++ x ∉ placesOf directory fs → t'.get? (d ++ x) = none
  outside : ∀ x, ¬ d <+: x → t'.get? x = t.get? x

section publish

variable {disturbed : Nat → Option Disturbance} {h h' : Host} {paths : List Path} {e : Environment}
  {o : Options} {c : Config} {d : Place}

theorem run_publish (log : Log.Threshold) (hcwd : Named h.directory) {p : Path}
    (hp : ∀ n ∈ p.parts, IsPart n) (artifacts : List Rtl.Artifact) :
    h.run disturbed (Rtl.publish log p artifacts) =
      h.run disturbed (publishAt log (Path.ofPlace (p.placeFrom h.directory)) artifacts) := by
  rw [Rtl.publish, run_bind, run_ask, ← Path.parts_resolve hcwd hp]
  rfl

/-- Where the directory of the destination is there, nothing around the destination is new. -/
theorem around_of_directory (ht : h.tree.WellFormed) (hdir : h.tree.get? d.dropLast = some .directory)
    (haround : Around h h' d) {x : Place} (hx : ¬ d <+: x) : h'.tree.get? x = h.tree.get? x := by
  rcases haround x hx with hsame | ⟨hnone, hway, -⟩
  · exact hsame
  · by_cases he : x = d.dropLast
    · rw [he, hdir] at hnone
      cases hnone
    · rw [ht.ancestor (by rw [hdir]; rfl) hway he] at hnone
      cases hnone

theorem yields_writeVerilog (hplain : OnlyFails disturbed) (ht : h.tree.WellFormed)
    (hcwd : Named h.directory) (hout : (Path.ofText o.output).isEmpty = false)
    (hdir : h.tree.get? ((Path.ofText o.output).placeFrom h.directory) = some .directory)
    (hj : Yields disturbed h (writeVerilog e o c) paths h') :
    ∃ fs, verilogFiles o c = .ok fs ∧ paths = fs.map Prod.fst ∧
      Filled h.directory (verilogPlace o h.directory) h.tree fs h'.tree := by
  obtain ⟨artifacts, hartifacts, hpublish⟩ := yields_check_bind.1 hj
  obtain ⟨names, h₁, hnames, htold⟩ := yields_bind.1 hpublish
  obtain ⟨rfl, htree⟩ := yields_tell_return htold
  obtain ⟨artifacts', hartifacts', hfs, hdistinct, hname, hplaces⟩ :=
    exists_verilogFiles o c h.directory
  obtain rfl : artifacts' = artifacts := Except.ok.inj (hartifacts'.symm.trans hartifacts)
  have hparts : ∀ n ∈ (outputPath o "verilog").parts, IsPart n := fun n hn =>
    Path.isPart_of_mem_join (fun _ => Path.isPart_of_mem_ofText) hn
  have hparent : h.tree.get? (verilogPlace o h.directory).dropLast = some .directory := by
    rw [verilogPlace_eq hout, List.dropLast_concat]
    exact hdir
  have hpublished : h.run disturbed (Rtl.publish e.log (outputPath o "verilog") artifacts') =
      (.ok names, h₁) := yields_attempt.1 hnames
  rw [run_publish e.log hcwd hparts] at hpublished
  obtain ⟨result, h₂, hrun, hresult⟩ := run_publishAt e.log ht hplain.plainOthers
    (Path.named_placeFrom hcwd hparts) fun a ha => .inl (hname a ha)
  rw [hpublished] at hrun
  cases hrun
  obtain ⟨rfl, hcomplete⟩ := complete_of_published hplain hdistinct hresult
  refine ⟨_, hfs, by rw [List.map_map, List.map_map]; rfl, ?_⟩
  rw [htree]
  refine ⟨hcomplete.directory, fun f hf => ?_, fun x hx hnew => ?_, fun x hx =>
    around_of_directory ht hparent hcomplete.around hx⟩
  · obtain ⟨a, ha, rfl⟩ := List.mem_map.1 hf
    rw [(hplaces a ha).1]
    exact hcomplete.files a ha
  · by_contra hsome
    obtain ⟨a, ha, rfl⟩ := hcomplete.only x hx (Option.isSome_iff_ne_none.2 hsome)
    exact hnew (List.mem_map.2 ⟨_, List.mem_map_of_mem ha, (hplaces a ha).1⟩)

end publish

end MemoryCompiler.CommandLine
