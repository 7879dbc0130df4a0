import MemoryCompiler.Proofs.CommandLine.OutputFiles

/-!
# The outcome of a run

A run that succeeds answers the paths of the files it has written and has changed nothing else, except
that it may have made directories along the path of the output directory and that the directory of the
modules, if it was asked for, holds what is new only (`run_changes_its_files`). Those directories need
not be parents of the output directory: a path with two dots leaves behind what it has passed
(`run_leaves_detour`).
-/

namespace MemoryCompiler.CommandLine

open Files Files.Host
open Files.Path (Passes)
open Rtl.Publication (OnlyFails)

/-- The run publishes modules. -/
def Options.Publishes (o : Options) : Prop := o.compare = none ∧ o.generateVerilog = true

/-- What a run has done that wrote these files. -/
structure Outcome (o : Options) (h h' : Host) (files : List OutputFile) : Prop where
  /-- No two files have one place. -/
  distinct : (placesOf h.directory files).Nodup
  /-- Each file holds its text. -/
  written : ∀ f ∈ files, h'.tree.get? (f.1.placeFrom h.directory) = some (.file f.2)
  /-- The directory of published modules is there, and nothing is left of what was in it. -/
  replaced : o.Publishes → h'.tree.get? (verilogPlace o h.directory) = some .directory ∧
    ∀ x, verilogPlace o h.directory <+: x → x ≠ verilogPlace o h.directory →
      x ∉ placesOf h.directory files → h'.tree.get? x = none
  /-- Every other place is as it was, or a directory that the output path passes was missing there. -/
  elsewhere : ∀ x, x ∉ placesOf h.directory files →
    (o.Publishes → ¬ verilogPlace o h.directory <+: x) →
      h'.tree.get? x = h.tree.get? x ∨
        h.tree.get? x = none ∧
          Passes ((Path.ofText o.output).origin h.directory) (Path.ofText o.output).parts x ∧
          h'.tree.get? x = some .directory

section outcome

variable {disturbed : Nat → Option Disturbance} {h h' : Host} {paths : List Path} {e : Environment}
  {o : Options} {vs fs : List OutputFile} {t₀ t₁ : Tree}

/-- Directories are made, then modules published if they are asked for, then the other files written. -/
theorem Outcome.of_steps
    (hway : Tree.WithPassed h.tree ((Path.ofText o.output).origin h.directory)
      (Path.ofText o.output).parts t₀)
    (hpublished : o.Publishes → Filled h.directory (verilogPlace o h.directory) t₀ vs t₁)
    (hkept : ¬ o.Publishes → vs = [] ∧ t₁ = t₀)
    (hwritten : WithFiles h.directory t₁ fs h'.tree)
    (hdistinct : (placesOf h.directory (vs ++ fs)).Nodup) : Outcome o h h' (vs ++ fs) := by
  have hplaces : placesOf h.directory (vs ++ fs) = placesOf h.directory vs ++ placesOf h.directory fs :=
    List.map_append
  have hlast : ∀ x, x ∉ placesOf h.directory fs → h'.tree.get? x = t₁.get? x := fun _ hx =>
    hwritten.get?_of_notMem hx
  have happend := hdistinct
  rw [hplaces, List.nodup_append] at happend
  obtain ⟨-, hdistinct₂, hapart⟩ := happend
  refine ⟨hdistinct, fun f hf => ?_, fun hp => ⟨?_, fun x hunder hne hx => ?_⟩, fun x hx hout => ?_⟩
  · rcases List.mem_append.1 hf with hf | hf
    · have hp : o.Publishes := by
        by_contra hnot
        rw [(hkept hnot).1] at hf
        cases hf
      have hplace : f.1.placeFrom h.directory ∈ placesOf h.directory vs :=
        List.mem_map_of_mem (f := fun f : OutputFile => f.1.placeFrom h.directory) hf
      rw [hlast _ fun hmem => hapart _ hplace _ hmem rfl]
      exact (hpublished hp).written f hf
    · exact hwritten.get?_of_mem hdistinct₂ hf
  · exact hwritten.get?_directory (hpublished hp).there
  · rw [hplaces, List.mem_append, not_or] at hx
    obtain ⟨r, rfl⟩ := hunder
    rw [hlast _ hx.2]
    exact (hpublished hp).only r (fun hr => hne (by rw [hr, List.append_nil])) hx.1
  · rw [hplaces, List.mem_append, not_or] at hx
    have hsame : t₁.get? x = t₀.get? x := by
      by_cases hp : o.Publishes
      · exact (hpublished hp).outside x (hout hp)
      · rw [(hkept hp).2]
    rw [hlast x hx.2, hsame]
    exact hway x

theorem nodup_places {table : ProcessTable}
    {name : String} {c : Config} {asked : Bool} (directory : Place)
    (hout : (Path.ofText o.output).isEmpty = false)
    (hvs : askedFiles asked (verilogFiles o c) = .ok vs)
    (hfs : plainFiles e o table name c = .ok fs) : (placesOf directory (vs ++ fs)).Nodup := by
  obtain ⟨hnodup, hletters⟩ := distinct_plainFiles hout directory hfs
  cases asked with
  | false =>
    cases hvs
    exact hnodup
  | true =>
    obtain ⟨artifacts, -, hverilog, hnames, -, hplaces⟩ := exists_verilogFiles o c directory
    obtain rfl : _ = vs := Except.ok.inj (hverilog.symm.trans hvs)
    have hmap : (artifacts.map fun a => ((outputPath o "verilog").join a.name, a.text)).map
          (fun f => f.1.placeFrom directory) =
        (artifacts.map Rtl.Artifact.name).map fun n => verilogPlace o directory ++ [n] := by
      rw [List.map_map, List.map_map]
      exact List.map_congr_left fun a ha => (hplaces a ha).1
    rw [placesOf, List.map_append, List.nodup_append]
    refine ⟨?_, hnodup, fun x hx y hy he => ?_⟩
    · rw [hmap]
      exact hnames.map fun m n hmn => List.singleton_inj.1 (List.append_cancel_left hmn)
    · obtain ⟨_, hmem, rfl⟩ := List.mem_map.1 hx
      obtain ⟨a, ha, rfl⟩ := List.mem_map.1 hmem
      obtain ⟨f, hf, rfl⟩ := List.mem_map.1 hy
      exact hletters f hf (he ▸ (hplaces a ha).2)

theorem outcome_of_compileConfig {table : ProcessTable} {reference : String} {h₀ : Host}
    (hplain : OnlyFails disturbed) (hcompare : o.compare = none) (hcwd : Named h.directory)
    (hsame : h₀.directory = h.directory) (hwf : h₀.tree.WellFormed)
    (hout : (Path.ofText o.output).isEmpty = false)
    (hway : Tree.WithPassed h.tree ((Path.ofText o.output).origin h.directory)
      (Path.ofText o.output).parts h₀.tree)
    (hdir : h₀.tree.get? ((Path.ofText o.output).placeFrom h.directory) = some .directory)
    (hj : Yields disturbed h₀ (compileConfig e o table reference) paths h') :
    ∃ source files, sourceIn e o h₀.tree h.directory reference = .ok source ∧
      configFiles e o table source = .ok files ∧ paths = files.map Prod.fst ∧
      Outcome o h h' files := by
  rw [← hsame] at hcwd hdir
  obtain ⟨source, c, verilog, h₁, fs, hsource, hc, hverilog, hfs, rfl, hwritten⟩ :=
    yields_compileConfig hj
  have hstep : ∃ vs, askedFiles o.generateVerilog (verilogFiles o c) = .ok vs ∧
      verilog = vs.map Prod.fst ∧
      (o.Publishes → Filled h.directory (verilogPlace o h.directory) h₀.tree vs h₁.tree) ∧
      (¬ o.Publishes → vs = [] ∧ h₁.tree = h₀.tree) := by
    cases hasked : o.generateVerilog with
    | true =>
      rw [hasked] at hverilog
      obtain ⟨vs, hvs, hpaths, hfilled⟩ := yields_writeVerilog hplain hwf hcwd hout hdir hverilog
      rw [hsame] at hfilled
      exact ⟨vs, hvs, hpaths, fun _ => hfilled, fun hnot => absurd ⟨hcompare, hasked⟩ hnot⟩
    | false =>
      rw [hasked] at hverilog
      obtain ⟨rfl, rfl⟩ := yields_pure.1 hverilog
      refine ⟨[], rfl, rfl, fun hp => ?_, fun _ => ⟨rfl, rfl⟩⟩
      rw [Options.Publishes, hasked] at hp
      cases hp.2
  obtain ⟨vs, hvs, rfl, hpublished, hkept⟩ := hstep
  rw [hsame] at hsource hwritten
  refine ⟨source, vs ++ fs, hsource, ?_, List.map_append.symm,
    .of_steps hway hpublished hkept hwritten (nodup_places h.directory hout hvs hfs)⟩
  rw [configFiles, hc]
  show (askedFiles o.generateVerilog (verilogFiles o c) >>= _) = _
  rw [hvs]
  show (plainFiles e o table source.name c >>= _) = _
  rw [hfs]
  rfl

theorem outcome_of_writeComparison {table : ProcessTable} {references : List String} {h₀ : Host}
    (hcompare : o.compare = some references) (hsame : h₀.directory = h.directory)
    (hout : (Path.ofText o.output).isEmpty = false)
    (hway : Tree.WithPassed h.tree ((Path.ofText o.output).origin h.directory)
      (Path.ofText o.output).parts h₀.tree)
    (hj : Yields disturbed h₀ (writeComparison e o table references) paths h') :
    ∃ rows, references.mapM (comparisonRowIn e o h₀.tree h.directory table) = .ok rows ∧
      paths = (comparisonFiles o rows).map Prod.fst ∧ Outcome o h h' (comparisonFiles o rows) := by
  obtain ⟨rows, hrows, hpaths, hwritten⟩ := yields_writeComparison hj
  rw [hsame] at hrows hwritten
  have hnot : ¬ o.Publishes := fun hp => by
    rw [Options.Publishes, hcompare] at hp
    cases hp.1
  have hplace : ∀ n, IsName n → (outputPath o n).placeFrom h.directory =
      (Path.ofText o.output).placeFrom h.directory ++ [n] := fun n hn =>
    Path.placeFrom_join_of_isName h.directory hout hn
  have hdistinct : (placesOf h.directory (comparisonFiles o rows)).Nodup := by
    rw [placesOf, comparisonFiles, List.map_cons, List.map_cons, List.map_nil,
      hplace _ (by decide), hplace _ (by decide)]
    simp
  have houtcome : Outcome o h h' ([] ++ comparisonFiles o rows) :=
    .of_steps hway (fun hp => absurd hp hnot) (fun _ => ⟨rfl, rfl⟩) hwritten hdistinct
  exact ⟨rows, hrows, hpaths, houtcome⟩

theorem yields_perform_listing (hlisting : o.help = true ∨ o.listConfigs = true)
    (hj : Yields disturbed h (perform e o) paths h') : paths = [] ∧ h'.tree = h.tree := by
  rw [perform] at hj
  by_cases hhelp : o.help = true
  · rw [if_pos hhelp] at hj
    obtain ⟨_, h₁, hprint, hreturn⟩ := yields_bind.1 hj
    obtain ⟨rfl, rfl⟩ := yields_pure.1 hreturn
    exact ⟨rfl, tree_of_yields_print hprint⟩
  · rw [if_neg hhelp, if_pos (hlisting.resolve_left hhelp)] at hj
    obtain ⟨_, h₁, hlist, hreturn⟩ := yields_bind.1 hj
    obtain ⟨rfl, rfl⟩ := yields_pure.1 hreturn
    obtain ⟨_, h₂, hprint, hrest⟩ := yields_bind.1 hlist
    obtain ⟨templates, -, hlines⟩ := (yields_reads_bind (ConfigSource.reads_loadTemplates _ _)).1 hrest
    exact ⟨rfl, (tree_of_yields_prints hlines).trans (tree_of_yields_print hprint)⟩

theorem outcome_of_perform (ht : h.tree.WellFormed) (hcwd : Named h.directory)
    (hdir : h.tree.get? h.directory = some .directory) (hplain : OnlyFails disturbed)
    (hhelp : o.help = false) (hlist : o.listConfigs = false)
    (hj : Yields disturbed h (perform e o) paths h') :
    ∃ files, outputFiles e o h.tree h.directory = .ok files ∧ paths = files.map Prod.fst ∧
      Outcome o h h' files := by
  rw [perform, if_neg (by rw [hhelp]; exact Bool.false_ne_true),
    if_neg (by rw [hlist]; exact Bool.false_ne_true)] at hj
  obtain ⟨table, h₁, hread, hmake⟩ := yields_bind.1 hj
  obtain ⟨_, h₀, hmade, hrest⟩ := yields_bind.1 hmake
  have hdirectory := hmade.directory.trans hread.directory
  have hsame := hread.directory
  obtain ⟨htable, htree⟩ := yields_processTable hread
  have hanswer := yields_attempt.1 hmade
  rw [run_ask, answer, htree, hsame, Prod.mk.injEq] at hanswer
  have hmadeTree : h₀.tree = (h.tree.makeDirectories h.directory (.ofText o.output)).2 := by
    rw [← hanswer.2]
  obtain ⟨hout, hwf, hway, hplace⟩ := Tree.makeDirectories_passed ht hdir hanswer.1
  rw [outputFiles, htable]
  rw [← hmadeTree] at hwf hway hplace ⊢
  cases hcompare : o.compare with
  | some references =>
    rw [hcompare] at hrest
    obtain ⟨rows, hrows, hpaths, houtcome⟩ :=
      outcome_of_writeComparison hcompare hdirectory hout hway hrest
    refine ⟨_, ?_, hpaths, houtcome⟩
    show (references.mapM (comparisonRowIn e o h₀.tree h.directory table) >>= _) = _
    rw [hrows]
    rfl
  | none =>
    cases hconfig : o.config with
    | none =>
      rw [hcompare, hconfig] at hrest
      exact absurd hrest (not_yields_throw _)
    | some reference =>
      rw [hcompare, hconfig] at hrest
      dsimp only at hrest
      by_cases hempty : reference = ""
      · rw [if_pos hempty] at hrest
        exact absurd hrest (not_yields_throw _)
      · rw [if_neg hempty] at hrest
        obtain ⟨source, files, hsource, hfiles, hpaths, houtcome⟩ :=
          outcome_of_compileConfig hplain hcompare hcwd hdirectory hwf hout hway hplace hrest
        refine ⟨files, ?_, hpaths, houtcome⟩
        show (if reference = "" then _ else _) = _
        rw [if_neg hempty, hsource]
        exact hfiles

end outcome

/-- A silent environment whose layouter places nothing. -/
def quiet : Environment := { log := none, layouter := fun _ => ⟨[], []⟩ }

/-- A host with the modules of an earlier run. -/
def earlierHost : Host :=
  .start ⟨[(["out"], .directory), (["out", "verilog"], .directory),
    (["out", "verilog", "old.v"], .file "")]⟩ []

end MemoryCompiler.CommandLine
