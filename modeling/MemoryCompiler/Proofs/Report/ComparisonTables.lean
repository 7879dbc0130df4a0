import MemoryCompiler.Proofs.Report.MarkdownTables
import MemoryCompiler.Report.Comparison

/-!
# The tables of a comparison

A comparison is read back as its three tables, a row for each configuration in order, as long as no name
holds a bar or a line break; of the name, the blanks at its ends are lost (`readTables_of_unseparated`). Names
are written as they are, so this condition is also needed for each row to be as wide as the header and to
begin with its name (`comparison_tables`): a bar splits a cell (`bar_splits_cell`).
-/

namespace MemoryCompiler.Report

open Decimal (fixed natText inNumeral)
open Markdown

/-! ### Texts in the cells -/

section texts

variable {s t : String}

/-- A character that neither ends a cell or a line nor is a blank. -/
def isInk (c : Char) : Bool := !isBreak c && !isPad c && c != '|'

theorem isCellText_of_isInk (h : ∀ c ∈ s.toList, isInk c = true) : IsCellText s := by
  simp only [isInk, Bool.and_eq_true, Bool.not_eq_true', bne_iff_ne] at h
  exact ⟨⟨fun c hc => (h c hc).1.1, fun hbar => (h _ hbar).2 rfl⟩, trimPad_of_forall fun c hc => (h c hc).1.2⟩

theorem isInk_of_inNumeral {c : Char} (h : inNumeral c = true) : isInk c = true := by
  by_contra hnot
  have hcases : c = '\n' ∨ c = '\r' ∨ c = ' ' ∨ c = '\t' ∨ c = '|' := by
    simp only [isInk, isBreak, isPad, Bool.and_eq_true, Bool.not_eq_true', Bool.or_eq_false_iff, beq_eq_false_iff_ne,
      bne_iff_ne] at hnot
    tauto
  rcases hcases with rfl | rfl | rfl | rfl | rfl
  all_goals exact absurd h (by decide)

theorem isCellText_numeral (h : ∀ c ∈ s.toList, inNumeral c = true) : IsCellText s :=
  isCellText_of_isInk fun c hc => isInk_of_inNumeral (h c hc)

theorem isCellText_numeral_append (h : ∀ c ∈ s.toList, inNumeral c = true) (ht : t.toList.all isInk = true) :
    IsCellText (s ++ t) := by
  apply isCellText_of_isInk
  intro c hc
  rw [String.toList_append, List.mem_append] at hc
  rcases hc with hc | hc
  · exact isInk_of_inNumeral (h c hc)
  · exact List.all_eq_true.1 ht c hc

theorem isCellText_natText (n : Nat) : IsCellText (natText n) :=
  isCellText_numeral fun _ => Decimal.inNumeral_of_mem_natText

theorem isCellText_fixed (places : Nat) (x : Float) : IsCellText (fixed places x) :=
  isCellText_numeral fun _ => Decimal.inNumeral_of_mem_fixed

/-- Whether some characters are a text for a cell. -/
def checkCell (cs : List Char) : Bool := cs.all (fun c => !isBreak c && c != '|') && trimPad cs == cs

theorem isCellText_of_checkCell (h : checkCell s.toList = true) : IsCellText s := by
  simp only [checkCell, Bool.and_eq_true, List.all_eq_true, Bool.not_eq_true', bne_iff_ne, beq_iff_eq] at h
  exact ⟨⟨fun c hc => (h.1 c hc).1, fun hbar => (h.1 _ hbar).2 rfl⟩, h.2⟩

theorem isCellText_of_all {texts : List String} (h : (texts.all fun s => checkCell s.toList) = true) :
    ∀ s ∈ texts, IsCellText s :=
  fun s hs => isCellText_of_checkCell (List.all_eq_true.1 h s hs)

theorem isCellText_featureTags (c : Config) : IsCellText (", ".intercalate c.featureTags) := by
  apply isCellText_of_checkCell
  unfold Config.featureTags
  cases c.powerGating <;> cases c.clockGating <;> cases c.retentionMode <;> cases c.eccEnable <;> decide

end texts

/-! ### Rows that begin with a name -/

/-- Cells of a configuration that go with some heads: the name, and then texts for cells that do not depend on
it. -/
structure Leads (heads : List String) (cells : ComparisonRow → List String) : Prop where
  heads_ne : heads ≠ []
  texts : ∀ head ∈ heads, IsCellText head
  figures : ∀ r : ComparisonRow, ∃ figures, (∀ name, cells { r with name := name } = name :: figures) ∧
    (∀ figure ∈ figures, IsCellText figure) ∧ figures.length + 1 = heads.length

theorem leads_config : Leads (configTable []).headers ComparisonRow.configCells where
  heads_ne := List.cons_ne_nil _ _
  texts := isCellText_of_all (by decide)
  figures := by
    intro r
    refine ⟨r.configCells.tail, fun name => rfl, ?_, rfl⟩
    simp only [ComparisonRow.configCells, List.tail_cons, List.forall_mem_cons]
    refine ⟨isCellText_natText _, isCellText_natText _, isCellText_natText _, ?_, ?_, isCellText_featureTags _,
      List.forall_mem_nil _⟩
    · exact isCellText_numeral_append (fun _ => Decimal.inNumeral_of_mem_text) (by decide)
    · exact isCellText_numeral_append (fun _ => Decimal.inNumeral_of_mem_natText) (by decide)

theorem isCellText_figures (figures : List (Nat × Float)) :
    ∀ text ∈ figures.map fun figure => fixed figure.1 figure.2, IsCellText text := by
  intro text htext
  obtain ⟨figure, -, rfl⟩ := List.mem_map.1 htext
  exact isCellText_fixed figure.1 figure.2

theorem leads_power : Leads (powerTable []).headers ComparisonRow.powerCells where
  heads_ne := List.cons_ne_nil _ _
  texts := isCellText_of_all (by decide)
  figures := by
    intro r
    let p := r.summary.power
    exact ⟨_, fun name => rfl, isCellText_figures [(3, p.dynamic), (3, p.static), (3, p.total), (1, p.retention)], rfl⟩

theorem leads_area : Leads (areaTable []).headers ComparisonRow.areaCells where
  heads_ne := List.cons_ne_nil _ _
  texts := isCellText_of_all (by decide)
  figures := by
    intro r
    let a := r.summary.area
    let t := r.summary.timing
    exact ⟨_, fun name => rfl,
      isCellText_figures [(4, a.total), (1, a.efficiency * 100), (2, t.access), (1, t.maxFrequency)], rfl⟩

namespace Leads

variable {heads : List String} {cells : ComparisonRow → List String} {rows : List ComparisonRow}
  {r : ComparisonRow}

theorem cells_eq (h : Leads heads cells) (r : ComparisonRow) :
    ∃ figures, cells r = r.name :: figures ∧ (∀ figure ∈ figures, IsCellText figure) ∧
      figures.length + 1 = heads.length := by
  obtain ⟨figures, hcells, htexts, hlength⟩ := h.figures r
  exact ⟨figures, hcells r.name, htexts, hlength⟩

theorem onLines (h : Leads heads cells) (hnames : ∀ r ∈ rows, ∀ c ∈ r.name.toList, isBreak c = false) :
    OnLines ⟨heads, rows.map cells⟩ where
  headers_ne := h.heads_ne
  headers := h.texts
  rows_ne := by
    intro row hrow
    obtain ⟨r, -, rfl⟩ := List.mem_map.1 hrow
    obtain ⟨figures, heq, -⟩ := h.cells_eq r
    simp [heq]
  rows := by
    intro row hrow
    obtain ⟨r, hr, rfl⟩ := List.mem_map.1 hrow
    obtain ⟨figures, heq, htexts, -⟩ := h.cells_eq r
    rw [heq, List.forall_mem_cons]
    exact ⟨hnames r hr, fun figure hfigure => (htexts figure hfigure).oneLine⟩

/-- Of a row, only its name can be read otherwise than it is. -/
theorem rowAsRead_cells (h : Leads heads cells) (hname : Unseparated r.name) :
    rowAsRead (cells r) = cells { r with name := cellAsRead r.name } := by
  obtain ⟨figures, hcells, htexts, -⟩ := h.figures r
  have hbars : ∀ cell ∈ r.name :: figures, '|' ∉ cell.toList := by
    rw [List.forall_mem_cons]
    exact ⟨hname.noBar, fun figure hfigure => (htexts figure hfigure).noBar⟩
  have hfigures : figures.map cellAsRead = figures := by
    rw [List.map_congr_left fun figure hfigure => (htexts figure hfigure).cellAsRead_eq, List.map_id']
  calc rowAsRead (cells r) = rowAsRead (r.name :: figures) := congrArg rowAsRead (hcells r.name)
    _ = cellAsRead r.name :: figures := by
      rw [rowAsRead_eq (List.cons_ne_nil _ _) hbars, List.map_cons, hfigures]
    _ = cells { r with name := cellAsRead r.name } := (hcells _).symm

theorem noBar_of_rowAsRead (h : Leads heads cells) (hhead : (rowAsRead (cells r)).head? = some r.name) :
    '|' ∉ r.name.toList := by
  obtain ⟨figures, heq, -⟩ := h.cells_eq r
  rw [rowAsRead, heq, List.head?_map, Option.map_eq_some_iff] at hhead
  obtain ⟨first, hfirst, hname⟩ := hhead
  apply noBar_of_head?_readRow
  rw [hfirst, ← hname, String.toList_ofList]

end Leads

/-! ### The three tables -/

/-- A table has a row for each name in order, as wide as the header and with the name in front. -/
structure Shows (t : Table) (names : List String) : Prop where
  width : ∀ row ∈ t.rows, row.length = t.headers.length
  names : t.rows.map List.head? = names.map some

/-- A row under its name as it is read from a cell. -/
def ComparisonRow.asRead (r : ComparisonRow) : ComparisonRow := { r with name := cellAsRead r.name }

section comparison

variable {rows : List ComparisonRow}

theorem Leads.shows {heads : List String} {cells : ComparisonRow → List String} (h : Leads heads cells)
    (rows : List ComparisonRow) : Shows ⟨heads, rows.map cells⟩ (rows.map ComparisonRow.name) where
  width := by
    intro row hrow
    obtain ⟨r, -, rfl⟩ := List.mem_map.1 hrow
    obtain ⟨figures, heq, -, hlength⟩ := h.cells_eq r
    rw [heq, List.length_cons, hlength]
  names := by
    rw [List.map_map, List.map_map]
    refine List.map_congr_left fun r _ => ?_
    obtain ⟨figures, heq, -⟩ := h.cells_eq r
    rw [Function.comp_apply, heq, List.head?_cons, Function.comp_apply]

theorem oneLine_of_all {lines : List String} (h : (lines.all fun line => line.toList.all (!isBreak ·)) = true) :
    ∀ line ∈ lines, ∀ c ∈ line.toList, isBreak c = false := by
  simpa only [List.all_eq_true, Bool.not_eq_true'] using h

theorem Leads.noBar_of_shows {heads : List String} {cells : ComparisonRow → List String} (h : Leads heads cells)
    (hshows : Shows (tableAsRead ⟨heads, rows.map cells⟩) (rows.map ComparisonRow.name)) :
    ∀ r ∈ rows, '|' ∉ r.name.toList := by
  have hnames : rows.map (fun r => (rowAsRead (cells r)).head?) = rows.map fun r => some r.name := by
    simpa only [tableAsRead, List.map_map, Function.comp_def] using hshows.names
  exact fun r hr => h.noBar_of_rowAsRead (List.map_eq_map_iff.1 hnames r hr)

theorem readTables_comparison (hnames : ∀ r ∈ rows, ∀ c ∈ r.name.toList, isBreak c = false) :
    readTables (comparison rows) =
      [tableAsRead (configTable rows), tableAsRead (powerTable rows), tableAsRead (areaTable rows)] := by
  have hconfig : OnLines (configTable rows) := leads_config.onLines hnames
  have hpower : OnLines (powerTable rows) := leads_power.onLines hnames
  have harea : OnLines (areaTable rows) := leads_area.onLines hnames
  have hlines : splitLines (comparison rows).toList =
      "# SRAM Configuration Comparison Report".toList :: [] :: "## Configuration Summary".toList :: [] ::
        ((configTable rows).lines.map String.toList ++ [] :: "## Power Comparison".toList :: [] ::
          ((powerTable rows).lines.map String.toList ++ [] :: "## Area Comparison".toList :: [] ::
            ((areaTable rows).lines.map String.toList ++ [[]]))) := by
    rw [comparison, splitLines_documentText (by simp)]
    · simp
    · simp only [List.forall_mem_append]
      refine ⟨⟨⟨⟨⟨?_, hconfig.oneLine⟩, ?_⟩, hpower.oneLine⟩, ?_⟩, harea.oneLine⟩
      all_goals exact oneLine_of_all (by decide)
  have hend : tablesOf [[]] = [] := by rw [tablesOf]; simp
  rw [readTables, hlines, tablesOf_cons (startsTable_above_blank _), hconfig.tablesOf_section,
    hpower.tablesOf_section, harea.tablesOf_section, hend]

theorem readTables_of_unseparated (hnames : ∀ r ∈ rows, Unseparated r.name) :
    readTables (comparison rows) =
      [configTable (rows.map ComparisonRow.asRead), powerTable (rows.map ComparisonRow.asRead),
        areaTable (rows.map ComparisonRow.asRead)] := by
  have hrows : ∀ {heads cells}, Leads heads cells →
      (rows.map cells).map rowAsRead = (rows.map ComparisonRow.asRead).map cells := by
    intro heads cells h
    rw [List.map_map, List.map_map]
    exact List.map_congr_left fun r hr => h.rowAsRead_cells (hnames r hr)
  rw [readTables_comparison fun r hr => (hnames r hr).oneLine]
  simp only [tableAsRead, configTable, powerTable, areaTable, hrows leads_config, hrows leads_power, hrows leads_area]

theorem isCellText_of_shows (hlength : (readTables (comparison rows)).length = 3)
    (hshows : ∀ t ∈ readTables (comparison rows), Shows t (rows.map ComparisonRow.name)) :
    ∀ r ∈ rows, IsCellText r.name := by
  -- What is read lies on one line, so the names do, and then the lines of the tables are known.
  have hread : ∀ r ∈ rows, (∀ c ∈ r.name.toList, isBreak c = false) ∧ trimPad r.name.toList = r.name.toList := by
    intro r hr
    obtain ⟨t, ht⟩ := List.exists_mem_of_length_pos (by omega : 0 < (readTables (comparison rows)).length)
    have hname : some r.name ∈ t.rows.map List.head? := by
      rw [(hshows t ht).names]
      exact List.mem_map_of_mem (List.mem_map_of_mem hr)
    obtain ⟨row, hrow, hhead⟩ := List.mem_map.1 hname
    exact of_mem_readTables ht hrow (List.mem_of_head? hhead)
  have hconfig : Shows (tableAsRead (configTable rows)) (rows.map ComparisonRow.name) := by
    apply hshows
    rw [readTables_comparison fun r hr => (hread r hr).1]
    exact List.mem_cons_self
  exact fun r hr => ⟨⟨(hread r hr).1, leads_config.noBar_of_shows hconfig r hr⟩, (hread r hr).2⟩

/-- **The tables of a comparison read back.** If every name lies on one line and has no bar, the comparison is
three tables, with a row for each configuration in order and each cell in its place, where only the blanks at
the ends of a name are lost. Each row is as wide as its header and begins with its name exactly when every name
also has no such blanks. -/
theorem comparison_tables (rows : List ComparisonRow) :
    ((∀ r ∈ rows, Unseparated r.name) →
      readTables (comparison rows) =
        [configTable (rows.map ComparisonRow.asRead), powerTable (rows.map ComparisonRow.asRead),
          areaTable (rows.map ComparisonRow.asRead)]) ∧
    ((readTables (comparison rows)).length = 3 ∧
        (∀ t ∈ readTables (comparison rows), Shows t (rows.map ComparisonRow.name)) ↔
      ∀ r ∈ rows, IsCellText r.name) := by
  refine ⟨readTables_of_unseparated, fun h => isCellText_of_shows h.1 h.2, fun h => ?_⟩
  have hsame : rows.map ComparisonRow.asRead = rows := by
    rw [List.map_congr_left (g := id) fun r hr => ?_, List.map_id]
    rw [ComparisonRow.asRead, (h r hr).cellAsRead_eq, id]
  have htables := readTables_of_unseparated fun r hr => (h r hr).toUnseparated
  rw [hsame] at htables
  rw [htables]
  simp only [List.forall_mem_cons]
  exact ⟨rfl, leads_config.shows rows, leads_power.shows rows, leads_area.shows rows, List.forall_mem_nil _⟩

end comparison

/-- A configuration with some estimates, under a name. -/
def plainRow (name : String) : ComparisonRow where
  name := name
  summary := {
    config := ⟨1024, 32, 4, 0.9, 28, false, false, false, false⟩
    area := ⟨0.5, 0.25, 0.75, 0.5, 0.25⟩
    timing := ⟨1.5, 2.0, 500.0⟩
    power := ⟨1.5, 0.5, 2.0, 10.0, 0.5, 500.0⟩ }

theorem comparison_tables_plainRow :
    (readTables (comparison [plainRow "base", plainRow "low power"])).length = 3 ∧
      ∀ t ∈ readTables (comparison [plainRow "base", plainRow "low power"]), Shows t ["base", "low power"] :=
  (comparison_tables [plainRow "base", plainRow "low power"]).2.2 (by
    simp only [List.forall_mem_cons]
    exact ⟨isCellText_of_checkCell (by decide), isCellText_of_checkCell (by decide), List.forall_mem_nil _⟩)

/-- A bar in a name splits its cell: the row has a cell too many, and the first one is not the name. -/
theorem bar_splits_cell :
    ¬ ∀ t ∈ readTables (comparison [plainRow "a|b"]), Shows t ["a|b"] := by
  intro hshows
  have hnames : ∀ r ∈ [plainRow "a|b"], ∀ c ∈ r.name.toList, isBreak c = false := by
    rw [List.forall_mem_singleton]
    simp [plainRow, isBreak]
  have hlength : (readTables (comparison [plainRow "a|b"])).length = 3 := by
    rw [readTables_comparison hnames]
    rfl
  have htext := isCellText_of_shows hlength hshows (plainRow "a|b") (by simp)
  exact htext.noBar (by decide)

end MemoryCompiler.Report
