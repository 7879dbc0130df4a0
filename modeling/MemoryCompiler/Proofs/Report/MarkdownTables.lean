import MemoryCompiler.Proofs.Text.Characters
import MemoryCompiler.Report.Table
import Mathlib.Data.List.DropRight

/-!
# Reading tables back

A reader of tables in Markdown that knows nothing of how they are written. A table begins where a line is
followed by a line of hyphens with as many cells, and it goes on to the next blank line. Cells are separated
by vertical bars; a bar after a backslash belongs to its cell, and the blanks around a cell do not.

A table that is written with cells on one line and without bars is read back (`tablesOf_lines`,
`readRow_rowLine`). Of a line of any cells the first one is read back only if it has no bar
(`noBar_of_head?_readRow`).
-/

namespace MemoryCompiler.Report.Markdown

/-! ### The reader -/

/-- Puts a character in front of the first of some texts. -/
def prepend (c : Char) : List (List Char) → List (List Char)
  | [] => [[c]]
  | text :: texts => (c :: text) :: texts

def isBreak (c : Char) : Bool := c == '\n' || c == '\r'

/-- The lines of a text; of a carriage return and a line feed, the line feed ends the line. -/
def splitLines : List Char → List (List Char)
  | [] => [[]]
  | c :: cs =>
    if c = '\r' ∧ cs.head? = some '\n' then splitLines cs
    else if isBreak c then [] :: splitLines cs
    else prepend c (splitLines cs)

/-- The texts between the bars of a line; a bar after a backslash is no separator and loses the backslash. -/
def splitCells : List Char → List (List Char)
  | [] => [[]]
  | [c] => if c = '|' then [[], []] else [[c]]
  | c :: d :: cs =>
    if c = '|' then [] :: splitCells (d :: cs)
    else if c = '\\' ∧ d = '|' then prepend '|' (splitCells cs)
    else prepend c (splitCells (d :: cs))

def isPad (c : Char) : Bool := c == ' ' || c == '\t'

/-- A text without the blanks at its ends. -/
def trimPad (cs : List Char) : List Char := (cs.dropWhile isPad).rdropWhile isPad

def dropEmpty : List (List Char) → List (List Char)
  | [] :: texts => texts
  | texts => texts

/-- The cells of a line. The bars at its two ends are optional. -/
def readRow (line : List Char) : List (List Char) :=
  (dropEmpty (dropEmpty ((splitCells line).map trimPad)).reverse).reverse

def dropColon : List Char → List Char
  | ':' :: cs => cs
  | cs => cs

/-- A cell of the line below a header: hyphens, with or without colons at the ends. -/
def isRule (cell : List Char) : Bool :=
  let core := dropColon (dropColon cell).reverse
  !core.isEmpty && core.all (· == '-')

/-- Two lines that begin a table. -/
def startsTable (header rule : List Char) : Bool :=
  !(readRow rule).isEmpty && (readRow rule).all isRule && (readRow rule).length == (readRow header).length

/-- A line that does not end a table. -/
def isInked (line : List Char) : Bool := !line.all isPad

def readTable (header : List Char) (body : List (List Char)) : Table where
  headers := (readRow header).map String.ofList
  rows := body.map fun line => (readRow line).map String.ofList

def tablesOf : List (List Char) → List Table
  | header :: rule :: rest =>
    if startsTable header rule then
      readTable header (rest.takeWhile isInked) :: tablesOf (rest.dropWhile isInked)
    else tablesOf (rule :: rest)
  | _ => []
termination_by lines => lines.length
decreasing_by
  · have := (List.dropWhile_sublist isInked (l := rest)).length_le
    simp only [List.length_cons]
    omega
  · simp

def readTables (text : String) : List Table := tablesOf (splitLines text.toList)

/-! ### Lines -/

section lines

variable {c : Char} {cs : List Char} {texts : List (List Char)}

theorem forall_mem_prepend {p : Char → Prop} (hc : p c) (htexts : ∀ text ∈ texts, ∀ d ∈ text, p d) :
    ∀ text ∈ prepend c texts, ∀ d ∈ text, p d := by
  cases texts with
  | nil => simpa [prepend] using hc
  | cons text texts =>
    rw [List.forall_mem_cons] at htexts
    simpa [prepend, hc] using htexts

theorem splitLines_cons (hc : isBreak c = false) (cs : List Char) :
    splitLines (c :: cs) = prepend c (splitLines cs) := by
  have hne : c ≠ '\r' := by
    rintro rfl
    cases hc
  simp [splitLines, hc, hne]

theorem splitLines_append (hcs : ∀ c ∈ cs, isBreak c = false) (rest : List Char) :
    splitLines (cs ++ '\n' :: rest) = cs :: splitLines rest := by
  induction cs with
  | nil => simp [splitLines, isBreak]
  | cons c cs ih =>
    rw [List.forall_mem_cons] at hcs
    rw [List.cons_append, splitLines_cons hcs.1, ih hcs.2, prepend]

theorem not_isBreak_of_mem_splitLines (cs : List Char) :
    ∀ line ∈ splitLines cs, ∀ c ∈ line, isBreak c = false := by
  induction cs with
  | nil => simp [splitLines]
  | cons c cs ih =>
    rw [splitLines]
    split_ifs with hpair hc
    · exact ih
    · simpa using ih
    · exact forall_mem_prepend (by simpa using hc) ih

theorem splitLines_documentText {lines : List String} (hne : lines ≠ [])
    (hlines : ∀ line ∈ lines, ∀ c ∈ line.toList, isBreak c = false) :
    splitLines (documentText lines).toList = lines.map String.toList ++ [[]] := by
  induction lines with
  | nil => exact absurd rfl hne
  | cons line rest ih =>
    rw [List.forall_mem_cons] at hlines
    cases rest with
    | nil => simp [documentText, splitLines_append hlines.1, splitLines]
    | cons next rest =>
      have htext : (documentText (line :: next :: rest)).toList =
          line.toList ++ '\n' :: (documentText (next :: rest)).toList := by
        simp [documentText, String.intercalate_cons_cons]
      rw [htext, splitLines_append hlines.1, ih (List.cons_ne_nil _ _) hlines.2]
      rfl

end lines

/-! ### Cells -/

section cells

variable {c : Char} {cs name tail : List Char}

theorem splitCells_bar (cs : List Char) : splitCells ('|' :: cs) = [] :: splitCells cs := by
  cases cs <;> simp [splitCells]

theorem splitCells_escaped (cs : List Char) : splitCells ('\\' :: '|' :: cs) = prepend '|' (splitCells cs) := by
  simp [splitCells]

theorem splitCells_cons (hc : c ≠ '|') (hnext : c = '\\' → cs.head? ≠ some '|') :
    splitCells (c :: cs) = prepend c (splitCells cs) := by
  cases cs with
  | nil => simp [splitCells, hc, prepend]
  | cons d cs =>
    have hescape : ¬ (c = '\\' ∧ d = '|') := fun h => hnext h.1 (congrArg some h.2)
    simp [splitCells, hc, hescape]

theorem splitCells_append (hcs : '|' ∉ cs) (rest : List Char) :
    splitCells (cs ++ ' ' :: '|' :: rest) = (cs ++ [' ']) :: splitCells rest := by
  induction cs with
  | nil =>
    rw [List.nil_append, splitCells_cons (by decide) (by simp), splitCells_bar, prepend]
    rfl
  | cons c cs ih =>
    rw [List.mem_cons, not_or] at hcs
    have hnext : (cs ++ ' ' :: '|' :: rest).head? ≠ some '|' := by
      cases cs with
      | nil => simp
      | cons d cs =>
        intro h
        exact hcs.2 (by simp_all)
    rw [List.cons_append, splitCells_cons (Ne.symm hcs.1) fun _ => hnext, ih hcs.2, prepend]
    rfl

theorem mem_of_mem_splitCells (cs : List Char) : ∀ cell ∈ splitCells cs, ∀ c ∈ cell, c ∈ cs := by
  fun_induction splitCells cs with
  | case1 => simp
  | case2 => simp
  | case3 => simp
  | case4 d cs ih =>
    rw [List.forall_mem_cons]
    exact ⟨by simp, fun cell hcell c hc => List.mem_cons_of_mem _ (ih cell hcell c hc)⟩
  | case5 c d cs hc hescape ih =>
    refine forall_mem_prepend (by simp [hescape.2]) fun cell hcell x hx => ?_
    exact List.mem_cons_of_mem _ (List.mem_cons_of_mem _ (ih cell hcell x hx))
  | case6 c d cs hc hescape ih =>
    refine forall_mem_prepend (by simp) fun cell hcell x hx => ?_
    exact List.mem_cons_of_mem _ (ih cell hcell x hx)

/-- Of a text with a bar, the first cell is shorter, the space in front of the next bar set aside. -/
theorem head_splitCells_of_bar (hbar : '|' ∈ name) (tail : List Char) :
    ∃ cell cells inner, splitCells (name ++ ' ' :: '|' :: tail) = cell :: cells ∧
      (cell = inner ∨ cell = inner ++ [' ']) ∧ inner.length < name.length := by
  fun_induction splitCells name with
  | case1 => simp at hbar
  | case2 =>
    exact ⟨[], _, [], splitCells_bar _, .inl rfl, by simp⟩
  | case3 c hc => exact absurd (by simpa using hbar) (Ne.symm hc)
  | case4 d cs ih =>
    exact ⟨[], _, [], splitCells_bar _, .inl rfl, by simp⟩
  | case5 c d cs hc hescape ih =>
    obtain ⟨rfl, rfl⟩ := hescape
    by_cases hmore : '|' ∈ cs
    · obtain ⟨cell, cells, inner, heq, hcell, hlt⟩ := ih hmore
      refine ⟨'|' :: cell, cells, '|' :: inner, ?_, ?_, ?_⟩
      · simp [splitCells_escaped, heq, prepend]
      · simpa using hcell
      · simp only [List.length_cons]
        omega
    · refine ⟨'|' :: (cs ++ [' ']), splitCells tail, '|' :: cs, ?_, .inr rfl, by simp⟩
      simp [splitCells_escaped, splitCells_append hmore, prepend]
  | case6 c d cs hc hescape ih =>
    have hmore : '|' ∈ d :: cs := by simpa [Ne.symm hc] using hbar
    obtain ⟨cell, cells, inner, heq, hcell, hlt⟩ := ih hmore
    have hnext : c = '\\' → (d :: cs ++ ' ' :: '|' :: tail).head? ≠ some '|' := by
      simpa using fun h => mt (And.intro h) hescape
    refine ⟨c :: cell, cells, c :: inner, ?_, ?_, ?_⟩
    · rw [List.cons_append, splitCells_cons hc hnext, heq, prepend]
    · simpa using hcell
    · simp only [List.length_cons] at *
      omega

end cells

/-! ### Blanks around a cell -/

section trim

variable {c : Char} {cs : List Char}

theorem trimPad_nil : trimPad [] = [] := rfl

theorem trimPad_cons (hc : isPad c = true) (cs : List Char) : trimPad (c :: cs) = trimPad cs := by
  rw [trimPad, List.dropWhile_cons_of_pos hc, trimPad]

theorem trimPad_concat (hc : isPad c = true) (cs : List Char) : trimPad (cs ++ [c]) = trimPad cs := by
  rw [trimPad, List.dropWhile_append, trimPad]
  split_ifs with h
  · have hnil : cs.dropWhile isPad = [] := by simpa using h
    rw [hnil, List.dropWhile_cons_of_pos hc]
    rfl
  · rw [List.rdropWhile_concat_pos isPad _ c hc]

theorem length_trimPad_le (cs : List Char) : (trimPad cs).length ≤ cs.length :=
  ((List.rdropWhile_prefix _ _).sublist.trans (List.dropWhile_sublist _)).length_le

theorem mem_of_mem_trimPad (h : c ∈ trimPad cs) : c ∈ cs :=
  ((List.rdropWhile_prefix _ _).sublist.trans (List.dropWhile_sublist _)).subset h

theorem dropWhile_isPad_trimPad (cs : List Char) : (trimPad cs).dropWhile isPad = trimPad cs := by
  obtain ⟨rest, hrest⟩ := List.rdropWhile_prefix isPad (cs.dropWhile isPad)
  rw [← trimPad] at hrest
  cases htrim : trimPad cs with
  | nil => rfl
  | cons d ds =>
    have hhead := List.head?_dropWhile_not isPad cs
    rw [← hrest, htrim] at hhead
    apply List.dropWhile_cons_of_neg
    simpa using hhead

theorem trimPad_trimPad (cs : List Char) : trimPad (trimPad cs) = trimPad cs := by
  rw [trimPad, dropWhile_isPad_trimPad, trimPad, List.rdropWhile_idempotent]

theorem trimPad_of_forall (h : ∀ c ∈ cs, isPad c = false) : trimPad cs = cs := by
  have hfront : cs.dropWhile isPad = cs := by
    cases cs with
    | nil => rfl
    | cons d ds => exact List.dropWhile_cons_of_neg (by simp [h d List.mem_cons_self])
  rw [trimPad, hfront, List.rdropWhile_eq_self_iff]
  intro hne
  simp [h _ (List.getLast_mem hne)]

end trim

/-! ### Rows -/

section rows

variable {cells : List String} {name : String}

/-- A cell between spaces and with a bar behind it. -/
def cellChars (cell : String) : List Char := ' ' :: cell.toList ++ [' ', '|']

theorem cellChars_append (cell : String) (rest : List Char) :
    cellChars cell ++ rest = ' ' :: (cell.toList ++ ' ' :: '|' :: rest) := by
  simp [cellChars]

theorem toList_rowLine (hne : cells ≠ []) : (rowLine cells).toList = '|' :: cells.flatMap cellChars := by
  induction cells with
  | nil => exact absurd rfl hne
  | cons cell rest ih =>
    cases rest with
    | nil => simp [rowLine, cellChars]
    | cons next rest =>
      have hline : (rowLine (cell :: next :: rest)).toList =
          '|' :: ' ' :: (cell.toList ++ ' ' :: (rowLine (next :: rest)).toList) := by
        simp [rowLine, String.intercalate_cons_cons]
      rw [hline, ih (List.cons_ne_nil _ _)]
      exact congrArg _ (cellChars_append cell _).symm

theorem splitCells_row (hcells : ∀ cell ∈ cells, '|' ∉ cell.toList) :
    splitCells (cells.flatMap cellChars) = cells.map (fun cell => ' ' :: cell.toList ++ [' ']) ++ [[]] := by
  induction cells with
  | nil => rfl
  | cons cell rest ih =>
    rw [List.forall_mem_cons] at hcells
    have hbar : '|' ∉ ' ' :: cell.toList := by simpa using hcells.1
    have hsplit := splitCells_append hbar (rest.flatMap cellChars)
    rw [List.cons_append, ih hcells.2] at hsplit
    rw [List.flatMap_cons, cellChars_append, hsplit]
    rfl

theorem trimPad_cell (cs : List Char) : trimPad (' ' :: cs ++ [' ']) = trimPad cs := by
  rw [List.cons_append, trimPad_cons (by decide), trimPad_concat (by decide)]

theorem readRow_rowLine (hne : cells ≠ []) (hcells : ∀ cell ∈ cells, '|' ∉ cell.toList) :
    readRow (rowLine cells).toList = cells.map fun cell => trimPad cell.toList := by
  rw [readRow, toList_rowLine hne, splitCells_bar, splitCells_row hcells]
  simp only [List.map_cons, List.map_append, List.map_map, trimPad_nil, dropEmpty, List.map_nil, List.reverse_append,
    List.reverse_cons, List.reverse_nil, List.nil_append, List.cons_append, List.reverse_reverse]
  exact List.map_congr_left fun cell _ => trimPad_cell cell.toList

theorem head?_dropEmpty_reverse {texts : List (List Char)} {first : List Char}
    (h : (dropEmpty texts.reverse).reverse.head? = some first) : texts.head? = some first := by
  rw [← List.reverse_reverse texts]
  generalize texts.reverse = back at *
  cases back with
  | nil => exact h
  | cons last back =>
    cases last with
    | nil =>
      rw [List.head?_reverse] at h ⊢
      have hlast : back.getLast? = some first := h
      rw [List.getLast?_cons, hlast, Option.getD_some]
    | cons c cs => exact h

/-- What is read as the first cell is the first cell that was written only if this one has no bar. -/
theorem noBar_of_head?_readRow
    (h : (readRow (rowLine (name :: cells)).toList).head? = some name.toList) : '|' ∉ name.toList := by
  intro hbar
  obtain ⟨cell, others, inner, hsplit, hcell, hlt⟩ := head_splitCells_of_bar hbar (cells.flatMap cellChars)
  have hline : splitCells (rowLine (name :: cells)).toList = [] :: (' ' :: cell) :: others := by
    rw [toList_rowLine (List.cons_ne_nil _ _), splitCells_bar, List.flatMap_cons, cellChars_append,
      splitCells_cons (by decide) (by simp), hsplit, prepend]
  rw [readRow, hline, List.map_cons, trimPad_nil, dropEmpty] at h
  have hfirst := head?_dropEmpty_reverse h
  rw [List.map_cons, List.head?_cons, Option.some.injEq, trimPad_cons (by decide)] at hfirst
  -- Trimmed, the cell is no longer than what stands in front of the space.
  have hle : (trimPad cell).length ≤ inner.length := by
    rcases hcell with rfl | rfl
    · exact length_trimPad_le _
    · rw [trimPad_concat (by decide)]
      exact length_trimPad_le _
  rw [hfirst] at hle
  omega

theorem dropEmpty_subset (texts : List (List Char)) : dropEmpty texts ⊆ texts := by
  cases texts with
  | nil => exact List.Subset.refl _
  | cons text texts =>
    cases text with
    | nil => exact List.subset_cons_self _ _
    | cons c cs => exact List.Subset.refl _

theorem of_mem_readRow {line cell : List Char} (h : cell ∈ readRow line) :
    trimPad cell = cell ∧ ∀ c ∈ cell, c ∈ line := by
  have hmem : cell ∈ (splitCells line).map trimPad := by
    apply dropEmpty_subset
    rw [← List.mem_reverse]
    apply dropEmpty_subset
    rwa [← List.mem_reverse]
  obtain ⟨text, htext, rfl⟩ := List.mem_map.1 hmem
  exact ⟨trimPad_trimPad text, fun c hc => mem_of_mem_splitCells line text htext c (mem_of_mem_trimPad hc)⟩

end rows

/-! ### Tables -/

section tables

variable {headers cells : List String} {t : Table}

theorem isInked_rowLine (hne : cells ≠ []) : isInked (rowLine cells).toList = true := by
  rw [toList_rowLine hne]
  rfl

theorem isRule_replicate {n : ℕ} (hn : 0 < n) : isRule (List.replicate n '-') = true := by
  obtain ⟨k, rfl⟩ := Nat.exists_eq_succ_of_ne_zero hn.ne'
  have hcolon : dropColon (List.replicate (k + 1) '-') = List.replicate (k + 1) '-' := rfl
  simp [isRule, hcolon]

theorem toList_rule (header : String) : (rule header).toList = List.replicate (max 3 (Text.units header)) '-' :=
  String.toList_ofList

theorem startsTable_rule (hne : headers ≠ []) (hbars : ∀ header ∈ headers, '|' ∉ header.toList) :
    startsTable (rowLine headers).toList (rowLine (headers.map rule)).toList = true := by
  have hrules : ∀ cell ∈ headers.map rule, '|' ∉ cell.toList := by
    intro cell hcell
    obtain ⟨header, -, rfl⟩ := List.mem_map.1 hcell
    simp [toList_rule, List.mem_replicate]
  have hcells : readRow (rowLine (headers.map rule)).toList =
      headers.map fun header => List.replicate (max 3 (Text.units header)) '-' := by
    rw [readRow_rowLine (by simpa using hne) hrules, List.map_map]
    refine List.map_congr_left fun header _ => ?_
    rw [Function.comp_apply, toList_rule]
    apply trimPad_of_forall
    intro c hc
    rw [List.eq_of_mem_replicate hc]
    decide
  rw [startsTable, hcells, readRow_rowLine hne hbars]
  have hall : ∀ header : String, isRule (List.replicate (max 3 (Text.units header)) '-') = true :=
    fun header => isRule_replicate (by omega)
  simp [hne, hall]

/-- A row as its line is read. -/
def rowAsRead (cells : List String) : List String := (readRow (rowLine cells).toList).map String.ofList

/-- A text as it is read from a cell. -/
def cellAsRead (cell : String) : String := String.ofList (trimPad cell.toList)

theorem rowAsRead_eq (hne : cells ≠ []) (hbars : ∀ cell ∈ cells, '|' ∉ cell.toList) :
    rowAsRead cells = cells.map cellAsRead := by
  rw [rowAsRead, readRow_rowLine hne hbars, List.map_map]
  rfl

theorem tablesOf_lines (hne : t.headers ≠ []) (hbars : ∀ header ∈ t.headers, '|' ∉ header.toList)
    (hrows : ∀ cells ∈ t.rows, cells ≠ []) (rest : List (List Char)) :
    tablesOf (t.lines.map String.toList ++ [] :: rest) =
      ⟨rowAsRead t.headers, t.rows.map rowAsRead⟩ :: tablesOf ([] :: rest) := by
  have hinked : ∀ line ∈ t.rows.map fun cells => (rowLine cells).toList, isInked line = true := by
    intro line hline
    obtain ⟨cells, hcells, rfl⟩ := List.mem_map.1 hline
    exact isInked_rowLine (hrows cells hcells)
  have hblank : ∀ line ∈ ([] :: rest).head?, isInked line = false := by simp [isInked]
  obtain ⟨hbody, hbehind⟩ := Text.span_append hinked hblank
  have hlines : t.lines.map String.toList ++ [] :: rest = (rowLine t.headers).toList ::
      (rowLine (t.headers.map rule)).toList :: (t.rows.map (fun cells => (rowLine cells).toList) ++ [] :: rest) := by
    simp [Table.lines]
  rw [hlines, tablesOf, if_pos (startsTable_rule hne hbars), hbody, hbehind, readTable, List.map_map]
  rfl

theorem tablesOf_cons {line next : List Char} {rest : List (List Char)} (h : startsTable line next = false) :
    tablesOf (line :: next :: rest) = tablesOf (next :: rest) := by
  rw [tablesOf, h]
  rfl

theorem exists_line_of_mem_tablesOf {lines : List (List Char)} {row : List String} (ht : t ∈ tablesOf lines)
    (hrow : row ∈ t.rows) : ∃ line ∈ lines, row = (readRow line).map String.ofList := by
  fun_induction tablesOf lines with
  | case1 header rule rest hstarts ih =>
    rcases List.mem_cons.1 ht with rfl | ht
    · obtain ⟨line, hline, rfl⟩ := List.mem_map.1 hrow
      have hmem := (List.takeWhile_sublist isInked).subset hline
      exact ⟨line, List.mem_cons_of_mem _ (List.mem_cons_of_mem _ hmem), rfl⟩
    · obtain ⟨line, hline, heq⟩ := ih ht
      have hmem := (List.dropWhile_sublist isInked).subset hline
      exact ⟨line, List.mem_cons_of_mem _ (List.mem_cons_of_mem _ hmem), heq⟩
  | case2 header rule rest hstarts ih =>
    obtain ⟨line, hline, heq⟩ := ih ht
    exact ⟨line, List.mem_cons_of_mem _ hline, heq⟩
  | case3 => cases ht

end tables

/-! ### Texts for cells -/

/-- A text that lies on one line and has no bar. -/
structure Unseparated (s : String) : Prop where
  oneLine : ∀ c ∈ s.toList, isBreak c = false
  noBar : '|' ∉ s.toList

/-- Such a text without blanks at its ends. -/
structure IsCellText (s : String) : Prop extends Unseparated s where
  trimmed : trimPad s.toList = s.toList

theorem IsCellText.cellAsRead_eq {s : String} (h : IsCellText s) : cellAsRead s = s := by
  rw [cellAsRead, h.trimmed, String.ofList_toList]

theorem of_mem_readTables {text cell : String} {t : Table} {row : List String} (ht : t ∈ readTables text)
    (hrow : row ∈ t.rows) (hcell : cell ∈ row) :
    (∀ c ∈ cell.toList, isBreak c = false) ∧ trimPad cell.toList = cell.toList := by
  obtain ⟨line, hline, rfl⟩ := exists_line_of_mem_tablesOf ht hrow
  obtain ⟨chars, hchars, rfl⟩ := List.mem_map.1 hcell
  obtain ⟨htrimmed, hmem⟩ := of_mem_readRow hchars
  rw [String.toList_ofList]
  exact ⟨fun c hc => not_isBreak_of_mem_splitLines _ line hline c (hmem c hc), htrimmed⟩

/-! ### Tables in a document -/

section documents

variable {t : Table} {cells : List String}

def tableAsRead (t : Table) : Table := ⟨t.headers, t.rows.map rowAsRead⟩

/-- A table with heads that are texts for cells, and with rows that lie on one line each. -/
structure OnLines (t : Table) : Prop where
  headers_ne : t.headers ≠ []
  headers : ∀ header ∈ t.headers, IsCellText header
  rows_ne : ∀ cells ∈ t.rows, cells ≠ []
  rows : ∀ cells ∈ t.rows, ∀ cell ∈ cells, ∀ c ∈ cell.toList, isBreak c = false

theorem oneLine_rowLine (hne : cells ≠ []) (h : ∀ cell ∈ cells, ∀ c ∈ cell.toList, isBreak c = false) :
    ∀ c ∈ (rowLine cells).toList, isBreak c = false := by
  intro c hc
  rw [toList_rowLine hne, List.mem_cons, List.mem_flatMap] at hc
  rcases hc with rfl | ⟨cell, hcell, hc⟩
  · decide
  · simp only [cellChars, List.cons_append, List.mem_cons, List.mem_append, List.not_mem_nil, or_false] at hc
    rcases hc with rfl | hc | rfl | rfl
    · decide
    · exact h cell hcell c hc
    · decide
    · decide

theorem OnLines.oneLine (h : OnLines t) : ∀ line ∈ t.lines, ∀ c ∈ line.toList, isBreak c = false := by
  have hrules : ∀ cell ∈ t.headers.map rule, ∀ c ∈ cell.toList, isBreak c = false := by
    intro cell hcell c hc
    obtain ⟨header, -, rfl⟩ := List.mem_map.1 hcell
    rw [toList_rule] at hc
    rw [List.eq_of_mem_replicate hc]
    decide
  intro line hline
  simp only [Table.lines, List.cons_append, List.nil_append, List.mem_cons, List.mem_map] at hline
  rcases hline with rfl | rfl | ⟨cells, hcells, rfl⟩
  · exact oneLine_rowLine h.headers_ne fun header hheader => (h.headers header hheader).oneLine
  · exact oneLine_rowLine (by simpa using h.headers_ne) hrules
  · exact oneLine_rowLine (h.rows_ne cells hcells) (h.rows cells hcells)

theorem startsTable_blank (line : List Char) : startsTable [] line = false := by
  have hempty : readRow [] = [] := rfl
  rw [startsTable, hempty]
  cases readRow line <;> simp

/-- No table begins above a blank line. -/
theorem startsTable_above_blank (line : List Char) : startsTable line [] = false := rfl

theorem OnLines.tablesOf_section (h : OnLines t) (title : List Char) (rest : List (List Char)) :
    tablesOf ([] :: title :: [] :: (t.lines.map String.toList ++ [] :: rest)) =
      tableAsRead t :: tablesOf ([] :: rest) := by
  have hbars : ∀ header ∈ t.headers, '|' ∉ header.toList :=
    fun header hheader => (h.headers header hheader).noBar
  have hheaders : rowAsRead t.headers = t.headers := by
    rw [rowAsRead_eq h.headers_ne hbars,
      List.map_congr_left fun header hheader => (h.headers header hheader).cellAsRead_eq, List.map_id']
  have hgap : tablesOf ([] :: (t.lines.map String.toList ++ [] :: rest)) =
      tablesOf (t.lines.map String.toList ++ [] :: rest) := tablesOf_cons (startsTable_blank _)
  rw [tablesOf_cons (startsTable_blank _), tablesOf_cons (startsTable_above_blank _), hgap,
    tablesOf_lines h.headers_ne hbars h.rows_ne, hheaders, tableAsRead]

end documents

end MemoryCompiler.Report.Markdown
