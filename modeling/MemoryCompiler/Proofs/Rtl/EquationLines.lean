import MemoryCompiler.Proofs.Rtl.Equations
import MemoryCompiler.Proofs.Text.Words

/-!
# The lines of an equation

An equation whose target and terms are plain words is wrapped without loss: its lines, put one behind the
other, read as the equation on one line, and each of them can be read by itself (`lineTerms`). All lines but
the last are full, and the operator that opens a line stands two columns before the column of the first term.
-/

namespace MemoryCompiler.Rtl

open Text (IsWord Spaced isBlank collapse trim words words_of_spaced collapse_trim_of_spaced
  toList_intercalate)

/-! ### Runs -/

section runs

variable {α : Type} {n : Nat} {xs run : List α}

theorem length_le_of_mem_runsOf (h : run ∈ runsOf n xs) : run.length ≤ n := by
  obtain ⟨k, -, rfl⟩ := List.mem_map.1 h
  exact List.length_take_le n _

theorem length_of_mem_dropLast_runsOf (hn : 0 < n) (h : run ∈ (runsOf n xs).dropLast) : run.length = n := by
  induction xs using runsOf_induction hn with
  | nil =>
    rw [runsOf_nil hn] at h
    exact absurd h List.not_mem_nil
  | cons xs hne ih =>
    rw [runsOf_of_ne_nil hn hne] at h
    by_cases hdrop : xs.drop n = []
    · rw [hdrop, runsOf_nil hn] at h
      exact absurd h List.not_mem_nil
    · have hmore : runsOf n (xs.drop n) ≠ [] := by
        rw [runsOf_of_ne_nil hn hdrop]
        exact List.cons_ne_nil _ _
      rw [List.dropLast_cons_of_ne_nil hmore] at h
      rcases List.mem_cons.1 h with rfl | h
      · have hlong := mt List.drop_eq_nil_iff.2 hdrop
        exact List.length_take_of_le (Nat.le_of_lt (Nat.not_le.1 hlong))
      · exact ih h

end runs

/-! ### Texts of terms -/

/-- A word without the operator and the closing semicolon. -/
def IsOperand (s : String) : Prop := IsWord s ∧ '^' ∉ s.toList ∧ ';' ∉ s.toList

instance (s : String) : Decidable (IsOperand s) := inferInstanceAs (Decidable (_ ∧ _ ∧ _))

theorem isWord_operator : IsWord "^" := by decide

def operands (terms : List String) : List String := terms.flatMap fun t => ["^", t]

/-- The same as they are written. -/
def operandChars (terms : List String) : List Char := terms.flatMap fun t => " ^ ".toList ++ t.toList

section terms

variable {t : String} {terms : List String}

theorem toList_termText (t : String) (terms : List String) :
    (Equation.termText (t :: terms)).toList = t.toList ++ operandChars terms := by
  induction terms generalizing t with
  | nil => rw [Equation.termText, String.intercalate_singleton, operandChars, List.flatMap_nil, List.append_nil]
  | cons u terms ih =>
    rw [Equation.termText, String.intercalate_cons_cons, String.toList_append, String.toList_append,
      ← Equation.termText, ih, operandChars, operandChars, List.flatMap_cons, List.append_assoc,
      List.append_assoc]

theorem spaced_operands (h : ∀ t ∈ terms, IsOperand t) : Spaced (operands terms) (operandChars terms) := by
  induction terms with
  | nil => exact .nil
  | cons t terms ih =>
    obtain ⟨ht, hrest⟩ := List.forall_mem_cons.1 h
    exact ((Spaced.single isWord_operator).append (Spaced.single ht.1)).append (ih hrest)

theorem flatMap_operands (terms : List String) :
    ((operands terms).flatMap fun w => ' ' :: w.toList) = operandChars terms := by
  rw [operands, List.flatMap_assoc, operandChars]
  congr 1
  funext t
  simp

theorem notMem_operandChars (h : ∀ t ∈ terms, IsOperand t) : ';' ∉ operandChars terms := by
  rw [operandChars, List.mem_flatMap]
  rintro ⟨t, ht, hmem⟩
  rcases List.mem_append.1 hmem with hmem | hmem
  · exact absurd hmem (by decide)
  · exact (h t ht).2.2 hmem

theorem filter_operands (h : ∀ t ∈ terms, IsOperand t) : (operands terms).filter (· ≠ "^") = terms := by
  induction terms with
  | nil => rfl
  | cons t terms ih =>
    obtain ⟨ht, hrest⟩ := List.forall_mem_cons.1 h
    have hne : t ≠ "^" := by
      rintro rfl
      exact ht.2.1 (by decide)
    have hnext : operands (t :: terms) = "^" :: t :: operands terms := rfl
    rw [hnext, List.filter_cons_of_neg (by simp), List.filter_cons_of_pos (by simpa using hne), ih hrest]

end terms

/-! ### Lines -/

namespace Equation

/-- The equation on one line, up to the semicolon. -/
def flat (e : Equation) : String := "assign " ++ e.target ++ " = " ++ termText e.terms

/-- The terms that a line carries: its words without operators, those after the target if it names one. -/
def lineTerms (line : String) : List String :=
  let ws := words (String.ofList (line.toList.filter (· ≠ ';')))
  (if ws.head? = some "assign" then ws.drop 3 else ws).filter (· ≠ "^")

section lines

variable {e : Equation} {t : String} {terms : List String}

theorem units_lead (e : Equation) : Text.units e.lead = 12 + Text.units e.target := by
  have hopen : Text.units "  assign " = 9 := by decide
  have hclose : Text.units " = " = 3 := by decide
  rw [lead, Text.units_append, Text.units_append, hopen, hclose]
  omega

theorem spaced_lead (htarget : IsOperand e.target) (hterms : ∀ u ∈ t :: terms, IsOperand u) :
    Spaced ("assign" :: e.target :: "=" :: t :: operands terms) (e.lead ++ termText (t :: terms)).toList := by
  obtain ⟨ht, hrest⟩ := List.forall_mem_cons.1 hterms
  have hspace : ∀ c ∈ [' '], isBlank c = true := List.forall_mem_singleton.2 rfl
  have hassign : IsWord "assign" := by decide
  have hequals : IsWord "=" := by decide
  have hfront : Spaced ["assign"] "  assign".toList :=
    .of_blanks hspace (List.cons_ne_nil ' ' []) hspace hassign .nil
  have hall := (((hfront.append (.single htarget.1)).append (.single hequals)).append (.single ht.1)).append
    (spaced_operands hrest)
  have htext : (e.lead ++ termText (t :: terms)).toList = "  assign".toList ++ (' ' :: e.target.toList) ++
      (' ' :: "=".toList) ++ (' ' :: t.toList) ++ operandChars terms := by
    rw [String.toList_append, toList_termText, lead]
    simp
  rw [htext]
  exact hall

theorem spaced_continuation (e : Equation) {sep : List Char} (hsep : ∀ c ∈ sep, isBlank c = true)
    (hterms : ∀ u ∈ t :: terms, IsOperand u) : Spaced (operands (t :: terms))
      (sep ++ (e.continuation ++ termText (t :: terms)).toList) := by
  obtain ⟨ht, hrest⟩ := List.forall_mem_cons.1 hterms
  have hunits := units_lead e
  have hmargin : List.replicate (Text.units e.lead - 2) ' ' ≠ [] := by
    rw [ne_eq, List.replicate_eq_nil_iff]
    omega
  have hblank : ∀ c ∈ List.replicate (Text.units e.lead - 2) ' ', isBlank c = true := by
    intro c hc
    rw [List.eq_of_mem_replicate hc]
    rfl
  have htext : (e.continuation ++ termText (t :: terms)).toList = List.replicate (Text.units e.lead - 2) ' ' ++
      ("^".toList ++ ((' ' :: t.toList) ++ operandChars terms)) := by
    rw [String.toList_append, toList_termText, continuation, Text.spaces]
    simp
  rw [htext]
  exact .of_blanks hsep hmargin hblank isWord_operator ((Spaced.single ht.1).append (spaced_operands hrest))

theorem notMem_lead (htarget : IsOperand e.target) : ';' ∉ e.lead.toList := by
  rw [lead, String.toList_append, String.toList_append, List.mem_append, List.mem_append]
  rintro ((hmem | hmem) | hmem)
  · exact absurd hmem (by decide)
  · exact htarget.2.2 hmem
  · exact absurd hmem (by decide)

theorem notMem_continuation (e : Equation) : ';' ∉ e.continuation.toList := by
  rw [continuation, String.toList_append, List.mem_append, Text.spaces, String.toList_ofList]
  rintro (hmem | hmem)
  · exact absurd (List.eq_of_mem_replicate hmem) (by decide)
  · exact absurd hmem (by decide)

theorem notMem_termText (hterms : ∀ u ∈ t :: terms, IsOperand u) : ';' ∉ (termText (t :: terms)).toList := by
  obtain ⟨ht, hrest⟩ := List.forall_mem_cons.1 hterms
  rw [toList_termText, List.mem_append, not_or]
  exact ⟨ht.2.2, notMem_operandChars hrest⟩

/-- The closing semicolon does not hide the words of a line. -/
theorem filter_closing {cs : List Char} (h : ';' ∉ cs) (rest : List (List String)) :
    (cs ++ (closing rest).toList).filter (· ≠ ';') = cs := by
  have hclosing : (closing rest).toList.filter (· ≠ ';') = [] := by
    rw [closing]
    split_ifs <;> decide
  have hkeep : cs.filter (· ≠ ';') = cs := by
    rw [List.filter_eq_self]
    intro c hc
    simpa using fun heq : c = ';' => h (heq ▸ hc)
  rw [List.filter_append, hclosing, hkeep, List.append_nil]

theorem lineTerms_lead (htarget : IsOperand e.target) (hterms : ∀ u ∈ t :: terms, IsOperand u)
    (rest : List (List String)) : lineTerms (e.lead ++ termText (t :: terms) ++ closing rest) = t :: terms := by
  have hnone : ';' ∉ (e.lead ++ termText (t :: terms)).toList := by
    rw [String.toList_append, List.mem_append, not_or]
    exact ⟨notMem_lead htarget, notMem_termText hterms⟩
  rw [lineTerms, String.toList_append, filter_closing hnone,
    words_of_spaced (spaced_lead htarget hterms)]
  have hnext : (t :: operands terms).filter (· ≠ "^") = t :: terms := by
    have hall := filter_operands hterms
    have hwords : operands (t :: terms) = "^" :: t :: operands terms := rfl
    rwa [hwords, List.filter_cons_of_neg (by simp)] at hall
  exact hnext

theorem lineTerms_continuation (hterms : ∀ u ∈ t :: terms, IsOperand u) (rest : List (List String)) :
    lineTerms (e.continuation ++ termText (t :: terms) ++ closing rest) = t :: terms := by
  have hnone : ';' ∉ (e.continuation ++ termText (t :: terms)).toList := by
    rw [String.toList_append, List.mem_append, not_or]
    exact ⟨notMem_continuation e, notMem_termText hterms⟩
  have hempty : ∀ c ∈ ([] : List Char), isBlank c = true := fun c hc => absurd hc List.not_mem_nil
  have hhead : ¬ (operands (t :: terms)).head? = some "assign" := by
    show ¬ some "^" = some "assign"
    decide
  rw [lineTerms, String.toList_append, filter_closing hnone, ← List.nil_append (String.toList _),
    words_of_spaced (spaced_continuation e hempty hterms), if_neg hhead, filter_operands hterms]

section wrapped

variable {runs : List (List String)} (hnil : ∀ run ∈ runs, run ≠ []) (hruns : ∀ t ∈ runs.flatten, IsOperand t)

include hnil hruns

theorem map_lineTerms_continuedLines : (e.continuedLines runs).map lineTerms = runs := by
  induction runs with
  | nil => rfl
  | cons run runs ih =>
    obtain ⟨hrun, hmore⟩ := List.forall_mem_cons.1 hnil
    rw [List.flatten_cons, List.forall_mem_append] at hruns
    obtain ⟨t, terms, rfl⟩ := List.exists_cons_of_ne_nil hrun
    rw [continuedLines, List.map_cons, lineTerms_continuation hruns.1, ih hmore hruns.2]

theorem exists_spaced_continuedLines {sep : String} (hsep : ∀ c ∈ sep.toList, isBlank c = true) :
    ∃ cs, Spaced (operands runs.flatten) cs ∧
      (closing runs).toList ++ (e.continuedLines runs).flatMap (fun l => sep.toList ++ l.toList) = cs ++ [';'] := by
  induction runs with
  | nil => exact ⟨[], .nil, rfl⟩
  | cons run runs ih =>
    obtain ⟨hrun, hmore⟩ := List.forall_mem_cons.1 hnil
    rw [List.flatten_cons, List.forall_mem_append] at hruns
    obtain ⟨t, terms, rfl⟩ := List.exists_cons_of_ne_nil hrun
    obtain ⟨cs, hspaced, htext⟩ := ih hmore hruns.2
    have hwords : operands ((t :: terms) :: runs).flatten = operands (t :: terms) ++ operands runs.flatten := by
      rw [List.flatten_cons, operands, List.flatMap_append]
      rfl
    refine ⟨_, hwords ▸ (spaced_continuation e hsep hruns.1).append hspaced, ?_⟩
    rw [closing_of_ne_nil (List.cons_ne_nil _ _), continuedLines, List.flatMap_cons, List.append_assoc _ cs,
      ← htext]
    simp

end wrapped

theorem exists_runsOf (hne : e.terms ≠ []) : ∃ t terms rest, runsOf termsPerLine e.terms = (t :: terms) :: rest ∧
    (∀ run ∈ rest, run ≠ []) ∧ e.terms = t :: terms ++ rest.flatten := by
  have height : 0 < termsPerLine := by decide
  have hruns := runsOf_of_ne_nil height hne
  have hnil : ∀ run ∈ runsOf termsPerLine e.terms, run ≠ [] := fun _ => ne_nil_of_mem_runsOf height
  generalize e.terms.take termsPerLine = first, runsOf termsPerLine (e.terms.drop termsPerLine) = rest at hruns
  rw [hruns, List.forall_mem_cons] at hnil
  obtain ⟨t, terms, rfl⟩ := List.exists_cons_of_ne_nil hnil.1
  refine ⟨t, terms, rest, hruns, hnil.2, ?_⟩
  rw [← flatten_runsOf height e.terms, hruns, List.flatten_cons]

section operands

variable (htarget : IsOperand e.target) (hterms : ∀ u ∈ e.terms, IsOperand u) (hne : e.terms ≠ [])

include htarget hterms hne

theorem notMem_flat : ';' ∉ e.flat.toList := by
  obtain ⟨t, terms, hall⟩ := List.exists_cons_of_ne_nil hne
  rw [hall] at hterms
  rw [flat, hall, String.toList_append, String.toList_append, String.toList_append]
  simp only [List.mem_append, not_or]
  exact ⟨⟨⟨by decide, htarget.2.2⟩, by decide⟩, notMem_termText hterms⟩

/-- The lines read one behind the other, whatever blanks join them. -/
theorem collapse_trim_lines {sep : String} (hsep : ∀ c ∈ sep.toList, isBlank c = true) :
    collapse (trim (sep.intercalate e.lines)) = e.flat ++ ";" := by
  obtain ⟨t, terms, rest, hruns, hnil, hall⟩ := exists_runsOf hne
  rw [hall, List.forall_mem_append] at hterms
  obtain ⟨cs, hspaced, htext⟩ := exists_spaced_continuedLines (e := e) hnil hterms.2 hsep
  have hjoined : sep.intercalate e.lines =
      String.ofList ((e.lead ++ termText (t :: terms)).toList ++ cs ++ [';']) := by
    apply String.toList_injective
    rw [lines_of_runs hruns, toList_intercalate, String.toList_ofList, List.append_assoc _ cs, ← htext]
    simp
  have hwords : ("assign" :: e.target :: "=" :: t :: operands terms) ++ operands rest.flatten =
      "assign" :: ([e.target, "=", t] ++ operands (terms ++ rest.flatten)) := by
    rw [operands, operands, operands, List.flatMap_append]
    rfl
  have hlead := hwords ▸ (spaced_lead htarget hterms.1).append hspaced
  rw [hjoined, collapse_trim_of_spaced hlead (by decide), List.flatMap_append, flatMap_operands]
  apply String.toList_injective
  rw [flat, hall, List.cons_append]
  simp only [String.toList_ofList, String.toList_append, toList_termText]
  simp

theorem map_lineTerms_lines : e.lines.map lineTerms = runsOf termsPerLine e.terms := by
  obtain ⟨t, terms, rest, hruns, hnil, hall⟩ := exists_runsOf hne
  rw [hall, List.forall_mem_append] at hterms
  rw [lines_of_runs hruns, List.map_cons, lineTerms_lead htarget hterms.1,
    map_lineTerms_continuedLines hnil hterms.2, hruns]

theorem exists_full_lines : ∃ full last, e.lines = full ++ [last] ∧
    (∀ line ∈ full, (lineTerms line).length = termsPerLine) ∧
    1 ≤ (lineTerms last).length ∧ (lineTerms last).length ≤ termsPerLine := by
  have height : 0 < termsPerLine := by decide
  have hlines := map_lineTerms_lines htarget hterms hne
  rcases List.eq_nil_or_concat e.lines with hnone | ⟨full, last, hlast⟩
  · obtain ⟨t, terms, rest, hruns, -⟩ := exists_runsOf hne
    rw [hnone, hruns] at hlines
    exact absurd hlines (List.cons_ne_nil _ _).symm
  · rw [List.concat_eq_append] at hlast
    rw [hlast, List.map_append, List.map_singleton] at hlines
    have hmem : lineTerms last ∈ runsOf termsPerLine e.terms := by
      rw [← hlines]
      exact List.mem_append_right _ List.mem_cons_self
    have hfull : (runsOf termsPerLine e.terms).dropLast = full.map lineTerms := by
      rw [← hlines, List.dropLast_concat]
    exact ⟨full, last, hlast, fun line hline =>
        length_of_mem_dropLast_runsOf height (hfull ▸ List.mem_map_of_mem hline),
      List.length_pos_iff.2 (ne_nil_of_mem_runsOf height hmem), length_le_of_mem_runsOf hmem⟩

end operands

theorem exists_continuation_of_mem {runs : List (List String)} {line : String}
    (h : line ∈ e.continuedLines runs) : ∃ rest, line = e.continuation ++ rest := by
  induction runs with
  | nil => cases h
  | cons run runs ih =>
    rcases List.mem_cons.1 h with rfl | h
    · exact ⟨termText run ++ closing runs, String.append_assoc⟩
    · exact ih h

theorem exists_columns (hne : e.terms ≠ []) :
    (∃ t rest, e.terms.head? = some t ∧ e.lines.head? = some (e.lead ++ t ++ rest)) ∧
    ∀ line ∈ e.lines.tail, ∃ margin rest, line = margin ++ "^ " ++ rest ∧
      (∀ c ∈ margin.toList, c = ' ') ∧ Text.units margin + 2 = Text.units e.lead := by
  obtain ⟨t, terms, rest, hruns, -, hall⟩ := exists_runsOf hne
  have hunits := units_lead e
  rw [lines_of_runs hruns, hall]
  refine ⟨⟨t, String.ofList (operandChars terms) ++ closing rest, rfl, ?_⟩, fun line hline => ?_⟩
  · rw [List.head?_cons, Option.some.injEq]
    apply String.toList_injective
    simp [toList_termText]
  · obtain ⟨after, rfl⟩ := exists_continuation_of_mem hline
    refine ⟨Text.spaces (Text.units e.lead - 2), after, rfl, fun c hc => ?_, ?_⟩
    · rw [Text.spaces, String.toList_ofList] at hc
      exact List.eq_of_mem_replicate hc
    · rw [Text.units_spaces]
      omega

end lines

/-- Wrapping an equation of words loses nothing. The lines, joined by any blanks, trimmed and with each run
of blanks collapsed to one, read as the equation with its only semicolon at the end. Read one by one they
carry the terms in their order, eight on each line but the last and one to eight on that; and the operator
in front of a line that goes on stands two columns before the column of the first term. -/
theorem lines_read (e : Equation) (hne : e.terms ≠ []) (hplain : ∀ s ∈ e.target :: e.terms, IsOperand s) :
    (∀ sep : String, (∀ c ∈ sep.toList, isBlank c = true) → collapse (trim (sep.intercalate e.lines)) =
      "assign " ++ e.target ++ " = " ++ " ^ ".intercalate e.terms ++ ";") ∧
    ';' ∉ ("assign " ++ e.target ++ " = " ++ " ^ ".intercalate e.terms).toList ∧
    (e.lines.map lineTerms).flatten = e.terms ∧
    (∃ full last, e.lines = full ++ [last] ∧ (∀ line ∈ full, (lineTerms line).length = 8) ∧
      1 ≤ (lineTerms last).length ∧ (lineTerms last).length ≤ 8) ∧
    ∃ front, front = "  assign " ++ e.target ++ " = " ∧
      (∃ t rest, e.terms.head? = some t ∧ e.lines.head? = some (front ++ t ++ rest)) ∧
      ∀ line ∈ e.lines.tail, ∃ margin rest, line = margin ++ "^ " ++ rest ∧
        (∀ c ∈ margin.toList, c = ' ') ∧ Text.units margin + 2 = Text.units front := by
  obtain ⟨htarget, hterms⟩ := List.forall_mem_cons.1 hplain
  refine ⟨fun sep hsep => collapse_trim_lines htarget hterms hne hsep, ?_, ?_,
    exists_full_lines htarget hterms hne, e.lead, rfl, exists_columns hne⟩
  · exact notMem_flat htarget hterms hne
  · rw [map_lineTerms_lines htarget hterms hne, flatten_runsOf (by decide)]

/-- Nine terms: the second line carries the last one. -/
theorem lines_read_nine :
    let e : Equation := ⟨"check[0]", ["d[0]", "d[1]", "d[3]", "d[4]", "d[6]", "d[8]", "d[10]", "d[11]", "d[13]"]⟩
    e.terms ≠ [] ∧ (∀ s ∈ e.target :: e.terms, IsOperand s) ∧ (∀ c ∈ "\n".toList, isBlank c = true) ∧
      collapse (trim ("\n".intercalate e.lines)) =
        "assign check[0] = d[0] ^ d[1] ^ d[3] ^ d[4] ^ d[6] ^ d[8] ^ d[10] ^ d[11] ^ d[13];" := by
  intro e
  have hne : e.terms ≠ [] := List.cons_ne_nil _ _
  have hplain : ∀ s ∈ e.target :: e.terms, IsOperand s := by decide
  have hblank : ∀ c ∈ "\n".toList, isBlank c = true := List.forall_mem_singleton.2 rfl
  exact ⟨hne, hplain, hblank, (lines_read e hne hplain).1 "\n" hblank⟩

end Equation

end MemoryCompiler.Rtl
