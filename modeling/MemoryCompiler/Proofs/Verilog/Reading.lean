import MemoryCompiler.Proofs.Rtl.Equations
import MemoryCompiler.Proofs.Verilog.Semantics
import MemoryCompiler.Rtl.Verilog

/-!
# Reading generated equations

A wrapped equation of single bits is read as one assignment of their sum, however many lines it takes
(`reads_equation`).
-/

namespace MemoryCompiler.Rtl

/-! ### Columns -/

theorem commaLines_cons_cons (s t : String) (ss : List String) :
    commaLines (s :: t :: ss) = (s ++ ",") :: commaLines (t :: ss) := by
  simp [commaLines, List.mapIdx_cons]

theorem commaLines_singleton (s : String) : commaLines [s] = [s] := by
  simp [commaLines]

theorem rangeText_param (width : Nat) {p : String} (h : p ≠ "") :
    rangeText width (some p) = "[" ++ p ++ "-1:0]" := by
  rw [rangeText, Option.filter_some, if_pos (by simpa using h)]

end MemoryCompiler.Rtl

namespace MemoryCompiler.Verilog

open Rtl (Equation bitOf termsPerLine runsOf)

/-! ### Lines -/

/-- Lines with a line end behind each. -/
def unlines (ls : List String) : String := String.join (ls.map (· ++ "\n"))

theorem unlines_nil : unlines [] = "" := rfl

theorem unlines_cons (l : String) (ls : List String) :
    unlines (l :: ls) = l ++ "\n" ++ unlines ls := by
  rw [unlines, List.map_cons, String.join_cons, unlines]

theorem unlines_append (ls ms : List String) : unlines (ls ++ ms) = unlines ls ++ unlines ms := by
  induction ls with
  | nil => rw [List.nil_append, unlines_nil, String.empty_append]
  | cons l ls ih =>
    rw [List.cons_append, unlines_cons, unlines_cons, ih]
    simp only [String.append_assoc]

theorem joinLines_append_empty (ls : List String) : Rtl.joinLines (ls ++ [""]) = unlines ls := by
  induction ls with
  | nil => rfl
  | cons l ls ih =>
    rw [Rtl.joinLines] at ih ⊢
    cases hne : ls ++ [""] with
    | nil => simp at hne
    | cons m ms =>
      rw [List.cons_append, hne, String.intercalate_cons_cons, ← hne, ih, unlines_cons]

theorem reads_unlines_nil : Reads (unlines []) [] := reads_empty

theorem reads_lineEnd : Reads "\n" [] := fun _ => rfl

theorem Reads.unlines_cons {l : String} {ls : List String} {ts us : List Token}
    (hl : Reads (l ++ "\n") ts) (hls : Reads (unlines ls) us) :
    Reads (unlines (l :: ls)) (ts ++ us) := by
  rw [Verilog.unlines_cons]
  exact hl.append hls

theorem Reads.unlines_append {ls ms : List String} {ts us : List Token}
    (hls : Reads (unlines ls) ts) (hms : Reads (unlines ms) us) :
    Reads (unlines (ls ++ ms)) (ts ++ us) := by
  rw [Verilog.unlines_append]
  exact hls.append hms

/-! ### Words and numbers before a stop -/

def Stops (s : String) : Prop := ∃ c cs, s.toList = c :: cs ∧ isStop c = true

theorem Stops.append {s : String} (h : Stops s) (t : String) : Stops (s ++ t) := by
  obtain ⟨c, cs, hs, hc⟩ := h
  exact ⟨c, cs ++ t.toList, by rw [String.toList_append, hs, List.cons_append], hc⟩

theorem Reads.word {x s : String} {ts : List Token} (hx : isIdentifier x = true) (hs : Stops s)
    (h : Reads s ts) : Reads (x ++ s) (.word x :: ts) := fun rest => by
  obtain ⟨c, cs, hcs, hc⟩ := hs
  have hread := h rest
  rw [hcs, List.cons_append] at hread
  rw [String.toList_append, List.append_assoc, hcs, List.cons_append, tokens_identifier hx hc, hread,
    List.cons_append]

theorem Reads.number {s : String} {ts : List Token} (n : Nat) (hs : Stops s) (h : Reads s ts) :
    Reads (Decimal.natText n ++ s) (.number n :: ts) := fun rest => by
  obtain ⟨c, cs, hcs, hc⟩ := hs
  have hread := h rest
  rw [hcs, List.cons_append] at hread
  rw [String.toList_append, List.append_assoc, hcs, List.cons_append, tokens_natText n hc, hread,
    List.cons_append]

theorem Reads.sized {s : String} {ts : List Token} (width n : Nat) (hs : Stops s) (h : Reads s ts) :
    Reads (Decimal.natText width ++ ("'d" ++ (Decimal.natText n ++ s))) (.sized width n :: ts) :=
  fun rest => by
    obtain ⟨c, cs, hcs, hc⟩ := hs
    have hread := h rest
    rw [hcs, List.cons_append] at hread
    rw [String.toList_append, String.toList_append, String.toList_append, hcs, List.append_assoc,
      List.append_assoc, List.append_assoc]
    exact (tokens_sized width n hc (cs ++ rest)).trans (by rw [hread, List.cons_append])

theorem Reads.append_word {s t x : String} {ss ts : List Token} (h : Reads s ss)
    (hx : isIdentifier x = true) (hstop : Stops t) (ht : Reads t ts) :
    Reads (s ++ x ++ t) (ss ++ .word x :: ts) := by
  rw [String.append_assoc]
  exact h.append (ht.word hx hstop)

theorem Reads.append_number {s t : String} {ss ts : List Token} (h : Reads s ss) (n : Nat)
    (hstop : Stops t) (ht : Reads t ts) :
    Reads (s ++ Decimal.natText n ++ t) (ss ++ .number n :: ts) := by
  rw [String.append_assoc]
  exact h.append (ht.number n hstop)

def bitTokens (b : String × Nat) : List Token :=
  [.word b.1, .symbol '[', .number b.2, .symbol ']']

theorem reads_bitOf {x : String} (hx : isIdentifier x = true) (i : Nat) :
    Reads (bitOf x i) (bitTokens (x, i)) := by
  rw [bitOf, String.append_assoc, String.append_assoc]
  have hclose : Reads "]" [.symbol ']'] := fun _ => rfl
  have hopen : Reads "[" [.symbol '['] := fun _ => rfl
  have hindex := hclose.number i ⟨']', [], rfl, rfl⟩
  exact (hopen.append hindex).word hx (Stops.append ⟨'[', [], rfl, rfl⟩ _)

/-! ### Equations -/

def sumTokens : List (String × Nat) → List Token
  | [] => []
  | b :: bs => bitTokens b ++ bs.flatMap fun b => .symbol '^' :: bitTokens b

theorem sumTokens_append {bs cs : List (String × Nat)} (hb : bs ≠ []) (hc : cs ≠ []) :
    sumTokens (bs ++ cs) = sumTokens bs ++ .symbol '^' :: sumTokens cs := by
  cases bs with
  | nil => exact absurd rfl hb
  | cons b bs =>
    cases cs with
    | nil => exact absurd rfl hc
    | cons c cs =>
      simp only [List.cons_append, sumTokens, List.flatMap_append, List.flatMap_cons,
        List.append_assoc]

section equation

variable {bits : List (String × Nat)}

def bitText (b : String × Nat) : String := bitOf b.1 b.2

theorem reads_termText (hne : bits ≠ []) (hbits : ∀ b ∈ bits, isIdentifier b.1 = true) :
    Reads (Equation.termText (bits.map bitText)) (sumTokens bits) := by
  induction bits with
  | nil => exact absurd rfl hne
  | cons b bits ih =>
    have hb : Reads (bitText b) (bitTokens b) := reads_bitOf (hbits b List.mem_cons_self) b.2
    cases bits with
    | nil =>
      rw [Equation.termText, List.map_singleton, String.intercalate_singleton]
      simpa only [sumTokens, List.flatMap_nil, List.append_nil] using hb
    | cons c bits =>
      have hrest := ih (List.cons_ne_nil c bits) fun d hd => hbits d (List.mem_cons_of_mem b hd)
      have hop : Reads " ^ " [.symbol '^'] := fun _ => rfl
      rw [Equation.termText, List.map_cons, List.map_cons, String.intercalate_cons_cons]
      rw [Equation.termText, List.map_cons] at hrest
      have hall := (hb.append hop).append hrest
      have hsum : sumTokens (b :: c :: bits) = sumTokens [b] ++ .symbol '^' :: sumTokens (c :: bits) :=
        sumTokens_append (List.cons_ne_nil b []) (List.cons_ne_nil c bits)
      rw [hsum]
      simpa only [sumTokens, List.flatMap_nil, List.append_nil, List.append_assoc,
        List.singleton_append] using hall

/-- The runs of an equation that have not been read yet are parts of one sum. -/
theorem reads_continuedLines (e : Equation) {runs : List (List (String × Nat))}
    (hne : ∀ run ∈ runs, run ≠ []) (hbits : ∀ run ∈ runs, ∀ b ∈ run, isIdentifier b.1 = true)
    (hruns : runs ≠ []) :
    Reads (unlines (e.continuedLines (runs.map (List.map bitText))))
      (.symbol '^' :: sumTokens runs.flatten ++ [.symbol ';']) := by
  have hlead : Reads e.continuation [.symbol '^'] := by
    rw [Equation.continuation]
    exact (reads_spaces _).append (fun _ => rfl : Reads "^ " [.symbol '^'])
  induction runs with
  | nil => exact absurd rfl hruns
  | cons run rest ih =>
    have hrun := reads_termText (hne run List.mem_cons_self) (hbits run List.mem_cons_self)
    rw [List.map_cons, Equation.continuedLines]
    by_cases hrest : rest = []
    · subst hrest
      rw [List.map_nil, Equation.closing_nil]
      have hend : Reads (";" ++ "\n") [.symbol ';'] := fun _ => rfl
      have hline := (hlead.append hrun).append hend
      rw [← String.append_assoc] at hline
      simpa only [Equation.continuedLines, List.map_nil, List.flatten_cons, List.flatten_nil,
        List.append_nil, List.singleton_append] using hline.unlines_cons reads_unlines_nil
    · rw [Equation.closing_of_ne_nil (mt List.map_eq_nil_iff.1 hrest), String.append_empty]
      have htail := ih (fun r hr => hne r (List.mem_cons_of_mem run hr))
        (fun r hr => hbits r (List.mem_cons_of_mem run hr)) hrest
      have hline := (hlead.append hrun).append reads_lineEnd
      have hflat : rest.flatten ≠ [] := by
        obtain ⟨r, rs, rfl⟩ := List.exists_cons_of_ne_nil hrest
        rw [List.flatten_cons]
        exact List.append_ne_nil_of_left_ne_nil
          (hne r (List.mem_cons_of_mem run List.mem_cons_self)) _
      rw [List.flatten_cons, sumTokens_append (hne run List.mem_cons_self) hflat]
      simpa only [List.append_nil, List.cons_append, List.append_assoc, List.nil_append] using
        hline.unlines_cons htail

def sumAssignTokens (target : String × Nat) (bits : List (String × Nat)) : List Token :=
  .word "assign" :: bitTokens target ++ .symbol '=' :: sumTokens bits ++ [.symbol ';']

/-- **A wrapped equation is one sum**, its terms in order and a semicolon at the end. -/
theorem reads_equation {target : String × Nat} (htarget : isIdentifier target.1 = true)
    (hne : bits ≠ []) (hbits : ∀ b ∈ bits, isIdentifier b.1 = true) :
    Reads (unlines (Equation.lines ⟨bitText target, bits.map bitText⟩))
      (sumAssignTokens target bits) := by
  have hpos : 0 < termsPerLine := by decide
  have hflat := Rtl.flatten_runsOf hpos bits
  obtain ⟨run, rest, hruns⟩ : ∃ run rest, runsOf termsPerLine bits = run :: rest := by
    rw [Rtl.runsOf_of_ne_nil hpos hne]
    exact ⟨_, _, rfl⟩
  have hrunne : ∀ r ∈ run :: rest, r ≠ [] := fun r hr =>
    Rtl.ne_nil_of_mem_runsOf hpos (by rw [hruns]; exact hr)
  have hmem : ∀ r ∈ run :: rest, ∀ b ∈ r, isIdentifier b.1 = true := fun r hr b hb =>
    hbits b (by rw [← hflat, hruns]; exact List.mem_flatten_of_mem hr hb)
  rw [hruns, List.flatten_cons] at hflat
  have hsum : sumTokens bits = sumTokens (run ++ rest.flatten) := by rw [hflat]
  have hlead : Reads (Equation.lead ⟨bitText target, bits.map bitText⟩)
      (.word "assign" :: bitTokens target ++ [.symbol '=']) := by
    have hassign : Reads "  assign " [.word "assign"] := fun _ => rfl
    have hequals : Reads " = " [.symbol '='] := fun _ => rfl
    exact (hassign.append (reads_bitOf htarget target.2)).append hequals
  have hfirst := hlead.append (reads_termText (hrunne run List.mem_cons_self)
    (hmem run List.mem_cons_self))
  have htexts : runsOf termsPerLine (bits.map bitText) =
      run.map bitText :: rest.map (List.map bitText) := by
    rw [Rtl.runsOf_map, hruns, List.map_cons]
  rw [Equation.lines_of_runs htexts, sumAssignTokens, hsum]
  by_cases hrest : rest = []
  · subst hrest
    rw [List.map_nil, Equation.closing_nil]
    have hend : Reads (";" ++ "\n") [.symbol ';'] := fun _ => rfl
    have hline := hfirst.append hend
    rw [← String.append_assoc] at hline
    simpa only [Equation.continuedLines, List.map_nil, List.flatten_nil, List.append_nil,
      List.cons_append, List.append_assoc, List.nil_append] using hline.unlines_cons reads_unlines_nil
  · rw [Equation.closing_of_ne_nil (mt List.map_eq_nil_iff.1 hrest), String.append_empty]
    have htail := reads_continuedLines ⟨bitText target, bits.map bitText⟩
      (fun r hr => hrunne r (List.mem_cons_of_mem run hr))
      (fun r hr => hmem r (List.mem_cons_of_mem run hr)) hrest
    have hline := hfirst.append reads_lineEnd
    have hrestflat : rest.flatten ≠ [] := by
      obtain ⟨r, rs, rfl⟩ := List.exists_cons_of_ne_nil hrest
      rw [List.flatten_cons]
      exact List.append_ne_nil_of_left_ne_nil
        (hrunne r (List.mem_cons_of_mem run List.mem_cons_self)) _
    rw [sumTokens_append (hrunne run List.mem_cons_self) hrestflat]
    simpa only [List.append_nil, List.cons_append, List.append_assoc, List.nil_append] using
      hline.unlines_cons htail

end equation

end MemoryCompiler.Verilog
