import MemoryCompiler.Proofs.Decimal.ReadBack
import MemoryCompiler.Proofs.Verilog.Syntax

/-!
# Structural hardware text

A module of parameters, ports, nets, assignments and instances, read straight from its characters:
expressions are kept as they are written, so nothing of them is lost in tokens. Blanks, comments and
directives may stand in front of anything. Lists are separated by commas, with none in front of the first
thing or behind the last.
-/

namespace MemoryCompiler.Verilog.Structural

open Rtl (startsIdentifier inIdentifier)

/-- Takes something from the front of a text. -/
abbrev Reader (α : Type) := List Char → Option (α × List Char)

/-! ### Layout -/

/-- Drops blanks, comments and directives; the flag is set inside the latter two. -/
def layout : Bool → List Char → List Char
  | _, [] => []
  | true, c :: cs => layout (c != '\n') cs
  | false, c :: cs =>
    if Scan.isBlank c then layout false cs
    else if c = '\x60' then layout true cs
    else if c = '/' ∧ cs.head? = some '/' then layout true cs
    else c :: cs

/-- Drops what stands in front of the next thing. -/
def skip (cs : List Char) : List Char := layout false cs

def symbol (c : Char) (cs : List Char) : Option (List Char) :=
  match skip cs with
  | d :: rest => if d = c then some rest else none
  | [] => none

/-! ### Words -/

/-- A character of an identifier. -/
def inWord (c : Char) : Bool := inIdentifier c || c == '$'

/-- The words with a meaning of their own. -/
def reserved : List String :=
  ["always", "and", "assign", "automatic", "begin", "buf", "bufif0", "bufif1", "case", "casex", "casez",
    "cell", "cmos", "config", "deassign", "default", "defparam", "design", "disable", "edge", "else", "end",
    "endcase", "endconfig", "endfunction", "endgenerate", "endmodule", "endprimitive", "endspecify",
    "endtable", "endtask", "event", "for", "force", "forever", "fork", "function", "generate", "genvar",
    "highz0", "highz1", "if", "ifnone", "incdir", "include", "initial", "inout", "input", "instance",
    "integer", "join", "large", "liblist", "library", "localparam", "macromodule", "medium", "module",
    "nand", "negedge", "nmos", "nor", "noshowcancelled", "not", "notif0", "notif1", "or", "output",
    "parameter", "pmos", "posedge", "primitive", "pull0", "pull1", "pulldown", "pullup",
    "pulsestyle_ondetect", "pulsestyle_onevent", "rcmos", "real", "realtime", "reg", "release", "repeat",
    "rnmos", "rpmos", "rtran", "rtranif0", "rtranif1", "scalared", "showcancelled", "signed", "small",
    "specify", "specparam", "strong0", "strong1", "supply0", "supply1", "table", "task", "time", "tran",
    "tranif0", "tranif1", "tri", "tri0", "tri1", "triand", "trior", "trireg", "unsigned", "use", "uwire",
    "vectored", "wait", "wand", "weak0", "weak1", "while", "wire", "wor", "xnor", "xor"]

/-- A text that is one identifier: a letter or an underscore first, then also digits and dollar signs. -/
def isWord (s : String) : Bool := s.toList.head?.any startsIdentifier && s.toList.all inWord

/-- An identifier that names something. -/
def isName (s : String) : Bool := isWord s && !reserved.contains s

def word : Reader String := fun cs =>
  let w := (skip cs).takeWhile inWord
  if w.head?.any startsIdentifier then some (String.ofList w, (skip cs).dropWhile inWord) else none

def keyword (k : String) (cs : List Char) : Option (List Char) :=
  (word cs).bind fun p => if p.1 = k then some p.2 else none

def name : Reader String := fun cs => (word cs).filter fun p => !reserved.contains p.1

/-! ### Expressions and numbers -/

def inExpr (c : Char) : Bool := inWord c || Scan.isBlank c || c == '&' || c == '~'

def trimEnd (cs : List Char) : List Char := (cs.reverse.dropWhile Scan.isBlank).reverse

/-- A text that is one expression, with no blanks around it. -/
def isExpr (s : String) : Bool :=
  s.toList.all inExpr && s.toList.head?.any (!Scan.isBlank ·) && s.toList.getLast?.any (!Scan.isBlank ·)

def expr : Reader String := fun cs =>
  let e := trimEnd ((skip cs).takeWhile inExpr)
  if e = [] then none else some (String.ofList e, (skip cs).dropWhile inExpr)

def integer : Reader Int := fun cs =>
  let t := (skip cs).takeWhile Decimal.inConstant
  if t = [] then none
  else (Decimal.number? (String.ofList t)).bind fun x => (Decimal.wholeValue x).map fun k =>
    (k, (skip cs).dropWhile Decimal.inConstant)

/-- Reads a bound of a range, or one side of a difference. -/
def atom : Reader Const := fun cs =>
  let ds := (skip cs).takeWhile Char.isDigit
  if ds = [] then (name cs).map fun p => (.parameter p.1, p.2)
  else some (.literal (Nat.ofDigitChars 10 ds 0), (skip cs).dropWhile Char.isDigit)

def bound : Reader Const := fun cs => do
  let (a, cs) ← atom cs
  match symbol '-' cs with
  | some cs => do
    let (b, cs) ← atom cs
    some (.minus a b, cs)
  | none => some (a, cs)

def range : Reader (Option Range) := fun cs =>
  match symbol '[' cs with
  | some cs => do
    let (high, cs) ← bound cs
    let cs ← symbol ':' cs
    let (low, cs) ← bound cs
    let cs ← symbol ']' cs
    some (some (high, low), cs)
  | none => some (none, cs)

/-! ### Lists -/

/-- Reads things with commas between them up to a closing parenthesis. -/
def entries {α : Type} (one : Reader α) : Nat → Reader (List α)
  | 0, _ => none
  | fuel + 1, cs => do
    let (a, cs) ← one cs
    match symbol ',' cs with
    | some cs => do
      let (as, cs) ← entries one fuel cs
      some (a :: as, cs)
    | none => do
      let cs ← symbol ')' cs
      some ([a], cs)

def list {α : Type} (one : Reader α) : Reader (List α) := fun cs => do
  let cs ← symbol '(' cs
  match symbol ')' cs with
  | some cs => some ([], cs)
  | none => entries one cs.length cs

/-- Reads a list behind a number sign, if there is one. -/
def optionalList {α : Type} (one : Reader α) : Reader (List α) := fun cs =>
  match symbol '#' cs with
  | some cs => do
    let cs ← symbol '(' cs
    entries one cs.length cs
  | none => some ([], cs)

/-! ### Modules -/

structure Net where
  range : Option Range
  name : String
deriving DecidableEq, Repr

/-- What stands in the body of a module. -/
inductive Item where
  | net (n : Net)
  | assign (a : Rtl.Assign)
  | submodule (i : Rtl.Instance)
deriving DecidableEq, Repr

/-- What a structural module consists of. -/
structure Structure where
  name : String
  params : List (String × Int)
  ports : List Port
  nets : List Net
  assigns : List Rtl.Assign
  instances : List Rtl.Instance
deriving DecidableEq, Repr

def param : Reader (String × Int) := fun cs => do
  let cs ← keyword "parameter" cs
  let (x, cs) ← name cs
  let cs ← symbol '=' cs
  let (k, cs) ← integer cs
  some ((x, k), cs)

def port : Reader Port := fun cs => do
  let (d, cs) ← word cs
  let direction ← [Rtl.Direction.input, .output, .inout].find? fun x => x.text == d
  let cs ← keyword "wire" cs
  let (r, cs) ← range cs
  let (x, cs) ← name cs
  some (⟨direction, r, x⟩, cs)

def pair : Reader (String × String) := fun cs => do
  let cs ← symbol '.' cs
  let (x, cs) ← name cs
  let cs ← symbol '(' cs
  let (e, cs) ← expr cs
  let cs ← symbol ')' cs
  some ((x, e), cs)

def net : Reader Item := fun cs => do
  let (r, cs) ← range cs
  let (x, cs) ← name cs
  let cs ← symbol ';' cs
  some (.net ⟨r, x⟩, cs)

def assign : Reader Item := fun cs => do
  let (lhs, cs) ← expr cs
  let cs ← symbol '=' cs
  let (rhs, cs) ← expr cs
  let cs ← symbol ';' cs
  some (.assign ⟨lhs, rhs⟩, cs)

def submodule (moduleName : String) : Reader Item := fun cs => do
  let (params, cs) ← optionalList pair cs
  let (x, cs) ← name cs
  let (connections, cs) ← list pair cs
  let cs ← symbol ';' cs
  some (.submodule ⟨moduleName, x, params.map fun p => ⟨p.1, p.2⟩, connections.map fun p => ⟨p.1, p.2⟩⟩, cs)

def item : Reader Item := fun cs => do
  let (w, cs) ← word cs
  if w = "wire" then net cs
  else if w = "assign" then assign cs
  else if reserved.contains w then none
  else submodule w cs

/-- Reads the body of a module up to its end. -/
def body : Nat → Reader (List Item)
  | 0, _ => none
  | fuel + 1, cs =>
    match keyword "endmodule" cs with
    | some cs => some ([], cs)
    | none => do
      let (a, cs) ← item cs
      let (as, cs) ← body fuel cs
      some (a :: as, cs)

/-- The items of a body, each kind on its own. -/
def Item.net? : Item → Option Net
  | .net n => some n
  | _ => none

def Item.assign? : Item → Option Rtl.Assign
  | .assign a => some a
  | _ => none

def Item.submodule? : Item → Option Rtl.Instance
  | .submodule i => some i
  | _ => none

def module? : Reader Structure := fun cs => do
  let cs ← keyword "module" cs
  let (x, cs) ← name cs
  let (params, cs) ← optionalList param cs
  let (ports, cs) ← list port cs
  let cs ← symbol ';' cs
  let (items, cs) ← body cs.length cs
  some (⟨x, params, ports, items.filterMap Item.net?, items.filterMap Item.assign?,
    items.filterMap Item.submodule?⟩, cs)

/-- Reads a text that holds one module and nothing else. -/
def read (text : String) : Option Structure := do
  let (m, cs) ← module? text.toList
  if skip cs = [] then some m else none

/-! ### Skipping layout -/

def Blank (cs : List Char) : Prop := ∀ c ∈ cs, Scan.isBlank c = true

instance (cs : List Char) : Decidable (Blank cs) := inferInstanceAs (Decidable (∀ c ∈ cs, _))

/-- A character that is no layout and opens none. -/
def opens (c : Char) : Bool := !Scan.isBlank c && c != '\x60' && c != '/'

section layout

variable {c d : Char} {bs cs ds : List Char}

theorem blank_nil : Blank [] := fun _ hc => absurd hc List.not_mem_nil

theorem blank_space : Blank [' '] := List.forall_mem_singleton.2 rfl

theorem blank_spaces (n : Nat) : Blank (Text.spaces n).toList := by
  intro c hc
  rw [Text.spaces, String.toList_ofList] at hc
  rw [List.eq_of_mem_replicate hc]
  rfl

theorem Blank.append (hbs : Blank bs) (hcs : Blank cs) : Blank (bs ++ cs) := fun c hc =>
  (List.mem_append.1 hc).elim (hbs c) (hcs c)

theorem skip_blank (hbs : Blank bs) (cs : List Char) : skip (bs ++ cs) = skip cs := by
  induction bs with
  | nil => rfl
  | cons b bs ih =>
    rw [List.cons_append, skip, layout, if_pos (hbs b List.mem_cons_self)]
    exact ih fun c hc => hbs c (List.mem_cons_of_mem b hc)

theorem skip_of_opens (hc : opens c = true) (cs : List Char) : skip (c :: cs) = c :: cs := by
  simp only [opens, Bool.and_eq_true, Bool.not_eq_true', bne_iff_ne] at hc
  rw [skip, layout, if_neg (by rw [hc.1.1]; exact Bool.false_ne_true), if_neg hc.1.2,
    if_neg fun h => hc.2 h.1]

theorem skip_append (hbs : Blank bs) (hc : opens c = true) (cs : List Char) :
    skip (bs ++ c :: cs) = c :: cs := by
  rw [skip_blank hbs, skip_of_opens hc]

theorem layout_line (h : '\n' ∉ ds) (cs : List Char) : layout true (ds ++ '\n' :: cs) = skip cs := by
  induction ds with
  | nil => rfl
  | cons d ds ih =>
    rw [List.mem_cons, not_or] at h
    rw [List.cons_append, layout, bne_iff_ne.2 (Ne.symm h.1)]
    exact ih h.2

theorem word_congr (h : skip cs = skip ds) : word cs = word ds := by rw [word, word, h]

theorem keyword_congr (h : skip cs = skip ds) (k : String) : keyword k cs = keyword k ds := by
  rw [keyword, keyword, word_congr h]

theorem symbol_append (hbs : Blank bs) (hc : opens c = true) (cs : List Char) :
    symbol c (bs ++ c :: cs) = some cs := by
  rw [symbol, skip_append hbs hc]
  exact if_pos rfl

theorem symbol_cons (hc : opens c = true) (cs : List Char) : symbol c (c :: cs) = some cs :=
  symbol_append blank_nil hc cs

theorem symbol_append_ne (hbs : Blank bs) (hd : opens d = true) (hne : d ≠ c) (cs : List Char) :
    symbol c (bs ++ d :: cs) = none := by
  rw [symbol, skip_append hbs hd]
  exact if_neg hne

theorem skip_of_symbol (h : symbol c cs = some ds) : skip cs = c :: ds := by
  unfold symbol at h
  cases hskip : skip cs with
  | nil =>
    rw [hskip] at h
    cases h
  | cons d rest =>
    rw [hskip] at h
    simp only at h
    split_ifs at h with heq
    rw [heq, Option.some.inj h]

theorem symbol_eq_none_of_symbol (h : symbol c cs = some ds) (hne : c ≠ d) : symbol d cs = none := by
  rw [symbol, skip_of_symbol h]
  exact if_neg hne

end layout

/-! ### Words, expressions and numbers in a text -/

section pieces

variable {s : String} {c : Char} {bs bs' rest cs : List Char}

theorem head_eq_false {p : Char → Bool} (h : p c = false) : ∀ d ∈ (c :: cs).head?, p d = false :=
  fun _ hd => Option.some.inj hd ▸ h

theorem not_isBlank_of_inWord (h : inWord c = true) : Scan.isBlank c = false := by
  rw [Bool.eq_false_iff]
  intro hblank
  simp only [Scan.isBlank, Bool.or_eq_true, beq_iff_eq] at hblank
  rcases hblank with ((rfl | rfl) | rfl) | rfl <;> cases h

theorem Blank.head_append (hbs : Blank bs) (hc : inWord c = false) :
    ∀ d ∈ (bs ++ c :: cs).head?, inWord d = false := by
  cases bs with
  | nil => exact head_eq_false hc
  | cons b bs =>
    refine head_eq_false (Bool.eq_false_iff.2 fun hword => ?_)
    have hblank := hbs b List.mem_cons_self
    rw [not_isBlank_of_inWord hword] at hblank
    cases hblank

theorem opens_of_inExpr (h : inExpr c = true) (hblank : Scan.isBlank c = false) : opens c = true := by
  simp only [opens, hblank, Bool.not_false, Bool.true_and, Bool.and_eq_true, bne_iff_ne]
  constructor <;> rintro rfl <;> cases h

theorem opens_of_inWord (h : inWord c = true) : opens c = true :=
  opens_of_inExpr (by simp [inExpr, h]) (not_isBlank_of_inWord h)

theorem exists_word (hs : isWord s = true) :
    ∃ c cs, s.toList = c :: cs ∧ startsIdentifier c = true ∧ ∀ d ∈ c :: cs, inWord d = true := by
  rw [isWord, Bool.and_eq_true, List.all_eq_true] at hs
  cases hcs : s.toList with
  | nil =>
    rw [hcs] at hs
    cases hs.1
  | cons c cs =>
    rw [hcs] at hs
    exact ⟨c, cs, rfl, hs⟩

theorem word_append (hbs : Blank bs) (hs : isWord s = true) (hrest : ∀ c ∈ rest.head?, inWord c = false) :
    word (bs ++ (s.toList ++ rest)) = some (s, rest) := by
  obtain ⟨c, cs, hcs, hfirst, hall⟩ := exists_word hs
  have hskip : skip (bs ++ (s.toList ++ rest)) = s.toList ++ rest := by
    rw [hcs, List.cons_append]
    exact skip_append hbs (opens_of_inWord (hall c List.mem_cons_self)) _
  have hspan := Text.span_append (hcs ▸ hall) hrest
  rw [word, hskip]
  rw [hspan.1, hspan.2, if_pos (by rw [hcs]; exact hfirst), String.ofList_toList]

theorem isWord_of_isName (h : isName s = true) : isWord s = true := (Bool.and_eq_true _ _ ▸ h : _ ∧ _).1

theorem name_append (hbs : Blank bs) (hs : isName s = true) (hrest : ∀ c ∈ rest.head?, inWord c = false) :
    name (bs ++ (s.toList ++ rest)) = some (s, rest) := by
  rw [isName, Bool.and_eq_true] at hs
  rw [name, word_append hbs hs.1 hrest, Option.filter_some, if_pos hs.2]

theorem symbol_eq_none_of_word {p : String × List Char} (h : word cs = some p)
    (hc : startsIdentifier c = false) : symbol c cs = none := by
  rw [word] at h
  rw [symbol]
  cases hskip : skip cs with
  | nil => rfl
  | cons d ds =>
    refine if_neg ?_
    rintro rfl
    have hfirst : ((d :: ds).takeWhile inWord).head?.any startsIdentifier = false := by
      by_cases hd : inWord d = true
      · rw [List.takeWhile_cons_of_pos hd]
        exact hc
      · rw [List.takeWhile_cons_of_neg hd]
        rfl
    rw [hskip, hfirst] at h
    cases h

theorem trimEnd_append (hblank : Blank bs) (hs : s.toList.getLast?.any (!Scan.isBlank ·) = true) :
    trimEnd (s.toList ++ bs) = s.toList := by
  rw [trimEnd, List.reverse_append, List.dropWhile_append_of_pos fun c hc => hblank c (List.mem_reverse.1 hc)]
  obtain ⟨c, hlast, hc⟩ := (Option.any_eq_true _ _).1 hs
  rw [← List.head?_reverse] at hlast
  cases hreverse : s.toList.reverse with
  | nil =>
    rw [hreverse] at hlast
    cases hlast
  | cons d ds =>
    rw [hreverse, List.head?_cons, Option.some.injEq] at hlast
    rw [List.dropWhile_cons_of_neg (by rw [hlast]; simpa using hc), ← hreverse, List.reverse_reverse]

theorem expr_append (hbs : Blank bs) (hs : isExpr s = true) (hbs' : Blank bs') (hc : inExpr c = false)
    (cs : List Char) : expr (bs ++ (s.toList ++ (bs' ++ c :: cs))) = some (s, c :: cs) := by
  simp only [isExpr, Bool.and_eq_true, List.all_eq_true] at hs
  obtain ⟨⟨hall, hfirst⟩, hlast⟩ := hs
  obtain ⟨d, hd, hopen⟩ := (Option.any_eq_true _ _).1 hfirst
  obtain ⟨ds, hds⟩ := List.head?_eq_some_iff.1 hd
  have hskip : skip (bs ++ (s.toList ++ (bs' ++ c :: cs))) = s.toList ++ bs' ++ c :: cs := by
    rw [hds, List.cons_append, List.cons_append, List.cons_append, List.append_assoc]
    refine skip_append hbs (opens_of_inExpr (hall d ?_) (by simpa using hopen)) _
    rw [hds]
    exact List.mem_cons_self
  have hchars : ∀ x ∈ s.toList ++ bs', inExpr x = true := by
    intro x hx
    rcases List.mem_append.1 hx with hx | hx
    · exact hall x hx
    · simp [inExpr, hbs' x hx]
  have hstop : ∀ x ∈ (c :: cs).head?, inExpr x = false := head_eq_false hc
  have hspan := Text.span_append hchars hstop
  have hne : s.toList ≠ [] := by
    rw [hds]
    exact List.cons_ne_nil d ds
  rw [expr, hskip]
  rw [hspan.1, hspan.2, trimEnd_append hbs' hlast, if_neg hne, String.ofList_toList]

theorem opens_of_inConstant (h : Decimal.inConstant c = true) : opens c = true := by
  have hblank : Scan.isBlank c = false := by
    rw [Bool.eq_false_iff]
    intro hblank
    simp only [Scan.isBlank, Bool.or_eq_true, beq_iff_eq] at hblank
    rcases hblank with ((rfl | rfl) | rfl) | rfl <;> cases h
  simp only [opens, hblank, Bool.not_false, Bool.true_and, Bool.and_eq_true, bne_iff_ne]
  constructor <;> rintro rfl <;> cases h

theorem integer_append {k : Int} (hbs : Blank bs) (h : Decimal.Denotes s k)
    (hrest : ∀ c ∈ rest.head?, Decimal.inConstant c = false) :
    integer (bs ++ (s.toList ++ rest)) = some (k, rest) := by
  obtain ⟨hne, hs, x, hx, hk⟩ := h
  obtain ⟨d, ds, hds⟩ := List.exists_cons_of_ne_nil hne
  have hskip : skip (bs ++ (s.toList ++ rest)) = s.toList ++ rest := by
    rw [hds, List.cons_append]
    exact skip_append hbs (opens_of_inConstant (hs d (by rw [hds]; exact List.mem_cons_self))) _
  have hspan := Text.span_append hs hrest
  rw [integer, hskip]
  rw [hspan.1, hspan.2, if_neg hne, String.ofList_toList, hx, Option.bind_some, hk]
  rfl

end pieces

/-! ### Ranges -/

section ranges

variable {s : String} {bs rest : List Char}

theorem atom_name (hbs : Blank bs) (hs : isName s = true) (hrest : ∀ c ∈ rest.head?, inWord c = false) :
    atom (bs ++ (s.toList ++ rest)) = some (.parameter s, rest) := by
  obtain ⟨c, cs, hcs, hfirst, hall⟩ := exists_word (isWord_of_isName hs)
  have hdigit : ¬ c.isDigit = true := fun h => by
    rw [startsIdentifier_of_isDigit h] at hfirst
    cases hfirst
  have hnone : (skip (bs ++ (s.toList ++ rest))).takeWhile Char.isDigit = [] := by
    rw [hcs, List.cons_append, skip_append hbs (opens_of_inWord (hall c List.mem_cons_self)),
      List.takeWhile_cons_of_neg hdigit]
  rw [atom, hnone, if_pos rfl, name_append hbs hs hrest]
  rfl

theorem atom_digits (n : Nat) (hrest : ∀ c ∈ rest.head?, c.isDigit = false) :
    atom ((Decimal.natText n).toList ++ rest) = some (.literal n, rest) := by
  obtain ⟨c, cs, hcs, hc, -⟩ := exists_digitChars n
  have hskip : skip (Decimal.digitChars n ++ rest) = Decimal.digitChars n ++ rest := by
    rw [hcs, List.cons_append]
    exact skip_of_opens (opens_of_inConstant (by simp [Decimal.inConstant, hc])) _
  have hspan := Text.span_append (fun _ => Decimal.isDigit_of_mem_digitChars (n := n)) hrest
  have hvalue : Nat.ofDigitChars 10 (Decimal.digitChars n) 0 = n := Nat.ofDigitChars_ten_toDigits
  rw [Decimal.natText, String.toList_ofList, atom, hskip]
  rw [hspan.1, hspan.2, if_neg (by rw [hcs]; exact List.cons_ne_nil c cs), hvalue]

theorem range_name (hbs : Blank bs) (hs : isName s = true) (rest : List Char) :
    range (bs ++ ("[" ++ s ++ "-1:0]").toList ++ rest) =
      some (some (.minus (.parameter s) (.literal 1), .literal 0), rest) := by
  have htext : bs ++ ("[" ++ s ++ "-1:0]").toList ++ rest =
      bs ++ '[' :: ([] ++ (s.toList ++ ("-1:0]".toList ++ rest))) := by
    simp [String.toList_append]
  have hstop : ∀ c ∈ ("-1:0]".toList ++ rest).head?, inWord c = false := head_eq_false rfl
  have hatom := atom_name blank_nil hs hstop
  have hbound : bound ([] ++ (s.toList ++ ("-1:0]".toList ++ rest))) =
      some (.minus (.parameter s) (.literal 1), ":0]".toList ++ rest) := by
    rw [bound, hatom]
    rfl
  rw [htext, range, symbol_append hbs (by decide)]
  dsimp only
  rw [hbound]
  rfl

theorem range_digits (hbs : Blank bs) (n : Nat) (rest : List Char) :
    range (bs ++ ("[" ++ Decimal.natText n ++ ":0]").toList ++ rest) =
      some (some (.literal n, .literal 0), rest) := by
  have htext : bs ++ ("[" ++ Decimal.natText n ++ ":0]").toList ++ rest =
      bs ++ '[' :: ((Decimal.natText n).toList ++ (":0]".toList ++ rest)) := by
    simp [String.toList_append]
  have hstop : ∀ c ∈ (":0]".toList ++ rest).head?, c.isDigit = false := head_eq_false rfl
  have hatom := atom_digits n hstop
  have hbound : bound ((Decimal.natText n).toList ++ (":0]".toList ++ rest)) =
      some (.literal n, ":0]".toList ++ rest) := by
    rw [bound, hatom]
    rfl
  rw [htext, range, symbol_append hbs (by decide)]
  dsimp only
  rw [hbound]
  rfl

theorem range_none (hbs : Blank bs) (hs : isName s = true) (rest : List Char) :
    range (bs ++ (s.toList ++ rest)) = some (none, bs ++ (s.toList ++ rest)) := by
  obtain ⟨c, cs, hcs, hfirst, hall⟩ := exists_word (isWord_of_isName hs)
  have hne : c ≠ '[' := by
    rintro rfl
    cases hfirst
  rw [hcs, List.cons_append, range,
    symbol_append_ne hbs (opens_of_inWord (hall c List.mem_cons_self)) hne]

end ranges

end MemoryCompiler.Verilog.Structural
