import Mathlib
import MemoryCompiler.Proofs.Text.Characters
import MemoryCompiler.Rtl.Netlist
import MemoryCompiler.Text.Width

/-!
# Tokens of hardware text

Words, numbers, sized numbers such as `7'd12` and single symbols. Blanks separate tokens; a comment
goes on to the end of its line, and so does a compiler directive. `Reads s ts` says that the text `s`
holds the tokens `ts` whatever follows it, so the tokens of a text are found piece by piece.
-/

namespace MemoryCompiler.Verilog

open Rtl (startsIdentifier inIdentifier)

/-- The smallest part of a text that has a meaning. -/
inductive Token where
  | word (name : String)
  | number (n : Nat)
  /-- A number written with its width in bits. -/
  | sized (width value : Nat)
  | symbol (c : Char)
deriving DecidableEq, Repr

/-- What has been read of a token. -/
inductive Scan where
  | idle
  | word (reversed : List Char)
  | number (n : Nat)
  | quote (width : Nat)
  | base (width : Nat)
  | sized (width value : Nat)
  | slash
  /-- Inside a comment or a directive. -/
  | line

namespace Scan

/-- The tokens that are complete if a token ends here. -/
def finish : Scan → List Token
  | idle | line => []
  | word reversed => [.word (String.ofList reversed.reverse)]
  | number n => [.number n]
  | quote width => [.number width, .symbol '\x27']
  | base width => [.number width, .symbol '\x27', .word "d"]
  | sized width value => [.sized width value]
  | slash => [.symbol '/']

def isBlank (c : Char) : Bool := c == ' ' || c == '\n' || c == '\t' || c == '\r'

def digit (c : Char) : Nat := c.toNat - '0'.toNat

def start (c : Char) : List Token × Scan :=
  if startsIdentifier c then ([], word [c])
  else if c.isDigit then ([], number (digit c))
  else if isBlank c then ([], idle)
  else if c = '/' then ([], slash)
  else if c = '\x60' then ([], line)
  else ([.symbol c], idle)

/-- Ends a token and reads the first character of the next one. -/
def restart (s : Scan) (c : Char) : List Token × Scan := (s.finish ++ (start c).1, (start c).2)

/-- Reads one more character. -/
def next (s : Scan) (c : Char) : List Token × Scan :=
  match s with
  | idle => start c
  | word reversed => if inIdentifier c then ([], word (c :: reversed)) else s.restart c
  | number n =>
    if c.isDigit then ([], number (10 * n + digit c))
    else if c = '\x27' then ([], quote n) else s.restart c
  | quote width => if c = 'd' then ([], base width) else s.restart c
  | base width => if c.isDigit then ([], sized width (digit c)) else s.restart c
  | sized width value =>
    if c.isDigit then ([], sized width (10 * value + digit c)) else s.restart c
  | slash => if c = '/' then ([], line) else s.restart c
  | line => if c = '\n' then ([], idle) else ([], line)

/-- The tokens of what is left of a text. -/
def tokens : Scan → List Char → List Token
  | s, [] => s.finish
  | s, c :: cs => (s.next c).1 ++ (s.next c).2.tokens cs

theorem tokens_restart {s : Scan} {c : Char} (h : s.next c = s.restart c) (cs : List Char) :
    s.tokens (c :: cs) = s.finish ++ idle.tokens (c :: cs) := by
  rw [tokens, h, restart, tokens, next, List.append_assoc]

end Scan

def tokens (text : String) : List Token := Scan.idle.tokens text.toList

/-! ### Pieces of a text -/

/-- The text `s` holds the tokens `ts` whatever follows it. -/
def Reads (s : String) (ts : List Token) : Prop :=
  ∀ rest : List Char, Scan.idle.tokens (s.toList ++ rest) = ts ++ Scan.idle.tokens rest

theorem Reads.tokens_eq {s : String} {ts : List Token} (h : Reads s ts) : tokens s = ts := by
  have hempty := h []
  rw [List.append_nil] at hempty
  rw [tokens, hempty]
  exact List.append_nil ts

theorem Reads.append {s t : String} {ss ts : List Token} (hs : Reads s ss) (ht : Reads t ts) :
    Reads (s ++ t) (ss ++ ts) := fun rest => by
  rw [String.toList_append, List.append_assoc, hs, ht, List.append_assoc]

theorem reads_empty : Reads "" [] := fun _ => rfl

theorem reads_spaces (n : Nat) : Reads (Text.spaces n) [] := by
  intro rest
  rw [Text.spaces, String.toList_ofList]
  induction n with
  | zero => rfl
  | succ n ih => exact ih

/-- A text without line ends is skipped after what opens a comment or a directive. -/
theorem tokens_line {cs : List Char} (h : '\n' ∉ cs) (rest : List Char) :
    Scan.line.tokens (cs ++ '\n' :: rest) = Scan.idle.tokens rest := by
  induction cs with
  | nil => rfl
  | cons c cs ih =>
    rw [List.mem_cons, not_or] at h
    rw [List.cons_append, Scan.tokens, Scan.next, if_neg (Ne.symm h.1)]
    exact ih h.2

theorem reads_comment {s : String} (h : '\n' ∉ s.toList) : Reads ("// " ++ s ++ "\n") [] := by
  intro rest
  rw [String.toList_append, String.toList_append, List.append_assoc, List.append_assoc]
  exact tokens_line h rest

/-! ### Words and numbers -/

/-- A text that is one identifier. -/
def isIdentifier (s : String) : Bool :=
  match s.toList with
  | [] => false
  | c :: cs => startsIdentifier c && cs.all inIdentifier

theorem isIdentifier_append {x s : String} (hx : isIdentifier x = true)
    (hs : s.toList.all inIdentifier = true) : isIdentifier (x ++ s) = true := by
  rw [isIdentifier] at hx ⊢
  rw [String.toList_append]
  cases hcs : x.toList with
  | nil => simp [hcs] at hx
  | cons a cs =>
    simp only [hcs, Bool.and_eq_true] at hx
    simp only [List.cons_append, List.all_append, Bool.and_eq_true]
    exact ⟨hx.1, hx.2, hs⟩

/-- A character that no word or number goes on with. -/
def isStop (c : Char) : Bool := !inIdentifier c && c != '\x27'

theorem isDigit_of_isStop {c : Char} (h : isStop c = true) : c.isDigit = false := by
  simp only [isStop, inIdentifier, Bool.and_eq_true, Bool.not_eq_true', Bool.or_eq_false_iff] at h
  have halpha := h.1.1
  rw [Char.isAlphanum, Bool.or_eq_false_iff] at halpha
  exact halpha.2

theorem tokens_word {cs : List Char} (h : cs.all inIdentifier = true) (reversed : List Char)
    {c : Char} (hc : isStop c = true) (rest : List Char) :
    (Scan.word reversed).tokens (cs ++ c :: rest) =
      .word (String.ofList (reversed.reverse ++ cs)) :: Scan.idle.tokens (c :: rest) := by
  induction cs generalizing reversed with
  | nil =>
    have hstop : inIdentifier c = false := by
      simp only [isStop, Bool.and_eq_true, Bool.not_eq_true'] at hc
      exact hc.1
    rw [List.nil_append, Scan.tokens_restart (by rw [Scan.next, hstop]; rfl), List.append_nil]
    rfl
  | cons d cs ih =>
    rw [List.all_cons, Bool.and_eq_true] at h
    rw [List.cons_append, Scan.tokens, Scan.next, if_pos h.1]
    show (Scan.word (d :: reversed)).tokens (cs ++ c :: rest) = _
    rw [ih h.2, List.reverse_cons, List.append_assoc]
    rfl

theorem tokens_identifier {s : String} (h : isIdentifier s = true) {c : Char} (hc : isStop c = true)
    (rest : List Char) :
    Scan.idle.tokens (s.toList ++ c :: rest) = .word s :: Scan.idle.tokens (c :: rest) := by
  rw [isIdentifier] at h
  cases hs : s.toList with
  | nil => simp [hs] at h
  | cons d ds =>
    simp only [hs, Bool.and_eq_true] at h
    rw [List.cons_append, Scan.tokens, Scan.next, Scan.start, if_pos h.1]
    show (Scan.word [d]).tokens (ds ++ c :: rest) = _
    rw [tokens_word h.2 [d] hc, List.reverse_singleton, List.singleton_append, ← hs,
      String.ofList_toList]

theorem startsIdentifier_of_isDigit {c : Char} (h : c.isDigit = true) :
    startsIdentifier c = false := by
  simp only [Char.isDigit, Bool.and_eq_true, decide_eq_true_eq, UInt32.le_iff_toNat_le, ge_iff_le] at h
  have hnine : '9'.val.toNat = 57 := rfl
  rw [startsIdentifier, Bool.or_eq_false_iff]
  constructor
  · rw [Bool.eq_false_iff]
    intro halpha
    simp only [Char.isAlpha, Char.isUpper, Char.isLower, Bool.or_eq_true, Bool.and_eq_true,
      decide_eq_true_eq, UInt32.le_iff_toNat_le, ge_iff_le] at halpha
    have hupper : 'A'.val.toNat = 65 := rfl
    have hlower : 'a'.val.toNat = 97 := rfl
    omega
  · rw [beq_eq_false_iff_ne]
    rintro rfl
    have hunderscore : '_'.val.toNat = 95 := rfl
    omega

theorem tokens_digits {cs : List Char} (h : ∀ c ∈ cs, c.isDigit = true) (n : Nat)
    (rest : List Char) :
    (Scan.number n).tokens (cs ++ rest) = (Scan.number (Nat.ofDigitChars 10 cs n)).tokens rest := by
  induction cs generalizing n with
  | nil => rfl
  | cons d cs ih =>
    rw [List.cons_append, Scan.tokens, Scan.next, if_pos (h d List.mem_cons_self)]
    show (Scan.number (10 * n + Scan.digit d)).tokens (cs ++ rest) = _
    rw [ih (fun e he => h e (List.mem_cons_of_mem d he)), Nat.ofDigitChars_cons]
    rfl

theorem tokens_number_stop (n : Nat) {c : Char} (hc : isStop c = true) (rest : List Char) :
    (Scan.number n).tokens (c :: rest) = .number n :: Scan.idle.tokens (c :: rest) := by
  have hne : c ≠ '\x27' := by
    rintro rfl
    exact Bool.false_ne_true hc
  rw [Scan.tokens_restart (by
    rw [Scan.next, if_neg (by rw [isDigit_of_isStop hc]; exact Bool.false_ne_true), if_neg hne])]
  rfl

theorem tokens_sized_digits {cs : List Char} (h : ∀ c ∈ cs, c.isDigit = true) (width n : Nat)
    (rest : List Char) :
    (Scan.sized width n).tokens (cs ++ rest) =
      (Scan.sized width (Nat.ofDigitChars 10 cs n)).tokens rest := by
  induction cs generalizing n with
  | nil => rfl
  | cons d cs ih =>
    rw [List.cons_append, Scan.tokens, Scan.next, if_pos (h d List.mem_cons_self)]
    show (Scan.sized width (10 * n + Scan.digit d)).tokens (cs ++ rest) = _
    rw [ih (fun e he => h e (List.mem_cons_of_mem d he)), Nat.ofDigitChars_cons]
    rfl

theorem tokens_sized_stop (width n : Nat) {c : Char} (hc : isStop c = true) (rest : List Char) :
    (Scan.sized width n).tokens (c :: rest) = .sized width n :: Scan.idle.tokens (c :: rest) := by
  rw [Scan.tokens_restart (by
    rw [Scan.next, if_neg (by rw [isDigit_of_isStop hc]; exact Bool.false_ne_true)])]
  rfl

theorem exists_digitChars (n : Nat) :
    ∃ c cs, Decimal.digitChars n = c :: cs ∧ c.isDigit = true ∧ (∀ d ∈ cs, d.isDigit = true) ∧
      Nat.ofDigitChars 10 cs (Scan.digit c) = n := by
  cases hn : Decimal.digitChars n with
  | nil => exact absurd hn Nat.toDigits_ne_nil
  | cons c cs =>
    have hdigits : ∀ d ∈ c :: cs, d.isDigit = true := fun d hd =>
      Decimal.isDigit_of_mem_digitChars (by rw [hn]; exact hd)
    refine ⟨c, cs, rfl, hdigits c List.mem_cons_self,
      fun d hd => hdigits d (List.mem_cons_of_mem c hd), ?_⟩
    have hvalue : Nat.ofDigitChars 10 (Decimal.digitChars n) 0 = n := Nat.ofDigitChars_ten_toDigits
    rwa [hn, Nat.ofDigitChars_cons, Nat.mul_zero, Nat.zero_add] at hvalue

theorem start_digit {c : Char} (h : c.isDigit = true) :
    Scan.start c = ([], .number (Scan.digit c)) := by
  rw [Scan.start, startsIdentifier_of_isDigit h, if_neg Bool.false_ne_true, if_pos h]

theorem tokens_natText (n : Nat) {c : Char} (hc : isStop c = true) (rest : List Char) :
    Scan.idle.tokens ((Decimal.natText n).toList ++ c :: rest) =
      .number n :: Scan.idle.tokens (c :: rest) := by
  obtain ⟨d, ds, hn, hd, hds, hvalue⟩ := exists_digitChars n
  rw [Decimal.natText, String.toList_ofList, hn, List.cons_append, Scan.tokens, Scan.next,
    start_digit hd]
  show (Scan.number (Scan.digit d)).tokens (ds ++ c :: rest) = _
  rw [tokens_digits hds, hvalue, tokens_number_stop n hc]

theorem tokens_sized (width n : Nat) {c : Char} (hc : isStop c = true) (rest : List Char) :
    Scan.idle.tokens ((Decimal.natText width).toList ++ '\x27' :: 'd' ::
        ((Decimal.natText n).toList ++ c :: rest)) =
      .sized width n :: Scan.idle.tokens (c :: rest) := by
  obtain ⟨d, ds, hw, hd, hds, hwidth⟩ := exists_digitChars width
  obtain ⟨e, es, hn, he, hes, hvalue⟩ := exists_digitChars n
  rw [Decimal.natText, Decimal.natText, String.toList_ofList, String.toList_ofList, hw, hn,
    List.cons_append, Scan.tokens, Scan.next, start_digit hd]
  show (Scan.number (Scan.digit d)).tokens (ds ++ '\x27' :: 'd' :: (e :: es ++ c :: rest)) = _
  rw [tokens_digits hds, hwidth]
  show (Scan.base width).tokens (e :: es ++ c :: rest) = _
  rw [List.cons_append, Scan.tokens, Scan.next, if_pos he]
  show (Scan.sized width (Scan.digit e)).tokens (es ++ c :: rest) = _
  rw [tokens_sized_digits hes, hvalue, tokens_sized_stop width n hc]

end MemoryCompiler.Verilog
