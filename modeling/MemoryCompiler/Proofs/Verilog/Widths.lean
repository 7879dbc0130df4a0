import MemoryCompiler.Proofs.Verilog.Syntax

/-!
# Texts of one expression

A text that holds one expression and nothing else (`readExpr`), the width of an expression over nets
whose widths are known (`Expr.width?`), and the names in a text that is one identifier.
-/

namespace MemoryCompiler.Verilog

open Rtl (identifiers collectIdentifiers inIdentifier)

/-- Reads a text that holds one expression and nothing else. -/
def readExpr (text : String) : Option Expr :=
  match expression (3 * (tokens text).length + 3) (tokens text) with
  | some (e, []) => some e
  | _ => none

/-- The width of an expression over whole nets; both operands of an operator have one width. -/
def Expr.width? (nets : String → Option Nat) : Expr → Option Nat
  | .net x => nets x
  | .bit .. | .range .. | .slice .. => none
  | .literal width _ => some width
  | .not a => a.width? nets
  | .reduceXor a | .reduceOr a => (a.width? nets).map fun _ => 1
  | .equal a b => do
    let n ← a.width? nets
    if b.width? nets = some n then some 1 else none
  | .and a b | .xor a b => do
    let n ← a.width? nets
    if b.width? nets = some n then some n else none
  | .concat a b => do some ((← a.width? nets) + (← b.width? nets))

theorem width?_and {nets : String → Option Nat} {a b : Expr} {n : Nat} (ha : a.width? nets = some n)
    (hb : b.width? nets = some n) : (Expr.and a b).width? nets = some n := by
  rw [Expr.width?, ha, Option.bind_eq_bind, Option.bind_some, if_pos hb]

/-! ### Identifiers -/

section identifier

variable {x : String}

theorem exists_cons_of_isIdentifier (h : isIdentifier x = true) :
    ∃ c cs, x.toList = c :: cs ∧ Rtl.startsIdentifier c = true ∧ cs.all inIdentifier = true := by
  rw [isIdentifier] at h
  cases hx : x.toList with
  | nil => simp [hx] at h
  | cons c cs =>
    simp only [hx, Bool.and_eq_true] at h
    exact ⟨c, cs, rfl, h⟩

theorem tokens_word_end {cs : List Char} (h : cs.all inIdentifier = true) (reversed : List Char) :
    (Scan.word reversed).tokens cs = [.word (String.ofList (reversed.reverse ++ cs))] := by
  induction cs generalizing reversed with
  | nil => rw [List.append_nil, Scan.tokens, Scan.finish]
  | cons d cs ih =>
    rw [List.all_cons, Bool.and_eq_true] at h
    rw [Scan.tokens, Scan.next, if_pos h.1]
    show (Scan.word (d :: reversed)).tokens cs = _
    rw [ih h.2, List.reverse_cons, List.append_assoc]
    rfl

theorem tokens_of_isIdentifier (h : isIdentifier x = true) : tokens x = [.word x] := by
  obtain ⟨c, cs, hx, hc, hcs⟩ := exists_cons_of_isIdentifier h
  rw [tokens, hx, Scan.tokens, Scan.next, Scan.start, if_pos hc]
  show (Scan.word [c]).tokens cs = _
  rw [tokens_word_end hcs, List.reverse_singleton, List.singleton_append, ← hx, String.ofList_toList]

theorem readExpr_of_isIdentifier (h : isIdentifier x = true) : readExpr x = some (.net x) := by
  rw [readExpr, tokens_of_isIdentifier h]
  rfl

theorem collectIdentifiers_word {cs : List Char} (h : cs.all inIdentifier = true)
    {reversed : List Char} (hne : reversed ≠ []) :
    collectIdentifiers reversed cs = [String.ofList (reversed.reverse ++ cs)] := by
  induction cs generalizing reversed with
  | nil => rw [collectIdentifiers, if_neg hne, List.append_nil]
  | cons d cs ih =>
    rw [List.all_cons, Bool.and_eq_true] at h
    rw [collectIdentifiers, if_neg hne, if_pos h.1, ih h.2 (List.cons_ne_nil _ _),
      List.reverse_cons, List.append_assoc]
    rfl

theorem identifiers_of_isIdentifier (h : isIdentifier x = true) : identifiers x = [x] := by
  obtain ⟨c, cs, hx, hc, hcs⟩ := exists_cons_of_isIdentifier h
  rw [identifiers, hx, collectIdentifiers, if_pos rfl, if_pos hc,
    collectIdentifiers_word hcs (List.cons_ne_nil _ _), List.reverse_singleton,
    List.singleton_append, ← hx, String.ofList_toList]

end identifier

end MemoryCompiler.Verilog
