import Mathlib.Tactic
import MemoryCompiler.Rtl.Equation

/-!
# Wrapped equations

Cutting a list into runs loses nothing (`flatten_runsOf`). The lines of an equation are its runs of
terms, each closed by the operator that opens the next line and the last one by a semicolon
(`lines_of_runs`).
-/

namespace MemoryCompiler.Rtl

section runs

variable {α β : Type} {n : Nat}

theorem runsOf_nil (hn : 0 < n) : runsOf n ([] : List α) = [] := by
  have hzero : (([] : List α).length + (n - 1)) / n = 0 := Nat.div_eq_of_lt (by simp; omega)
  rw [runsOf, hzero]
  rfl

theorem runsOf_of_ne_nil (hn : 0 < n) {xs : List α} (h : xs ≠ []) :
    runsOf n xs = xs.take n :: runsOf n (xs.drop n) := by
  have hlen : 0 < xs.length := List.length_pos_of_ne_nil h
  have hcount : (xs.length + (n - 1)) / n = ((xs.drop n).length + (n - 1)) / n + 1 := by
    rw [← Nat.add_div_right _ hn, List.length_drop]
    by_cases hle : n ≤ xs.length
    · congr 1
      omega
    · -- the last run is not full: on both sides the quotient is one
      have hleft : (xs.length + (n - 1)) / n = 1 :=
        Nat.div_eq_of_lt_le (by omega) (by omega)
      have hright : (xs.length - n + (n - 1) + n) / n = 1 :=
        Nat.div_eq_of_lt_le (by omega) (by omega)
      rw [hleft, hright]
  rw [runsOf, hcount, List.range_succ_eq_map, List.map_cons, List.map_map, Nat.mul_zero,
    List.drop_zero, runsOf]
  congr 1
  apply List.map_congr_left
  intro k _
  simp only [Function.comp_apply, List.drop_drop, Nat.mul_succ, Nat.add_comm]

theorem runsOf_induction (hn : 0 < n) {P : List α → Prop} (nil : P [])
    (cons : ∀ xs, xs ≠ [] → P (xs.drop n) → P xs) (xs : List α) : P xs := by
  induction hm : xs.length using Nat.strong_induction_on generalizing xs with
  | _ m ih =>
    by_cases h : xs = []
    · rw [h]
      exact nil
    · have hlen : 0 < xs.length := List.length_pos_of_ne_nil h
      refine cons xs h (ih (xs.drop n).length ?_ _ rfl)
      rw [List.length_drop]
      omega

theorem flatten_runsOf (hn : 0 < n) (xs : List α) : (runsOf n xs).flatten = xs := by
  induction xs using runsOf_induction hn with
  | nil => rw [runsOf_nil hn, List.flatten_nil]
  | cons xs h ih => rw [runsOf_of_ne_nil hn h, List.flatten_cons, ih, List.take_append_drop]

theorem ne_nil_of_mem_runsOf (hn : 0 < n) {xs run : List α} (h : run ∈ runsOf n xs) : run ≠ [] := by
  induction xs using runsOf_induction hn with
  | nil =>
    rw [runsOf_nil hn] at h
    exact absurd h List.not_mem_nil
  | cons xs hne ih =>
    rw [runsOf_of_ne_nil hn hne, List.mem_cons] at h
    rcases h with rfl | h
    · rw [ne_eq, List.take_eq_nil_iff, not_or]
      exact ⟨Nat.pos_iff_ne_zero.1 hn, hne⟩
    · exact ih h

theorem runsOf_map (f : α → β) (xs : List α) :
    runsOf n (xs.map f) = (runsOf n xs).map (List.map f) := by
  rw [runsOf, runsOf, List.length_map, List.map_map]
  apply List.map_congr_left
  intro k _
  rw [Function.comp_apply, ← List.map_drop, ← List.map_take]

end runs

namespace Equation

/-- The end of a line, before the runs that follow. -/
def closing (rest : List (List String)) : String := if rest = [] then ";" else ""

/-- The lines that go on. -/
def continuedLines (e : Equation) : List (List String) → List String
  | [] => []
  | run :: rest => (e.continuation ++ termText run ++ closing rest) :: e.continuedLines rest

theorem closing_nil : closing [] = ";" := rfl

theorem closing_of_ne_nil {rest : List (List String)} (h : rest ≠ []) : closing rest = "" :=
  if_neg h

theorem ite_closing (run : List String) (rest : List (List String)) :
    (if 0 + 1 = (run :: rest).length then ";" else "") = closing rest := by
  cases rest with
  | nil => rfl
  | cons next rest => rw [closing_of_ne_nil (List.cons_ne_nil next rest), if_neg (by simp)]

theorem mapIdx_eq_continuedLines (e : Equation) (runs : List (List String)) :
    (runs.mapIdx fun k run => e.continuation ++ termText run
      ++ (if k + 1 = runs.length then ";" else "")) = e.continuedLines runs := by
  induction runs with
  | nil => rfl
  | cons run rest ih =>
    rw [List.mapIdx_cons, ite_closing, continuedLines, ← ih]
    simp only [List.length_cons, Nat.add_right_cancel_iff]

theorem lines_of_runs {e : Equation} {run : List String} {rest : List (List String)}
    (h : runsOf termsPerLine e.terms = run :: rest) :
    e.lines = (e.lead ++ termText run ++ closing rest) :: e.continuedLines rest := by
  simp only [lines, h]
  rw [List.mapIdx_cons, ite_closing, if_pos rfl, ← mapIdx_eq_continuedLines]
  simp only [List.length_cons, Nat.add_right_cancel_iff, Nat.succ_ne_zero, if_false]

end Equation

end MemoryCompiler.Rtl
