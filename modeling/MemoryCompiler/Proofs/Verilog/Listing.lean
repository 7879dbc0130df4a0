import MemoryCompiler.Proofs.Verilog.Reading
import MemoryCompiler.Proofs.Verilog.Structural

/-!
# Lists and bodies of structural text

Text is taken line by line, each line with the line end in front of it (`lead`). Entries that can be read
one by one are read as a list when all but the last are followed by a comma (`entries_commaLines`), and
items that can be read one by one make up the body of a module (`HoldsItems.append`, `HoldsItems.body_eq`).
-/

namespace MemoryCompiler.Verilog.Structural

open Rtl (commaLines joinLines commaLines_cons_cons commaLines_singleton)

/-- The text of lines that stand behind another line. -/
def lead (ls : List String) : List Char := ls.flatMap fun l => '\n' :: l.toList

theorem lead_cons (l : String) (ls : List String) : lead (l :: ls) = '\n' :: (l.toList ++ lead ls) := rfl

theorem lead_append (ls ms : List String) : lead (ls ++ ms) = lead ls ++ lead ms := List.flatMap_append

theorem length_le_length_lead (ls : List String) : ls.length ≤ (lead ls).length := by
  induction ls with
  | nil => exact Nat.le_refl 0
  | cons l ls ih =>
    rw [lead_cons, List.length_cons, List.length_cons, List.length_append]
    omega

theorem toList_joinLines (l : String) (ls : List String) :
    (joinLines (l :: ls)).toList = l.toList ++ lead ls := by
  induction ls generalizing l with
  | nil => simp [joinLines, lead]
  | cons m ls ih =>
    have hnext : joinLines (l :: m :: ls) = l ++ "\n" ++ joinLines (m :: ls) := String.intercalate_cons_cons
    rw [hnext, String.toList_append, String.toList_append, ih, lead_cons, List.append_assoc]
    rfl

/-! ### Lists -/

section lists

variable {α β : Type} {one : Reader α} {print : β → String} {value : β → α} {xs : List β}
  {rest rest' : List Char}

/-- The rest of a text begins with a comma or a line end. -/
def Ends (rest : List Char) : Prop := ∃ c cs, rest = c :: cs ∧ (c = ',' ∨ c = '\n')

/-- A line is read as an entry of a list. -/
def Holds (one : Reader α) (s : String) (a : α) : Prop :=
  ∀ rest, Ends rest → one ('\n' :: (s.toList ++ rest)) = some (a, rest)

theorem Ends.head (h : Ends rest) {p : Char → Bool} (hcomma : p ',' = false) (hline : p '\n' = false) :
    ∀ c ∈ rest.head?, p c = false := by
  obtain ⟨c, cs, rfl, rfl | rfl⟩ := h
  · exact head_eq_false hcomma
  · exact head_eq_false hline

/-- Entries that can be read one by one are a list, given as many units of fuel. -/
theorem entries_commaLines (h : ∀ x ∈ xs, Holds one (print x) (value x)) (hne : xs ≠ []) {fuel : Nat}
    (hfuel : xs.length ≤ fuel) (hend : Ends rest) (hcomma : symbol ',' rest = none)
    (hclose : symbol ')' rest = some rest') :
    entries one fuel (lead (commaLines (xs.map print)) ++ rest) = some (xs.map value, rest') := by
  induction xs generalizing fuel with
  | nil => exact absurd rfl hne
  | cons x xs ih =>
    obtain ⟨fuel, rfl⟩ := Nat.exists_eq_succ_of_ne_zero
      (show fuel ≠ 0 by rw [List.length_cons] at hfuel; omega)
    have hfirst := h x List.mem_cons_self
    cases xs with
    | nil =>
      have htext : lead (commaLines ([x].map print)) ++ rest = '\n' :: ((print x).toList ++ rest) := by
        rw [List.map_singleton, commaLines_singleton, lead_cons, List.cons_append, List.append_assoc]
        rfl
      rw [htext, entries, hfirst rest hend]
      simp only [Option.bind_eq_bind, Option.bind_some, hcomma, hclose]
      rfl
    | cons y xs =>
      have htext : lead (commaLines ((x :: y :: xs).map print)) ++ rest =
          '\n' :: ((print x).toList ++ ',' :: (lead (commaLines ((y :: xs).map print)) ++ rest)) := by
        rw [List.map_cons, List.map_cons, commaLines_cons_cons, lead_cons, String.toList_append,
          List.cons_append, List.append_assoc, List.append_assoc]
        rfl
      have hrest := ih (fun z hz => h z (List.mem_cons_of_mem x hz)) (List.cons_ne_nil y xs)
        (Nat.le_of_succ_le_succ hfuel)
      rw [htext, entries, hfirst _ ⟨',', _, rfl, .inl rfl⟩]
      simp only [Option.bind_eq_bind, Option.bind_some, symbol_cons (c := ',') rfl, hrest]
      rfl

theorem exists_of_entries {fuel : Nat} {cs : List Char} {r : List α × List Char}
    (h : entries one fuel cs = some r) : ∃ p, one cs = some p := by
  cases fuel with
  | zero => cases h
  | succ fuel =>
    obtain ⟨p, hp, -⟩ := Option.bind_eq_some_iff.1 h
    exact ⟨p, hp⟩

theorem length_le_length_commaLines (print : β → String) (xs : List β) (rest : List Char) :
    xs.length ≤ (lead (commaLines (xs.map print)) ++ rest).length := by
  have hlines := length_le_length_lead (commaLines (xs.map print))
  have hlength : (commaLines (xs.map print)).length = xs.length := by
    rw [commaLines, List.length_mapIdx, List.length_map]
  rw [List.length_append]
  omega

theorem list_commaLines (hone : ∀ {cs p}, one cs = some p → symbol ')' cs = none)
    (h : ∀ x ∈ xs, Holds one (print x) (value x)) (hend : Ends rest) (hcomma : symbol ',' rest = none)
    (hclose : symbol ')' rest = some rest') {bs : List Char} (hbs : Blank bs) :
    list one (bs ++ '(' :: (lead (commaLines (xs.map print)) ++ rest)) = some (xs.map value, rest') := by
  rw [list, symbol_append hbs rfl]
  simp only [Option.bind_eq_bind, Option.bind_some]
  by_cases hxs : xs = []
  · subst hxs
    have hempty : lead (commaLines (([] : List β).map print)) ++ rest = rest := rfl
    rw [hempty, hclose]
    rfl
  · have hentries := entries_commaLines h hxs (length_le_length_commaLines print xs rest) hend hcomma hclose
    obtain ⟨p, hp⟩ := exists_of_entries hentries
    rw [hone hp]
    exact hentries

theorem optionalList_none {bs : List Char} (hbs : Blank bs) {c : Char} (hc : opens c = true) (hne : c ≠ '#')
    (cs : List Char) : optionalList one (bs ++ c :: cs) = some ([], bs ++ c :: cs) := by
  rw [optionalList, symbol_append_ne hbs hc hne]

theorem optionalList_commaLines (h : ∀ x ∈ xs, Holds one (print x) (value x)) (hne : xs ≠ [])
    (hend : Ends rest) (hcomma : symbol ',' rest = none) (hclose : symbol ')' rest = some rest')
    {bs : List Char} (hbs : Blank bs) :
    optionalList one (bs ++ '#' :: '(' :: (lead (commaLines (xs.map print)) ++ rest)) =
      some (xs.map value, rest') := by
  rw [optionalList, symbol_append hbs rfl]
  simp only [Option.bind_eq_bind, symbol_cons (c := '(') rfl, Option.bind_some]
  exact entries_commaLines h hne (length_le_length_commaLines print xs rest) hend hcomma hclose

end lists

/-! ### Bodies -/

section bodies

variable {ls ms : List String} {as bs : List Item} {a : Item}

/-- Lines are read as some items in front of a body that can be read. -/
def HoldsItems (ls : List String) (as : List Item) : Prop :=
  as.length ≤ (lead ls).length ∧ ∀ {fuel : Nat} {cs rest : List Char} {bs : List Item},
    body fuel cs = some (bs, rest) → body (as.length + fuel) (lead ls ++ cs) = some (as ++ bs, rest)

theorem holdsItems_nil : HoldsItems [] [] :=
  ⟨Nat.le_refl 0, fun {fuel} _ _ _ h => by
    rw [List.length_nil, Nat.zero_add]
    exact h⟩

theorem HoldsItems.append (h : HoldsItems ls as) (h' : HoldsItems ms bs) :
    HoldsItems (ls ++ ms) (as ++ bs) := by
  refine ⟨?_, fun {fuel} _ _ _ hrest => ?_⟩
  · rw [lead_append, List.length_append, List.length_append]
    exact Nat.add_le_add h.1 h'.1
  · rw [lead_append, List.length_append, List.append_assoc, List.append_assoc, Nat.add_assoc]
    exact h.2 (h'.2 hrest)

theorem item_congr {cs ds : List Char} (h : skip cs = skip ds) : item cs = item ds := by
  rw [item, item, word_congr h]

theorem body_congr {cs ds : List Char} (h : skip cs = skip ds) (fuel : Nat) : body fuel cs = body fuel ds := by
  cases fuel with
  | zero => rfl
  | succ fuel => rw [body, body, item_congr h, keyword_congr h]

theorem holdsItems_blank : HoldsItems [""] [] :=
  ⟨Nat.zero_le _, fun {fuel cs _ _} h => by
    rw [List.length_nil, Nat.zero_add]
    have hskip : skip ('\n' :: cs) = skip cs := rfl
    exact (body_congr hskip fuel).trans h⟩

theorem keyword_endmodule_of_item {cs : List Char} {p : Item × List Char} (h : item cs = some p) :
    keyword "endmodule" cs = none := by
  obtain ⟨⟨w, rest⟩, hw, hitem⟩ := Option.bind_eq_some_iff.1 h
  rw [keyword, hw]
  refine if_neg ?_
  rintro rfl
  have hnone : (if reserved.contains "endmodule" then none else submodule "endmodule" rest) = some p := hitem
  rw [if_pos (by decide)] at hnone
  cases hnone

theorem holdsItems_singleton (hne : ls ≠ []) (h : ∀ cs, item (lead ls ++ cs) = some (a, cs)) :
    HoldsItems ls [a] := by
  refine ⟨(List.length_pos_iff.2 hne).trans_le (length_le_length_lead ls), fun {fuel cs rest bs} hrest => ?_⟩
  rw [List.length_singleton, Nat.add_comm 1 fuel, body, keyword_endmodule_of_item (h cs)]
  simp only [Option.bind_eq_bind, h cs, Option.bind_some, hrest]
  rfl

theorem holdsItems_map {β : Type} {xs : List β} {print : β → String} {value : β → Item}
    (h : ∀ x ∈ xs, ∀ cs, item ('\n' :: ((print x).toList ++ cs)) = some (value x, cs)) :
    HoldsItems (xs.map print) (xs.map value) := by
  induction xs with
  | nil => exact holdsItems_nil
  | cons x xs ih =>
    have hfirst : HoldsItems [print x] [value x] := holdsItems_singleton (List.cons_ne_nil _ _) fun cs => by
      have hx := h x List.mem_cons_self cs
      rwa [lead_cons, List.cons_append, List.append_assoc]
    exact hfirst.append (ih fun y hy => h y (List.mem_cons_of_mem x hy))

theorem holdsItems_intercalate {β : Type} {xs : List β} {print : β → List String} {value : β → Item}
    (h : ∀ x ∈ xs, HoldsItems (print x) [value x]) :
    HoldsItems (List.intercalate [""] (xs.map print)) (xs.map value) := by
  induction xs with
  | nil => exact holdsItems_nil
  | cons x xs ih =>
    have hfirst := h x List.mem_cons_self
    have hrest := ih fun y hy => h y (List.mem_cons_of_mem x hy)
    cases xs with
    | nil =>
      rw [List.map_singleton, List.intercalate_singleton]
      exact hfirst
    | cons y xs =>
      rw [List.map_cons, List.map_cons, List.intercalate_cons_cons]
      exact (hfirst.append holdsItems_blank).append hrest

theorem HoldsItems.body_eq (h : HoldsItems ls as) {cs rest : List Char}
    (hend : keyword "endmodule" cs = some rest) (hne : cs ≠ []) :
    body (lead ls ++ cs).length (lead ls ++ cs) = some (as, rest) := by
  have hlen : (lead ls ++ cs).length = as.length + ((lead ls).length - as.length + (cs.length - 1) + 1) := by
    have hle := h.1
    have hpos := List.length_pos_iff.2 hne
    rw [List.length_append]
    omega
  have hlast : body ((lead ls).length - as.length + (cs.length - 1) + 1) cs = some ([], rest) := by
    rw [body, hend]
  rw [hlen, h.2 hlast, List.append_nil]

end bodies

end MemoryCompiler.Verilog.Structural
