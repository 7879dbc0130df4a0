import MemoryCompiler.Proofs.Verilog.Reading

/-!
# Reading the body of a module

`HoldsItems s as` says that the text `s` adds the items `as` to the body that goes on behind it. Pieces
of a body follow each other (`HoldsItems.append`), and a wrapped equation of single bits is one
assignment of their sum (`holdsItems_equation`).
-/

namespace MemoryCompiler.Verilog

open Rtl (Equation)

/-! ### Items behind each other -/

/-- The tokens `ts` are read as the items `as` in front of a body that can be read. -/
def ParsesItems (ts : List Token) (as : List Item) : Prop :=
  as.length ≤ ts.length ∧ ∀ {fuel : Nat} {us rest : List Token} {bs : List Item},
    items fuel us = some (bs, rest) → items (as.length + fuel) (ts ++ us) = some (as ++ bs, rest)

theorem parsesItems_nil : ParsesItems [] [] :=
  ⟨le_refl 0, fun {fuel} _ _ _ h => by
    rw [List.length_nil, Nat.zero_add]
    exact h⟩

theorem ParsesItems.append {ts us : List Token} {as bs : List Item} (h : ParsesItems ts as)
    (h' : ParsesItems us bs) : ParsesItems (ts ++ us) (as ++ bs) := by
  refine ⟨?_, fun {fuel} _ _ _ hrest => ?_⟩
  · rw [List.length_append, List.length_append]
    exact Nat.add_le_add h.1 h'.1
  · rw [List.length_append, List.append_assoc, List.append_assoc, Nat.add_assoc]
    exact h.2 (h'.2 hrest)

theorem keyword_endmodule_of_item {ts rest : List Token} {a : Item} (h : item ts = some (a, rest)) :
    keyword "endmodule" ts = none := by
  cases ts with
  | nil => rfl
  | cons t ts =>
    cases t with
    | word x =>
      rw [keyword]
      split_ifs with hx
      · subst hx
        exact absurd h (by simp [item])
      · rfl
    | number n => rfl
    | sized width value => rfl
    | symbol c => rfl

theorem parsesItems_singleton {ts : List Token} {a : Item} (hlen : 1 ≤ ts.length)
    (h : ∀ us, item (ts ++ us) = some (a, us)) : ParsesItems ts [a] := by
  refine ⟨hlen, fun {fuel us rest bs} hrest => ?_⟩
  rw [List.length_singleton, Nat.add_comm 1 fuel, items, keyword_endmodule_of_item (h us), h us]
  show ((items fuel us).bind fun p => some (a :: p.1, p.2)) = _
  rw [hrest]
  rfl

theorem ParsesItems.items_eq {ts : List Token} {as : List Item} (h : ParsesItems ts as)
    (rest : List Token) :
    items (ts ++ .word "endmodule" :: rest).length (ts ++ .word "endmodule" :: rest) =
      some (as, rest) := by
  have hlen : (ts ++ .word "endmodule" :: rest).length =
      as.length + ((ts.length - as.length) + rest.length + 1) := by
    have := h.1
    rw [List.length_append, List.length_cons]
    omega
  have hend : items ((ts.length - as.length) + rest.length + 1) (.word "endmodule" :: rest) =
      some ([], rest) := rfl
  rw [hlen, h.2 hend, List.append_nil]

/-! ### Text of items -/

/-- The text `s` holds the items `as`. -/
def HoldsItems (s : String) (as : List Item) : Prop := ∃ ts, Reads s ts ∧ ParsesItems ts as

theorem HoldsItems.append {s t : String} {as bs : List Item} (h : HoldsItems s as)
    (h' : HoldsItems t bs) : HoldsItems (s ++ t) (as ++ bs) := by
  obtain ⟨ts, hread, hparse⟩ := h
  obtain ⟨us, hread', hparse'⟩ := h'
  exact ⟨ts ++ us, hread.append hread', hparse.append hparse'⟩

theorem HoldsItems.unlines_append {ls ms : List String} {as bs : List Item}
    (h : HoldsItems (unlines ls) as) (h' : HoldsItems (unlines ms) bs) :
    HoldsItems (unlines (ls ++ ms)) (as ++ bs) := by
  rw [Verilog.unlines_append]
  exact h.append h'

theorem holdsItems_nil : HoldsItems (unlines []) [] := ⟨[], reads_unlines_nil, parsesItems_nil⟩

theorem HoldsItems.unlines_cons {l : String} {ls : List String} {as bs : List Item}
    (h : HoldsItems (l ++ "\n") as) (h' : HoldsItems (unlines ls) bs) :
    HoldsItems (unlines (l :: ls)) (as ++ bs) := by
  rw [Verilog.unlines_cons]
  exact h.append h'

theorem holdsItems_blank : HoldsItems ("" ++ "\n") [] := ⟨[], reads_lineEnd, parsesItems_nil⟩

theorem holdsItems_mapIdx {α β : Type} {xs : List α} {make : Nat → α → β} {lines : β → List String}
    {one : Nat → α → Item}
    (h : ∀ i a, xs[i]? = some a → HoldsItems (unlines (lines (make i a))) [one i a]) :
    HoldsItems (unlines ((xs.mapIdx make).flatMap lines)) (xs.mapIdx one) := by
  induction xs generalizing make one with
  | nil => exact holdsItems_nil
  | cons a xs ih =>
    rw [List.mapIdx_cons, List.flatMap_cons, List.mapIdx_cons]
    have hfirst := h 0 a rfl
    have hrest : HoldsItems (unlines ((xs.mapIdx fun i => make (i + 1)).flatMap lines))
        (xs.mapIdx fun i => one (i + 1)) :=
      ih fun i b hb => h (i + 1) b (by rw [List.getElem?_cons_succ]; exact hb)
    exact hfirst.unlines_append hrest

/-! ### Sums of single bits -/

def bitExpr (b : String × Nat) : Expr := .bit b.1 (.literal b.2)

/-- Reads a sum term by term; each of them takes one unit of fuel. -/
theorem terms_bits (bits : List (String × Nat)) (e : Expr) (us : List Token) {fuel : Nat}
    (h : bits.length + 3 ≤ fuel) :
    terms fuel e (bits.flatMap (fun b => .symbol '^' :: bitTokens b) ++ .symbol ';' :: us) =
      some ((bits.map bitExpr).foldl .xor e, .symbol ';' :: us) := by
  induction bits generalizing e fuel with
  | nil =>
    obtain ⟨k, rfl⟩ := Nat.exists_eq_add_of_le' h
    rfl
  | cons b bits ih =>
    obtain ⟨k, rfl⟩ := Nat.exists_eq_add_of_le' h
    have hk : bits.length + 3 ≤ k + bits.length + 3 := by omega
    have hfirst : terms (k + ((b :: bits).length + 3)) e
          ((b :: bits).flatMap (fun b => .symbol '^' :: bitTokens b) ++ .symbol ';' :: us) =
        terms (k + bits.length + 3) (.xor e (bitExpr b))
          (bits.flatMap (fun b => .symbol '^' :: bitTokens b) ++ .symbol ';' :: us) := by
      cases bits <;> rfl
    rw [hfirst, ih _ hk, List.map_cons, List.foldl_cons]

theorem length_sumTokens (b : String × Nat) (bits : List (String × Nat)) :
    (sumTokens (b :: bits)).length = 5 * bits.length + 4 := by
  induction bits with
  | nil => rfl
  | cons c bits ih =>
    simp only [sumTokens, bitTokens, List.flatMap_cons, List.length_append, List.length_cons,
      List.length_nil] at ih ⊢
    omega

theorem expression_bits {bits : List (String × Nat)} (hne : bits ≠ []) (us : List Token) :
    expression (3 * (sumTokens bits ++ .symbol ';' :: us).length + 3)
        (sumTokens bits ++ .symbol ';' :: us) =
      some (sumOf (bits.map bitExpr), .symbol ';' :: us) := by
  cases bits with
  | nil => exact absurd rfl hne
  | cons b bits =>
    have hlen := length_sumTokens b bits
    obtain ⟨k, hk⟩ : ∃ k, 3 * (sumTokens (b :: bits) ++ .symbol ';' :: us).length + 3 =
        k + bits.length + 4 := ⟨14 * bits.length + 3 * us.length + 14, by
      rw [List.length_append, List.length_cons, hlen]
      omega⟩
    have hfirst : expression (k + bits.length + 4) (sumTokens (b :: bits) ++ .symbol ';' :: us) =
        terms (k + bits.length + 3) (bitExpr b)
          (bits.flatMap (fun b => .symbol '^' :: bitTokens b) ++ .symbol ';' :: us) := by
      cases bits <;> rfl
    rw [hk, hfirst, terms_bits bits (bitExpr b) us (by omega)]
    rfl

theorem item_sum {target : String × Nat} {bits : List (String × Nat)} (hne : bits ≠ [])
    (us : List Token) :
    item (sumAssignTokens target bits ++ us) =
      some (.assign target.1 (some (.literal target.2)) (sumOf (bits.map bitExpr)), us) := by
  have happend : sumAssignTokens target bits ++ us =
      .word "assign" :: .word target.1 :: .symbol '[' :: .number target.2 :: .symbol ']' ::
        .symbol '=' :: (sumTokens bits ++ .symbol ';' :: us) := by
    simp only [sumAssignTokens, bitTokens, List.cons_append, List.nil_append, List.append_assoc]
  rw [happend]
  show ((expression _ (sumTokens bits ++ .symbol ';' :: us)).bind fun p => (expect ';' p.2).bind
    fun ts => some (Item.assign target.1 (some (.literal target.2)) p.1, ts)) = _
  rw [expression_bits hne]
  rfl

/-- **A wrapped equation is one assignment**, of the sum of its terms. -/
theorem holdsItems_equation (target : String × Nat) {bits : List (String × Nat)}
    (htarget : isIdentifier target.1 = true) (hne : bits ≠ [])
    (hbits : ∀ b ∈ bits, isIdentifier b.1 = true) :
    HoldsItems (unlines (Equation.lines ⟨bitText target, bits.map bitText⟩))
      [.assign target.1 (some (.literal target.2)) (sumOf (bits.map bitExpr))] := by
  refine ⟨_, reads_equation htarget hne hbits, parsesItems_singleton ?_ (item_sum hne)⟩
  show 1 ≤ _ + 1
  omega

end MemoryCompiler.Verilog
