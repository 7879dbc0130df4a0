import MemoryCompiler.Proofs.Diagram.LayoutAnswers
import MemoryCompiler.Proofs.Text.AlphabeticalOrder

/-!
# The hinted order of the boxes

The layouter is asked for the boxes by the place of their category in the rules and, within a category, by
their identifiers. Rank and keys together form a linear order in which no two boxes are level, so the request
is the one arrangement of the boxes in this order (`boxes_canonical`) and does not depend on the order of the
graph. A box without a category counts as one of the empty category, so it comes last unless the rules list
the empty category (`box_without_category_first`).
-/

namespace MemoryCompiler.Diagram

open Text (IsIdentifier Alphabetical sortKey)

/-! ### The order in words -/

/-- The last place of a category in an order; a box without one counts as of the empty category. -/
structure LastPlace (order : List String) (category : Option String) (i : Nat) : Prop where
  listed : order[i]? = some (category.getD "")
  last : ∀ j, i < j → order[j]? ≠ some (category.getD "")

/-- One box comes before another one: its category stands before that of the other one or is the only one of
the two that is listed, or both categories have the same place or none and the identifiers decide. -/
inductive Precedes (order : List String) (a b : Node) : Prop
  | category {i : Nat} (hplace : LastPlace order a.category i)
      (hbefore : ∀ j, LastPlace order b.category j → i < j)
  | identifier (hlevel : ∀ i, LastPlace order a.category i ↔ LastPlace order b.category i)
      (hids : Alphabetical a.id b.id)

section place

variable {order : List String} {category : Option String} {i j : Nat}

theorem LastPlace.lt_length (h : LastPlace order category i) : i < order.length :=
  (List.getElem?_eq_some_iff.1 h.listed).1

theorem LastPlace.unique (hi : LastPlace order category i)
    (hj : LastPlace order category j) : i = j := by
  rcases Nat.lt_trichotomy i j with h | h | h
  · exact absurd hj.listed (hi.last j h)
  · exact h
  · exact absurd hi.listed (hj.last i h)

theorem lastPlace_of_idxOf?_reverse (h : order.reverse.idxOf? (category.getD "") = some i) :
    LastPlace order category (order.length - 1 - i) := by
  obtain ⟨hlt, hlisted, hfirst⟩ := List.idxOf?_eq_some_iff.1 h
  rw [List.length_reverse] at hlt
  refine ⟨?_, fun j hj hlater => ?_⟩
  · rw [← List.getElem?_reverse hlt]
    exact List.getElem?_eq_some_iff.2 ⟨by rwa [List.length_reverse], hlisted⟩
  · have hjlt := (List.getElem?_eq_some_iff.1 hlater).1
    have hback : order.length - 1 - (order.length - 1 - j) = j := by omega
    have hreversed : order.reverse[order.length - 1 - j]? = some (category.getD "") := by
      rw [List.getElem?_reverse (by omega), hback, hlater]
    exact hfirst _ (by omega) (List.getElem?_eq_some_iff.1 hreversed).2

end place

namespace PlacementRules

variable {r : PlacementRules} {category category' : Option String} {i : Nat} {a b : Node}

/-! ### Ranks -/

theorem rank_cases (r : PlacementRules) (category : Option String) :
    LastPlace r.categoryOrder category (r.rank category) ∨
      r.rank category = r.categoryOrder.length + 1 ∧ ∀ i, ¬ LastPlace r.categoryOrder category i := by
  unfold rank
  cases h : r.categoryOrder.reverse.idxOf? (category.getD "") with
  | some i => exact .inl (lastPlace_of_idxOf?_reverse h)
  | none =>
    have hnone : category.getD "" ∉ r.categoryOrder := by simpa using h
    exact .inr ⟨rfl, fun i hi => hnone (List.mem_of_getElem? hi.listed)⟩

theorem rank_of_lastPlace (h : LastPlace r.categoryOrder category i) : r.rank category = i := by
  obtain hplace | ⟨-, hnone⟩ := rank_cases r category
  · exact hplace.unique h
  · exact absurd h (hnone i)

theorem rank_lt_iff : r.rank category < r.rank category' ↔
    ∃ i, LastPlace r.categoryOrder category i ∧ ∀ j, LastPlace r.categoryOrder category' j → i < j := by
  constructor
  · intro hlt
    obtain hplace | ⟨hrank, -⟩ := rank_cases r category
    · exact ⟨_, hplace, fun j hj => by rwa [rank_of_lastPlace hj] at hlt⟩
    · obtain hplace' | ⟨hrank', -⟩ := rank_cases r category'
      · have := hplace'.lt_length
        omega
      · omega
  · rintro ⟨i, hplace, hbefore⟩
    rw [rank_of_lastPlace hplace]
    obtain hplace' | ⟨hrank', -⟩ := rank_cases r category'
    · exact hbefore _ hplace'
    · have := hplace.lt_length
      omega

theorem lastPlace_of_rank_eq (h : r.rank category = r.rank category')
    (hplace : LastPlace r.categoryOrder category i) : LastPlace r.categoryOrder category' i := by
  rw [rank_of_lastPlace hplace] at h
  obtain hplace' | ⟨hrank', -⟩ := rank_cases r category'
  · rwa [h]
  · have := hplace.lt_length
    omega

theorem rank_eq_iff : r.rank category = r.rank category' ↔
    ∀ i, LastPlace r.categoryOrder category i ↔ LastPlace r.categoryOrder category' i := by
  constructor
  · exact fun h i => ⟨lastPlace_of_rank_eq h, lastPlace_of_rank_eq h.symm⟩
  · intro h
    obtain hplace | ⟨hrank, hnone⟩ := rank_cases r category
    · exact (rank_of_lastPlace ((h _).1 hplace)).symm
    · obtain hplace' | ⟨hrank', -⟩ := rank_cases r category'
      · exact absurd ((h _).2 hplace') (hnone _)
      · rw [hrank, hrank']

/-! ### The order of two boxes -/

/-- What a box is put in order by. -/
def nodeKey (r : PlacementRules) (n : Node) : ℕ ×ₗ (List ℕ ×ₗ List ℕ) := toLex (r.rank n.category, sortKey n.id)

theorem before_iff_nodeKey : r.before a b = true ↔ r.nodeKey a < r.nodeKey b := by
  rw [nodeKey, nodeKey, Prod.Lex.toLex_lt_toLex, before]
  split_ifs with h
  · simp [h]
  · simp [not_not.1 h, Text.comesBefore_iff_sortKey]

theorem not_before_iff_nodeKey : (!r.before b a) = true ↔ r.nodeKey a ≤ r.nodeKey b := by
  rw [Bool.not_eq_true', ← Bool.not_eq_true, before_iff_nodeKey, not_lt]

/-- The keys are in order exactly when the boxes are. -/
theorem nodeKey_lt_iff (ha : IsIdentifier a.id) (hb : IsIdentifier b.id) :
    r.nodeKey a < r.nodeKey b ↔ Precedes r.categoryOrder a b := by
  rw [nodeKey, nodeKey, Prod.Lex.toLex_lt_toLex, rank_lt_iff, rank_eq_iff, ← Text.comesBefore_iff_sortKey,
    Text.comesBefore_iff ha hb]
  constructor
  · rintro (⟨i, hplace, hbefore⟩ | ⟨hlevel, hids⟩)
    · exact .category hplace hbefore
    · exact .identifier hlevel hids
  · rintro (⟨hplace, hbefore⟩ | ⟨hlevel, hids⟩)
    · exact .inl ⟨_, hplace, hbefore⟩
    · exact .inr ⟨hlevel, hids⟩

/-! ### Sorting -/

theorem sorted_hintedOrder (r : PlacementRules) (nodes : List Node) :
    (r.hintedOrder nodes).Pairwise fun a b => r.nodeKey a ≤ r.nodeKey b := by
  have hsorted : (r.hintedOrder nodes).Pairwise fun a b => (!r.before b a) = true := by
    apply List.pairwise_mergeSort
    · intro a b c hab hbc
      rw [not_before_iff_nodeKey] at *
      exact hab.trans hbc
    · intro a b
      rw [Bool.or_eq_true, not_before_iff_nodeKey, not_before_iff_nodeKey]
      exact le_total _ _
  exact hsorted.imp not_before_iff_nodeKey.1

section distinct

variable {nodes nodes' : List Node} (hids : (nodes.map Node.id).Nodup) (hnames : ∀ n ∈ nodes, IsIdentifier n.id)

include hids hnames

theorem eq_of_nodeKey_eq (ha : a ∈ nodes) (hb : b ∈ nodes) (h : r.nodeKey a = r.nodeKey b) : a = b := by
  obtain ⟨-, hkeys⟩ := Prod.mk.inj (toLex.injective h)
  exact List.inj_on_of_nodup_map hids ha hb (Text.sortKey_injective (hnames a ha) (hnames b hb) hkeys)

theorem precedes_hintedOrder : (r.hintedOrder nodes).Pairwise (Precedes r.categoryOrder) := by
  have hperm := hintedOrder_perm r nodes
  have hnodup : (r.hintedOrder nodes).Nodup := (hperm.nodup_iff).2 (List.Nodup.of_map _ hids)
  have hboth := (sorted_hintedOrder r nodes).and hnodup
  refine hboth.imp_of_mem ?_
  rintro a b ha hb ⟨hle, hne⟩
  have hamem := hperm.mem_iff.1 ha
  have hbmem := hperm.mem_iff.1 hb
  rw [← nodeKey_lt_iff (hnames a hamem) (hnames b hbmem)]
  exact lt_of_le_of_ne hle fun h => hne (eq_of_nodeKey_eq hids hnames hamem hbmem h)

theorem hintedOrder_eq_of_perm (hperm : nodes'.Perm nodes) : r.hintedOrder nodes' = r.hintedOrder nodes := by
  have hboth := ((hintedOrder_perm r nodes').trans hperm).trans (hintedOrder_perm r nodes).symm
  refine List.Perm.eq_of_pairwise ?_ (sorted_hintedOrder r nodes') (sorted_hintedOrder r nodes) hboth
  intro a b ha hb hab hba
  have hamem := hperm.mem_iff.1 ((hintedOrder_perm r nodes').mem_iff.1 ha)
  have hbmem := (hintedOrder_perm r nodes).mem_iff.1 hb
  exact eq_of_nodeKey_eq hids hnames hamem hbmem (le_antisymm hab hba)

end distinct

/-- **The layouter is asked for the boxes in a canonical order.** The request is an arrangement of the boxes by
the place of their category and then by their identifiers, and the same for every order of the graph. -/
theorem boxes_canonical (r : PlacementRules) (g : Graph) (hids : (g.nodes.map Node.id).Nodup)
    (hnames : ∀ n ∈ g.nodes, IsIdentifier n.id) :
    (∃ nodes : List Node, nodes.Perm g.nodes ∧ nodes.Pairwise (Precedes r.categoryOrder) ∧
      (g.placementRequest r).boxes = nodes.map boxRequest) ∧
    ∀ h : Graph, h.nodes.Perm g.nodes → (h.placementRequest r).boxes = (g.placementRequest r).boxes := by
  constructor
  · exact ⟨r.hintedOrder g.nodes, hintedOrder_perm r g.nodes, precedes_hintedOrder hids hnames,
      placementRequest_boxes g r⟩
  · intro h hperm
    rw [placementRequest_boxes, placementRequest_boxes, hintedOrder_eq_of_perm hids hnames hperm]

/-- Boxes of listed, unlisted and missing categories, whose identifiers differ in case and length. -/
def mixedGraph : Graph :=
  ⟨[{ id := "ab", category := some "mem" }, { id := "Ab", category := some "mem" }, { id := "x-1" },
    { id := "x_1", category := some "other" }, { id := "a", category := some "io" }], []⟩

theorem boxes_canonical_mixedGraph : (mixedGraph.nodes.map Node.id).Nodup ∧
    (∀ n ∈ mixedGraph.nodes, IsIdentifier n.id) ∧
    (Graph.placementRequest ⟨mixedGraph.nodes.reverse, []⟩ .standard).boxes =
      (mixedGraph.placementRequest .standard).boxes := by
  have hids : (mixedGraph.nodes.map Node.id).Nodup := by decide
  have hnames : ∀ n ∈ mixedGraph.nodes, IsIdentifier n.id := by
    have hall : (mixedGraph.nodes.all fun n => n.id.toList.all Text.inIdentifier) = true := by decide
    simpa only [List.all_eq_true, IsIdentifier] using hall
  exact ⟨hids, hnames, (boxes_canonical .standard mixedGraph hids hnames).2 _ (List.reverse_perm _)⟩

/-- Where the rules list the empty category first, a box without a category comes before one of a listed
category. -/
theorem box_without_category_first : ∃ (r : PlacementRules) (g : Graph), r.categoryOrder = ["", "io"] ∧
    g.nodes.map (fun n => (n.id, n.category)) = [("b", some "io"), ("a", none)] ∧
    (g.placementRequest r).boxes.map BoxRequest.id = ["a", "b"] :=
  ⟨{ PlacementRules.standard with categoryOrder := ["", "io"] },
    ⟨[{ id := "b", category := some "io" }, { id := "a" }], []⟩, rfl, rfl, by cbv⟩

end PlacementRules

end MemoryCompiler.Diagram
