import MemoryCompiler.Diagram.Placement
import MemoryCompiler.Proofs.Decimal.WholeText

/-!
# Answers of the layouter

The layouter is asked for boxes and lines by their identifiers, and its answer may list them in any order.
Every box and line of the graph gets what the answer says under its own identifier
(`place_of_answers`). The identifiers of the boxes are those of the graph. Lines without an identifier are
numbered, and a line that is called like a number another line has been given takes its route
(`numbered_line_taken`).
-/

namespace MemoryCompiler.Diagram

open Decimal

/-! ### Identifiers of the request -/

/-- No line without an identifier is numbered by the identifier of another one. -/
def NumbersFree (edges : List Edge) : Prop :=
  ∀ (i : Nat) (e : Edge), edges[i]? = some e → e.id = none → ∀ f ∈ edges, f.id ≠ some ("e" ++ natText i)

section identifiers

variable {edges : List Edge} {i j : Nat}

theorem getElem?_names {e : Edge} (h : edges[i]? = some e) : (edges.mapIdx Edge.name)[i]? = some (e.name i) := by
  simp [List.getElem?_mapIdx, h]

theorem eq_of_id_eq (hgiven : (edges.filterMap Edge.id).Nodup) {e f : Edge} {name : String}
    (hi : edges[i]? = some e) (hj : edges[j]? = some f) (he : e.id = some name) (hf : f.id = some name) :
    i = j := by
  have hpairwise := List.pairwise_filterMap.1 hgiven
  rw [List.pairwise_iff_getElem] at hpairwise
  obtain ⟨hilt, rfl⟩ := List.getElem?_eq_some_iff.1 hi
  obtain ⟨hjlt, rfl⟩ := List.getElem?_eq_some_iff.1 hj
  rcases Nat.lt_trichotomy i j with hlt | heq | hlt
  · exact absurd rfl (hpairwise i j hilt hjlt hlt name he name hf)
  · exact heq
  · exact absurd rfl (hpairwise j i hjlt hilt hlt name hf name he)

theorem name_of_id {e : Edge} {name : String} (h : e.id = some name) : e.name i = name := by
  simp [Edge.name, h]

theorem name_of_no_id {e : Edge} (h : e.id = none) : e.name i = "e" ++ natText i := by
  simp [Edge.name, h]

theorem numberText_injective {name : String} (hi : name = "e" ++ natText i) (hj : name = "e" ++ natText j) :
    i = j := by
  apply natText_injective
  apply String.toList_injective
  have h := congrArg String.toList (hi.symm.trans hj)
  simpa using h

/-- As long as the numbers are free, a name tells which line it belongs to. -/
theorem eq_of_name_eq (hgiven : (edges.filterMap Edge.id).Nodup) (hfree : NumbersFree edges) {e f : Edge}
    (hi : edges[i]? = some e) (hj : edges[j]? = some f) (h : e.name i = f.name j) : i = j := by
  cases he : e.id with
  | none =>
    rw [name_of_no_id he] at h
    cases hf : f.id with
    | none => exact numberText_injective rfl (h.trans (name_of_no_id hf))
    | some name =>
      rw [name_of_id hf] at h
      exact absurd (hf.trans (congrArg some h.symm)) (hfree i e hi he f (List.mem_of_getElem? hj))
  | some name =>
    rw [name_of_id he] at h
    cases hf : f.id with
    | none =>
      rw [name_of_no_id hf] at h
      exact absurd (he.trans (congrArg some h)) (hfree j f hj hf e (List.mem_of_getElem? hi))
    | some other =>
      rw [name_of_id hf] at h
      exact eq_of_id_eq hgiven hi hj he (hf.trans (congrArg some h.symm))

theorem numbersFree_of_nodup (hnodup : (edges.mapIdx Edge.name).Nodup) : NumbersFree edges := by
  intro i e hi he f hf hfid
  obtain ⟨j, hj⟩ := List.mem_iff_getElem?.1 hf
  have hlt : i < (edges.mapIdx Edge.name).length := by
    rw [List.length_mapIdx]
    exact (List.getElem?_eq_some_iff.1 hi).1
  have hsame : (edges.mapIdx Edge.name)[i]? = (edges.mapIdx Edge.name)[j]? := by
    rw [getElem?_names hi, getElem?_names hj, name_of_no_id he, name_of_id hfid]
  obtain rfl := (List.getElem?_inj hlt hnodup).1 hsame
  rw [hi, Option.some.injEq] at hj
  rw [← hj, he] at hfid
  cases hfid

/-- The names of the lines differ from each other exactly when the numbers are free. -/
theorem nodup_names_iff (hgiven : (edges.filterMap Edge.id).Nodup) :
    (edges.mapIdx Edge.name).Nodup ↔ NumbersFree edges := by
  constructor
  · exact numbersFree_of_nodup
  · intro hfree
    rw [List.nodup_iff_getElem?_ne_getElem?]
    intro i j hij hj hsame
    rw [List.length_mapIdx] at hj
    have hi' : edges[i]? = some edges[i] := List.getElem?_eq_getElem (hij.trans hj)
    have hj' : edges[j]? = some edges[j] := List.getElem?_eq_getElem hj
    rw [getElem?_names hi', getElem?_names hj', Option.some.injEq] at hsame
    exact hij.ne (eq_of_name_eq hgiven hfree hi' hj' hsame)

end identifiers

/-! ### What the request asks for -/

section request

variable (g : Graph) (r : PlacementRules)

def boxRequest (n : Node) : BoxRequest := ⟨n.id, n.width.getD defaultWidth, n.height.getD defaultHeight⟩

theorem placementRequest_boxes : (g.placementRequest r).boxes = (r.hintedOrder g.nodes).map boxRequest := rfl

theorem hintedOrder_perm (nodes : List Node) : (r.hintedOrder nodes).Perm nodes := List.mergeSort_perm _ _

theorem boxes_perm : (g.placementRequest r).boxes.Perm (g.nodes.map boxRequest) :=
  (hintedOrder_perm r g.nodes).map boxRequest

theorem boxIds_perm : ((g.placementRequest r).boxes.map BoxRequest.id).Perm (g.nodes.map Node.id) := by
  have h := (boxes_perm g r).map BoxRequest.id
  rwa [List.map_map] at h

theorem lineIds_eq : (g.placementRequest r).lines.map LineRequest.id = g.edges.mapIdx Edge.name := by
  apply List.ext_getElem?
  intro i
  simp [Graph.placementRequest, List.getElem?_mapIdx, Function.comp_def]

end request

/-! ### Reading the answer -/

/-- One item of some, and no other one, goes by a name. -/
structure GoesBy {α : Type} (id : α → String) (items : List α) (name : String) (x : α) : Prop where
  mem : x ∈ items
  named : id x = name
  unique : ∀ y ∈ items, id y = name → y = x

/-- An answer has one box for each requested box and one line for each requested line, in any order. -/
structure Placement.Answers (p : Placement) (q : PlacementRequest) : Prop where
  box : ∀ b ∈ q.boxes, ∃ c, GoesBy PlacedBox.id p.boxes b.id c
  line : ∀ l ∈ q.lines, ∃ c, GoesBy PlacedLine.id p.lines l.id c

theorem goesBy_of_nodup {α : Type} {id : α → String} {items : List α} {x : α} (h : (items.map id).Nodup)
    (hx : x ∈ items) : GoesBy id items (id x) x where
  mem := hx
  named := rfl
  unique := fun _ hy heq => List.inj_on_of_nodup_map h hy hx heq

theorem GoesBy.find?_reverse {α : Type} {id : α → String} {items : List α} {name : String} {x : α}
    (h : GoesBy id items name x) : (items.reverse.find? fun y => id y == name) = some x := by
  have hsome : (items.reverse.find? fun y => id y == name).isSome := by
    rw [List.find?_isSome]
    exact ⟨x, List.mem_reverse.2 h.mem, by simp [h.named]⟩
  obtain ⟨y, hy⟩ := Option.isSome_iff_exists.1 hsome
  have hnamed : id y = name := by simpa using List.find?_some hy
  rw [hy, h.unique y (List.mem_reverse.1 (List.mem_of_find?_eq_some hy)) hnamed]

/-- The points of a line: those of its stretches in order, from the start over the bends to the end. -/
def PlacedLine.points (l : PlacedLine) : List (Point Float) :=
  l.sections.flatMap fun s => s.start :: s.bends ++ [s.finish]

/-- What a graph becomes when it is placed: the same boxes and lines in the same order, each box where its own
box of the answer is and as large, each line with the points of its own line, and all other fields kept. -/
structure Graph.LaidOut (g : Graph) (p : Placement) (laid : Graph) : Prop where
  length_nodes : laid.nodes.length = g.nodes.length
  length_edges : laid.edges.length = g.edges.length
  node : ∀ (i : Nat) (n : Node), g.nodes[i]? = some n → ∃ b, GoesBy PlacedBox.id p.boxes n.id b ∧
    laid.nodes[i]? = some { n with
      x := some (b.x.getD 0), y := some (b.y.getD 0)
      width := b.width.or n.width, height := b.height.or n.height }
  edge : ∀ (i : Nat) (e : Edge), g.edges[i]? = some e → ∃ l, GoesBy PlacedLine.id p.lines (e.name i) l ∧
    laid.edges[i]? = some { e with points := l.points }

section answer

variable {g : Graph} {r : PlacementRules} {p : Placement}

theorem placeNode_of_goesBy {n : Node} {b : PlacedBox} (h : GoesBy PlacedBox.id p.boxes n.id b) :
    p.placeNode n = { n with
      x := some (b.x.getD 0), y := some (b.y.getD 0)
      width := b.width.or n.width, height := b.height.or n.height } := by
  simp [Placement.placeNode, Placement.box?, h.find?_reverse]

theorem points_of_goesBy {name : String} {l : PlacedLine} (h : GoesBy PlacedLine.id p.lines name l) :
    p.points name = l.points := by
  rw [Placement.points, h.find?_reverse]
  rfl

theorem laidOut_place (h : p.Answers (g.placementRequest r)) : g.LaidOut p (g.place p) where
  length_nodes := by simp [Graph.place]
  length_edges := by simp [Graph.place]
  node := by
    intro i n hi
    have hmem : boxRequest n ∈ (g.placementRequest r).boxes :=
      (boxes_perm g r).mem_iff.2 (List.mem_map_of_mem (List.mem_of_getElem? hi))
    obtain ⟨b, hb⟩ := h.box _ hmem
    exact ⟨b, hb, by simp [Graph.place, hi, placeNode_of_goesBy hb]⟩
  edge := by
    intro i e hi
    have hmem : (⟨e.name i, e.source, e.target⟩ : LineRequest) ∈ (g.placementRequest r).lines := by
      apply List.mem_of_getElem? (i := i)
      simp [Graph.placementRequest, List.getElem?_mapIdx, hi]
    obtain ⟨l, hl⟩ := h.line _ hmem
    exact ⟨l, hl, by simp [Graph.place, List.getElem?_mapIdx, hi, points_of_goesBy hl]⟩

end answer

/-- **What the layouter answers goes to the right element.** The identifiers of the requested boxes differ from
each other, those of the lines do so exactly when no number that a line is given is the identifier of another
one, and every answer is read back element by element. -/
theorem place_of_answers (g : Graph) (r : PlacementRules) (hnodes : (g.nodes.map Node.id).Nodup)
    (hedges : (g.edges.filterMap Edge.id).Nodup) :
    ((g.placementRequest r).boxes.map BoxRequest.id).Nodup ∧
    (((g.placementRequest r).lines.map LineRequest.id).Nodup ↔ NumbersFree g.edges) ∧
    ∀ p : Placement, p.Answers (g.placementRequest r) → g.LaidOut p (g.place p) := by
  refine ⟨(boxIds_perm g r).nodup_iff.2 hnodes, ?_, ?_⟩
  · rw [lineIds_eq]
    exact nodup_names_iff hedges
  · intro p h
    exact laidOut_place h

/-- Two boxes with a line in each direction, one of which has no identifier. -/
def bothWays : Graph :=
  ⟨[{ id := "a" }, { id := "b" }],
    [{ id := some "there", source := "a", target := "b" }, { source := "b", target := "a" }]⟩

/-- An answer that lists everything backward. -/
def backwardAnswer : Placement :=
  ⟨[⟨"b", some 50, some 0, some 10, some 10⟩, ⟨"a", some 0, some 0, some 10, some 10⟩],
    [⟨"e1", [⟨⟨50, 8⟩, [], ⟨10, 8⟩⟩]⟩, ⟨"there", [⟨⟨10, 2⟩, [], ⟨50, 2⟩⟩]⟩]⟩

theorem place_of_answers_backward : (bothWays.nodes.map Node.id).Nodup ∧
    (bothWays.edges.filterMap Edge.id).Nodup ∧ NumbersFree bothWays.edges ∧
    backwardAnswer.Answers (bothWays.placementRequest .standard) ∧
    ((bothWays.placementRequest .standard).lines.map LineRequest.id).Nodup ∧
    bothWays.LaidOut backwardAnswer (bothWays.place backwardAnswer) := by
  have hnodes : (bothWays.nodes.map Node.id).Nodup := by decide
  have hedges : (bothWays.edges.filterMap Edge.id).Nodup := by decide
  have hfree : NumbersFree bothWays.edges := (nodup_names_iff hedges).1 (by decide)
  have hanswers : backwardAnswer.Answers (bothWays.placementRequest .standard) := by
    refine ⟨?_, ?_⟩
    · intro b hb
      have hboxes : b ∈ bothWays.nodes.map boxRequest := (boxes_perm _ _).mem_iff.1 hb
      have hnodup : (backwardAnswer.boxes.map PlacedBox.id).Nodup := by decide
      simp only [bothWays, List.map_cons, List.map_nil, List.mem_cons, List.not_mem_nil, or_false] at hboxes
      rcases hboxes with rfl | rfl
      · exact ⟨_, goesBy_of_nodup hnodup (List.mem_cons_of_mem _ List.mem_cons_self)⟩
      · exact ⟨_, goesBy_of_nodup hnodup List.mem_cons_self⟩
    · intro l hl
      have hnodup : (backwardAnswer.lines.map PlacedLine.id).Nodup := by decide
      have hlines : (bothWays.placementRequest .standard).lines =
          [⟨"there", "a", "b"⟩, ⟨"e1", "b", "a"⟩] := by decide
      simp only [hlines, List.mem_cons, List.not_mem_nil, or_false] at hl
      rcases hl with rfl | rfl
      · exact ⟨_, goesBy_of_nodup hnodup (List.mem_cons_of_mem _ List.mem_cons_self)⟩
      · exact ⟨_, goesBy_of_nodup hnodup List.mem_cons_self⟩
  obtain ⟨-, hnames, hplaced⟩ := place_of_answers bothWays .standard hnodes hedges
  exact ⟨hnodes, hedges, hfree, hanswers, hnames.2 hfree, hplaced backwardAnswer hanswers⟩

/-- A line without an identifier is asked for under the identifier of another line, and both lines take the same
route. -/
theorem numbered_line_taken : ∃ g : Graph, (g.nodes.map Node.id).Nodup ∧ (g.edges.filterMap Edge.id).Nodup ∧
    (g.placementRequest .standard).lines = [⟨"e1", "a", "b"⟩, ⟨"e1", "b", "a"⟩] ∧
    ∀ p : Placement, (g.place p).edges.map Edge.points = [p.points "e1", p.points "e1"] := by
  refine ⟨⟨[{ id := "a" }, { id := "b" }],
    [{ id := some "e1", source := "a", target := "b" }, { source := "b", target := "a" }]⟩,
    by decide, by decide, by decide, fun p => ?_⟩
  have hnumber : "e" ++ natText 1 = "e1" := by decide
  simp [Graph.place, Edge.name, hnumber]

end MemoryCompiler.Diagram
