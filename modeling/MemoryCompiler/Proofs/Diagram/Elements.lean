import MemoryCompiler.Proofs.Diagram.Drawing

/-!
# What a drawing shows

The elements of a drawing are those of its pieces, one after the other. They are told apart by their name
and the first word of their class, and each kind stands in one group only; so the elements of a kind are
those of the boxes, the lines or the labels, in order (`shows_drawing`).
-/

namespace MemoryCompiler.Diagram

open Xml (Item Element chars)
open Markup

/-! ### Items of pieces -/

section gather

variable {α β : Type}

/-- What is taken from the items of some pieces, one after the other. -/
def gather (take : Item → List β) (ms : List Markup) : List β := (itemsIn ms).flatMap take

/-- Nothing is taken from characters. -/
class Silent (take : Item → List β) : Prop where
  char : ∀ c, take (.char c) = []

variable {take : Item → List β} {ms ms' : List Markup}

theorem gather_cons (m : Markup) : gather take (m :: ms) = m.items.flatMap take ++ gather take ms :=
  List.flatMap_append

theorem gather_singleton (m : Markup) : gather take [m] = m.items.flatMap take := by
  rw [gather_cons]
  exact List.append_nil _

theorem gather_eq_flatMap : gather take ms = ms.flatMap fun m => gather take [m] := by
  induction ms with
  | nil => rfl
  | cons m ms ih => rw [gather_cons, ih, List.flatMap_cons, gather_singleton]

@[simp] theorem gather_nil : gather take [] = [] := rfl

@[simp] theorem gather_append : gather take (ms ++ ms') = gather take ms ++ gather take ms' := by
  rw [gather_eq_flatMap, List.flatMap_append, ← gather_eq_flatMap, ← gather_eq_flatMap]

@[simp] theorem gather_empty (name : String) (attrs : List (String × String)) :
    gather take (.empty name attrs :: ms) = take (.element ⟨name, attrs⟩ (itemsIn [])) ++ gather take ms := rfl

@[simp] theorem gather_element (name : String) (attrs : List (String × String)) (content : List Markup) :
    gather take (.element name attrs content :: ms) =
      take (.element ⟨name, attrs⟩ (itemsIn content)) ++ gather take ms := rfl

@[simp] theorem gather_text [Silent take] (s : String) : gather take (.text s :: ms) = gather take ms := by
  have hchars : (chars s).flatMap take = [] := by
    rw [List.flatMap_eq_nil_iff]
    intro i hi
    obtain ⟨c, -, rfl⟩ := List.mem_map.1 hi
    exact Silent.char c
  rw [gather_cons, items, hchars, List.nil_append]

@[simp] theorem gather_verbatim [Silent take] (s : String) :
    gather take (.verbatim s :: ms) = gather take ms := gather_text s

@[simp] theorem gather_onLines [Silent take] (margin : String) :
    gather take (onLines margin ms) = gather take ms := by
  rw [gather_eq_flatMap, onLines, List.flatMap_assoc, gather_eq_flatMap]
  congr 1
  funext m
  rw [List.flatMap_cons, gather_verbatim, gather_nil, List.nil_append, List.flatMap_singleton]

theorem gather_filterMap (piece : α → Option Markup) (as : List α) :
    gather take (as.filterMap piece) = as.flatMap fun a => gather take (piece a).toList := by
  rw [List.filterMap_eq_flatMap_toList, gather_eq_flatMap, List.flatMap_assoc]
  congr 1
  funext a
  exact gather_eq_flatMap.symm

theorem gather_map (piece : α → Markup) (as : List α) :
    gather take (as.map piece) = as.flatMap fun a => gather take [piece a] := by
  rw [gather_eq_flatMap, List.flatMap_map]

end gather

/-! ### Elements of pieces -/

section elements

abbrev elementsOf (ms : List Markup) : List Element := gather Item.elements ms

variable {ms : List Markup}

instance : Silent Item.elements := ⟨fun _ => rfl⟩

theorem elementsIn_eq_flatMap (is : List Item) : Xml.elementsIn is = is.flatMap Item.elements := by
  induction is with
  | nil => rfl
  | cons i is ih => rw [Xml.elementsIn, ih, List.flatMap_cons]

@[simp] theorem elements_element (tag : Xml.Tag) (content : List Markup) :
    Item.elements (.element tag (itemsIn content)) = ⟨tag, itemsIn content⟩ :: elementsOf content := by
  rw [Item.elements, elementsIn_eq_flatMap]
  rfl

/-! ### Roles of elements -/

/-- The name of an element and the first word of its class tell what it is for. -/
def role (e : Element) : String × Option String :=
  (e.tag.name, (e.tag.attrs.lookup "class").map fun c => String.ofList (c.toList.takeWhile (· ≠ ' ')))

/-- The elements with a role. -/
def withRole (r : String × Option String) (es : List Element) : List Element := es.filter fun e => role e = r

variable {r : String × Option String}

theorem withRole_cons (e : Element) (es : List Element) :
    withRole r (e :: es) = if role e = r then e :: withRole r es else withRole r es := by
  simp [withRole, List.filter_cons]

theorem withRole_append (es es' : List Element) : withRole r (es ++ es') = withRole r es ++ withRole r es' :=
  List.filter_append ..

theorem withRole_eq_nil {roles : List (String × Option String)}
    (h : ∀ m ∈ ms, (elementsOf [m]).map role = roles) (hr : r ∉ roles) : withRole r (elementsOf ms) = [] := by
  refine List.filter_eq_nil_iff.2 fun e he heq => hr ?_
  rw [elementsOf, gather_eq_flatMap] at he
  obtain ⟨m, hm, he⟩ := List.mem_flatMap.1 he
  rw [← h m hm, ← of_decide_eq_true heq]
  exact List.mem_map_of_mem he

theorem map_withRole_filterMap {α β : Type} {piece : α → Option Markup} {take : Element → β}
    {value : α → Option β} (h : ∀ a, (withRole r (elementsOf (piece a).toList)).map take = (value a).toList)
    (as : List α) : (withRole r (elementsOf (as.filterMap piece))).map take = as.filterMap value := by
  rw [elementsOf, gather_filterMap, withRole, List.filter_flatMap, List.map_flatMap,
    List.filterMap_eq_flatMap_toList]
  congr 1
  funext a
  exact h a

theorem map_withRole_map {α β : Type} {piece : α → Markup} {take : Element → β} {value : α → β}
    (h : ∀ a, (withRole r (elementsOf [piece a])).map take = [value a]) (as : List α) :
    (withRole r (elementsOf (as.map piece))).map take = as.map value := by
  have hsome : ∀ a, (withRole r (elementsOf ((some ∘ piece) a).toList)).map take = ((some ∘ value) a).toList := h
  rw [← List.filterMap_eq_map (f := piece), ← List.filterMap_eq_map (f := value)]
  exact map_withRole_filterMap hsome as

theorem roles_box (n : Node) :
    (elementsOf [n.box]).map role = [("g", some "node"), ("rect", none)] := by
  simp [Node.box, role, List.lookup_cons]

theorem roles_labelText (n : Node) : (elementsOf [n.labelText]).map role = [("text", some "nodeLabel")] := by
  simp [Node.labelText, role]

theorem roles_line? {e : Edge} {m : Markup} (h : e.line? = some m) :
    (elementsOf [m]).map role = [("path", some "edge")] := by
  rw [Edge.line?] at h
  split at h
  · cases h
  · cases h
    cases e.isBus
    · simp [role]
    · simp [role]

theorem roles_labelText? {e : Edge} {m : Markup} (h : e.labelText? = some m) :
    (elementsOf [m]).map role = [("text", some "edgeLabel")] := by
  simp only [Edge.labelText?, Option.bind_eq_bind, Option.bind_eq_some_iff] at h
  obtain ⟨t, -, p, -, h⟩ := h
  split_ifs at h
  cases h
  simp [role]

/-! Each group has elements of its own. -/

section groups

variable (g : Graph)

theorem withRole_titleElement (title : Option String) (hr : r ∉ [("title", none)]) :
    withRole r (elementsOf (titleElement title)) = [] := by
  refine withRole_eq_nil (fun m hm => ?_) hr
  cases title with
  | none => cases hm
  | some t =>
    rw [titleElement] at hm
    split_ifs at hm
    · cases hm
    · rw [List.mem_singleton.1 hm]
      simp [role]

theorem withRole_frames (shown : Bool) (hr : r ∉ [("rect", some "cluster")]) :
    withRole r (elementsOf (if shown then g.frames else [])) = [] := by
  refine withRole_eq_nil (fun m hm => ?_) hr
  split_ifs at hm
  · obtain ⟨category, -, hm⟩ := List.mem_filterMap.1 hm
    split at hm
    · cases hm
    · cases hm
      simp [frame, role]
  · cases hm

theorem withRole_lines (hr : r ∉ [("path", some "edge")]) :
    withRole r (elementsOf (g.edges.filterMap Edge.line?)) = [] := by
  refine withRole_eq_nil (fun m hm => ?_) hr
  obtain ⟨e, -, he⟩ := List.mem_filterMap.1 hm
  exact roles_line? he

theorem withRole_boxes (hr : r ∉ [("g", some "node"), ("rect", none)]) :
    withRole r (elementsOf (g.nodes.map Node.box)) = [] := by
  refine withRole_eq_nil (fun m hm => ?_) hr
  obtain ⟨n, -, rfl⟩ := List.mem_map.1 hm
  exact roles_box n

theorem withRole_labels (hr : r ∉ [("text", some "nodeLabel")]) :
    withRole r (elementsOf (g.nodes.map Node.labelText)) = [] := by
  refine withRole_eq_nil (fun m hm => ?_) hr
  obtain ⟨n, -, rfl⟩ := List.mem_map.1 hm
  exact roles_labelText n

theorem withRole_lineLabels (hr : r ∉ [("text", some "edgeLabel")]) :
    withRole r (elementsOf (g.edges.filterMap Edge.labelText?)) = [] := by
  refine withRole_eq_nil (fun m hm => ?_) hr
  obtain ⟨e, -, he⟩ := List.mem_filterMap.1 hm
  exact roles_labelText? he

end groups

/-- The roles of the elements that every drawing has. -/
def fixedRoles : List (String × Option String) :=
  [("svg", none), ("style", none), ("defs", none), ("marker", none), ("path", none), ("g", some "clusters"),
    ("g", some "wires"), ("g", some "nodes"), ("g", some "labels")]

theorem withRole_drawing (g : Graph) (css : String) (rules : DrawingRules) (hr : r ∉ fixedRoles) :
    withRole r (elementsOf [g.drawing css rules]) =
      withRole r (elementsOf (titleElement rules.title)) ++
      (withRole r (elementsOf (if rules.showClusters then g.frames else [])) ++
      (withRole r (elementsOf (g.edges.filterMap Edge.line?)) ++
      (withRole r (elementsOf (g.nodes.map Node.box)) ++
      (withRole r (elementsOf (g.nodes.map Node.labelText)) ++
        withRole r (elementsOf (g.edges.filterMap Edge.labelText?)))))) := by
  simp only [fixedRoles, List.mem_cons, List.not_mem_nil, or_false, not_or, eq_comm (a := r)] at hr
  simp [Graph.drawing, group, arrowhead, withRole_append, withRole_cons, role, List.lookup_cons, hr]

/-! ### What the pieces show -/

theorem length_routeFrom (last : Point Float) (points : List (Point Float)) :
    points.length ≤ (routeFrom last points).length := by
  induction points generalizing last with
  | nil => exact Nat.zero_le _
  | cons p rest ih =>
    have hrest := ih p
    rw [routeFrom]
    split_ifs
    · simp only [List.length_cons]
      omega
    · simp only [List.length_cons]
      omega

theorem length_route_lt_two {points : List (Point Float)} : (route points).length < 2 ↔ points.length < 2 := by
  match points with
  | [] => exact Iff.rfl
  | [p] => exact Iff.rfl
  | p :: q :: rest =>
    have hlength := length_routeFrom p (q :: rest)
    simp only [route, List.length_cons] at hlength ⊢
    omega

theorem labelAnchor?_eq_none {points : List (Point Float)} : labelAnchor? points = none ↔ points.length < 2 := by
  match points with
  | [] => exact iff_of_true rfl (by decide)
  | [p] => exact iff_of_true rfl (by simp)
  | p :: q :: rest => exact iff_of_false (by simp [labelAnchor?, segments]) (by simp)

/-- The label that is drawn at a line: the trimmed one, unless it is blank or there is no line. -/
def Edge.shownLabel? (e : Edge) : Option String :=
  if e.points.length < 2 then none else (e.label.map Text.trim).filter (· ≠ "")

theorem shown_box (n : Node) :
    (withRole ("g", some "node") (elementsOf [n.box])).map (fun e => e.tag.attrs.lookup "data-id") =
      [some n.id] := by
  simp [Node.box, role, List.lookup_cons, withRole]

theorem itemsIn_text (s : String) : itemsIn [.text s] = chars s := List.append_nil _

theorem shown_labelText (n : Node) :
    (withRole ("text", some "nodeLabel") (elementsOf [n.labelText])).map Element.content =
      [chars (n.label.getD n.id)] := by
  simpa [Node.labelText, role, withRole] using itemsIn_text (n.label.getD n.id)

theorem shown_titleElement (title : Option String) :
    (withRole ("title", none) (elementsOf (titleElement title))).map Element.content =
      (title.filter (· ≠ "")).toList.map chars := by
  cases title with
  | none => rfl
  | some t =>
    rw [titleElement]
    by_cases ht : t = ""
    · simp [ht, withRole, Option.filter_some]
    · simpa [ht, role, withRole, Option.filter_some] using itemsIn_text t

theorem shown_line? (e : Edge) :
    (withRole ("path", some "edge") (elementsOf e.line?.toList)).map (fun e => e.tag.attrs.lookup "d") =
      if e.points.length < 2 then [] else [some (pathData (route e.points))] := by
  rw [Edge.line?]
  simp only [length_route_lt_two]
  by_cases hpoints : e.points.length < 2
  · rw [if_pos hpoints, if_pos hpoints]
    rfl
  · rw [if_neg hpoints, if_neg hpoints]
    cases e.isBus
    · simp [role, withRole, List.lookup_cons]
    · simp [role, withRole, List.lookup_cons]

theorem shown_labelText? (e : Edge) :
    (withRole ("text", some "edgeLabel") (elementsOf e.labelText?.toList)).map Element.content =
      e.shownLabel?.toList.map chars := by
  rw [Edge.labelText?, Edge.shownLabel?]
  cases e.label with
  | none => simp [withRole]
  | some label =>
    cases hanchor : labelAnchor? (route e.points) with
    | none =>
      rw [labelAnchor?_eq_none, length_route_lt_two] at hanchor
      simp [withRole, hanchor]
    | some p =>
      have hpoints : ¬ e.points.length < 2 := by
        rw [← length_route_lt_two, ← labelAnchor?_eq_none, hanchor]
        simp
      by_cases ht : Text.trim label = ""
      · simp [withRole, hpoints, ht, Option.filter_some]
      · simpa [withRole, role, hpoints, ht, Option.filter_some] using itemsIn_text (Text.trim label)

end elements

/-! ### Reading a drawing -/

/-- A document shows a graph: its boxes, labels, lines and title, each in order. -/
structure Shows (g : Graph) (rules : DrawingRules) (doc : Item) : Prop where
  boxes : (withRole ("g", some "node") doc.elements).map (fun e => e.tag.attrs.lookup "data-id") =
    g.nodes.map fun n => some n.id
  labels : (withRole ("text", some "nodeLabel") doc.elements).map Element.content =
    g.nodes.map fun n => chars (n.label.getD n.id)
  lines : (withRole ("path", some "edge") doc.elements).map (fun e => e.tag.attrs.lookup "d") =
    (g.edges.filter fun e => 2 ≤ e.points.length).map fun e => some (pathData (route e.points))
  lineLabels : (withRole ("text", some "edgeLabel") doc.elements).map Element.content =
    (g.edges.filterMap Edge.shownLabel?).map chars
  title : (withRole ("title", none) doc.elements).map Element.content =
    (rules.title.filter (· ≠ "")).toList.map chars

theorem shows_drawing (g : Graph) (css : String) (rules : DrawingRules) {doc : Item}
    (hdoc : doc.elements = elementsOf [g.drawing css rules]) : Shows g rules doc where
  boxes := by
    simp (disch := decide) only [hdoc, withRole_drawing, withRole_titleElement, withRole_frames,
      withRole_lines, withRole_labels, withRole_lineLabels, List.nil_append, List.append_nil]
    exact map_withRole_map shown_box g.nodes
  labels := by
    simp (disch := decide) only [hdoc, withRole_drawing, withRole_titleElement, withRole_frames,
      withRole_lines, withRole_boxes, withRole_lineLabels, List.nil_append, List.append_nil]
    exact map_withRole_map shown_labelText g.nodes
  lines := by
    simp (disch := decide) only [hdoc, withRole_drawing, withRole_titleElement, withRole_frames,
      withRole_boxes, withRole_labels, withRole_lineLabels, List.nil_append, List.append_nil]
    rw [← List.filterMap_eq_map (f := fun e : Edge => some (pathData (route e.points))), List.filterMap_filter]
    refine map_withRole_filterMap (fun e => (shown_line? e).trans ?_) g.edges
    by_cases h : e.points.length < 2
    · simp [h]
    · simp [h, Nat.not_lt.1 h]
  lineLabels := by
    simp (disch := decide) only [hdoc, withRole_drawing, withRole_titleElement, withRole_frames,
      withRole_lines, withRole_boxes, withRole_labels, List.nil_append]
    rw [List.map_filterMap]
    exact map_withRole_filterMap (fun e => (shown_labelText? e).trans Option.toList_map.symm) g.edges
  title := by
    simp (disch := decide) only [hdoc, withRole_drawing, withRole_frames, withRole_lines, withRole_boxes,
      withRole_labels, withRole_lineLabels, List.append_nil]
    exact shown_titleElement rules.title

end MemoryCompiler.Diagram
