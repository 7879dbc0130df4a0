import MemoryCompiler.Proofs.Diagram.Elements

/-!
# Texts do not shape a drawing

Without its characters and the identifiers of its boxes a drawing is the same for all graphs that differ in
texts only (`outline_drawing`): no text opens or closes an element. With what the drawing shows and that it
can be read at all this is what a reader of the document relies on (`read_svg`).
-/

namespace MemoryCompiler.Diagram

open Xml (Item Element Quiet isText)
open Markup

/-! ### Graphs without texts -/

def Node.withoutText (n : Node) : Node := { n with id := "", label := none }

/-- A line without identifiers; of its label only remains whether it is blank. -/
def Edge.withoutText (e : Edge) : Edge :=
  { e with
    id := none
    source := ""
    target := ""
    label := ((e.label.map Text.trim).filter (· ≠ "")).map fun _ => "x" }

def Graph.withoutTexts (g : Graph) : Graph where
  nodes := g.nodes.map Node.withoutText
  edges := g.edges.map Edge.withoutText

/-- Rules without a title; it only remains whether there is one. -/
def DrawingRules.withoutTitle (rules : DrawingRules) : DrawingRules :=
  { rules with title := (rules.title.filter (· ≠ "")).map fun _ => "x" }

/-! ### Outlines -/

/-- The attributes that do not depend on texts. -/
def withoutId (a : String × String) : String × String := if a.1 = "data-id" then (a.1, "") else a

section outline

variable {keep : String × String → String × String}

instance : Silent (Item.outline keep) := ⟨fun _ => rfl⟩

theorem outlineIn_eq_flatMap (is : List Item) : Xml.outlineIn keep is = is.flatMap (Item.outline keep) := by
  induction is with
  | nil => rfl
  | cons i is ih => rw [Xml.outlineIn, ih, List.flatMap_cons]

@[simp] theorem outline_element (tag : Xml.Tag) (content : List Markup) :
    Item.outline keep (.element tag (itemsIn content)) =
      [.element ⟨tag.name, tag.attrs.map keep⟩ (gather (Item.outline keep) content)] := by
  rw [Item.outline, outlineIn_eq_flatMap]
  rfl

end outline

abbrev outlineOf (ms : List Markup) : List Item := gather (Item.outline withoutId) ms

/-! ### Drawings without texts -/

section withoutTexts

variable (g : Graph) (rules : DrawingRules)

theorem outline_box (n : Node) : outlineOf [n.withoutText.box] = outlineOf [n.box] := by
  simp only [Node.box, gather_element, outline_element, gather_append, gather_onLines, gather_verbatim]
  rfl

theorem outline_labelText (n : Node) : outlineOf [n.withoutText.labelText] = outlineOf [n.labelText] := by
  simp only [Node.labelText, gather_element, outline_element, gather_text]
  rfl

theorem outline_labelText? (e : Edge) :
    outlineOf e.withoutText.labelText?.toList = outlineOf e.labelText?.toList := by
  have hx : Text.trim "x" = "x" := by decide
  rw [Edge.labelText?, Edge.labelText?, Edge.withoutText]
  cases e.label with
  | none => rfl
  | some label =>
    by_cases ht : Text.trim label = ""
    · simp [ht, Option.filter_some]
    · cases labelAnchor? (route e.points) with
      | none => simp
      | some p => simp [ht, hx, Option.filter_some]

theorem outline_titleElement (title : Option String) :
    outlineOf (titleElement ((title.filter (· ≠ "")).map fun _ => "x")) = outlineOf (titleElement title) := by
  cases title with
  | none => rfl
  | some t =>
    by_cases ht : t = ""
    · simp [ht, titleElement, Option.filter_some]
    · simp [ht, titleElement, Option.filter_some]

theorem categoriesOf_withoutText (nodes : List Node) :
    categoriesOf (nodes.map Node.withoutText) = categoriesOf nodes := by
  rw [categoriesOf, List.foldl_map]
  rfl

theorem frame_withoutText (category : String) (first : Node) (rest : List Node) :
    frame category first.withoutText (rest.map Node.withoutText) = frame category first rest := by
  simp only [frame, List.map_map]
  rfl

theorem frames_withoutTexts : g.withoutTexts.frames = g.frames := by
  rw [Graph.frames, Graph.frames, Graph.withoutTexts, categoriesOf_withoutText]
  congr 1
  funext category
  rw [List.filter_map]
  have hsame : ((fun n : Node => styledCategory n.category == category) ∘ Node.withoutText) =
      fun n => styledCategory n.category == category := rfl
  rw [hsame]
  cases g.nodes.filter fun n => styledCategory n.category == category with
  | nil => rfl
  | cons first rest => exact congrArg some (frame_withoutText category first rest)

theorem canvasWidth_withoutTexts : g.withoutTexts.canvasWidth = g.canvasWidth := by
  rw [Graph.canvasWidth, Graph.withoutTexts, List.map_map]
  rfl

theorem canvasHeight_withoutTexts : g.withoutTexts.canvasHeight = g.canvasHeight := by
  rw [Graph.canvasHeight, Graph.withoutTexts, List.map_map]
  rfl

/-- A drawing without its texts is the drawing of a graph without texts. -/
theorem outline_drawing (css css' : String) :
    outlineOf [g.withoutTexts.drawing css' rules.withoutTitle] = outlineOf [g.drawing css rules] := by
  have hboxes : outlineOf (g.withoutTexts.nodes.map Node.box) = outlineOf (g.nodes.map Node.box) := by
    rw [outlineOf, outlineOf, gather_map, gather_map, Graph.withoutTexts, List.flatMap_map]
    simp only [outline_box]
  have hlabels : outlineOf (g.withoutTexts.nodes.map Node.labelText) = outlineOf (g.nodes.map Node.labelText) := by
    rw [outlineOf, outlineOf, gather_map, gather_map, Graph.withoutTexts, List.flatMap_map]
    simp only [outline_labelText]
  have hlines : g.withoutTexts.edges.filterMap Edge.line? = g.edges.filterMap Edge.line? := by
    rw [Graph.withoutTexts, List.filterMap_map]
    rfl
  have hlineLabels : outlineOf (g.withoutTexts.edges.filterMap Edge.labelText?) =
      outlineOf (g.edges.filterMap Edge.labelText?) := by
    rw [outlineOf, outlineOf, gather_filterMap, gather_filterMap, Graph.withoutTexts, List.flatMap_map]
    simp only [outline_labelText?]
  have htitle : outlineOf (titleElement rules.withoutTitle.title) = outlineOf (titleElement rules.title) :=
    outline_titleElement rules.title
  have hframes : (if rules.withoutTitle.showClusters then g.withoutTexts.frames else []) =
      if rules.showClusters then g.frames else [] := by
    rw [frames_withoutTexts]
    rfl
  simp [Graph.drawing, group, canvasWidth_withoutTexts, canvasHeight_withoutTexts, hframes, hlines, hboxes,
    hlabels, hlineLabels, htitle]

end withoutTexts

/-! ### Reading a drawing -/

section read

variable {g : Graph} {css : String} {rules : DrawingRules}

theorem read_drawing (g : Graph) (rules : DrawingRules) (hcss : Quiet css.toList) :
    ∃ doc, Xml.read (g.svg css rules) = some doc ∧ doc.elements = elementsOf [g.drawing css rules] ∧
      doc.outline withoutId = outlineOf [g.drawing css rules] := by
  have htexts : TextsOk (fun _ => True) g rules :=
    ⟨fun _ _ => trivial, fun _ _ _ _ => trivial, fun _ _ _ _ => trivial, fun _ _ => trivial⟩
  have hprintable : (g.drawing css rules).Printable fun _ => True :=
    printable_drawing (fun _ _ => trivial) (fun _ _ => trivial) htexts hcss trivial
  exact ⟨_, read_document hprintable, (List.append_nil _).symm, (List.append_nil _).symm⟩

theorem isText_svg (htexts : TextsOk (isText · = true) g rules) (hcss : Quiet css.toList)
    (hstyle : isText css = true) : isText (g.svg css rules) = true := by
  refine isText_document (printable_drawing (fun _ => id) (fun _ => isText_trim) htexts hcss ?_)
  rw [Xml.isText_append, Xml.isText_append, hstyle]
  rfl

/-- A drawing is a well-formed document that shows its graph, and it holds only characters that are allowed
if its texts do. Texts do not shape it: another drawing of a graph that differs in texts only has the same
elements in the same order. -/
theorem read_svg (g : Graph) (rules : DrawingRules) (hcss : Quiet css.toList) :
    (∃ doc, Xml.read (g.svg css rules) = some doc ∧ Shows g rules doc ∧
      ∀ (g' : Graph) (css' : String) (rules' : DrawingRules), Quiet css'.toList →
        g'.withoutTexts = g.withoutTexts → rules'.withoutTitle = rules.withoutTitle →
        ∃ doc', Xml.read (g'.svg css' rules') = some doc' ∧
          doc'.outline withoutId = doc.outline withoutId) ∧
    (TextsOk (isText · = true) g rules → isText css = true → isText (g.svg css rules) = true) := by
  refine ⟨?_, fun htexts hstyle => isText_svg htexts hcss hstyle⟩
  obtain ⟨doc, hread, helements, houtline⟩ := read_drawing g rules hcss
  refine ⟨doc, hread, shows_drawing g css rules helements, ?_⟩
  intro g' css' rules' hcss' hgraph hrules
  obtain ⟨doc', hread', -, houtline'⟩ := read_drawing g' rules' hcss'
  refine ⟨doc', hread', ?_⟩
  calc doc'.outline withoutId = outlineOf [g'.drawing css' rules'] := houtline'
    _ = outlineOf [g'.withoutTexts.drawing "" rules'.withoutTitle] := (outline_drawing g' rules' css' "").symm
    _ = outlineOf [g.withoutTexts.drawing "" rules.withoutTitle] := by rw [hgraph, hrules]
    _ = outlineOf [g.drawing css rules] := outline_drawing g rules css ""
    _ = doc.outline withoutId := houtline.symm

/-- Two boxes and a line between them with names that need care. -/
def awkwardGraph : Graph where
  nodes := [{ id := "a\"<&>'" }, { id := "b", label := some "]]>" }]
  edges := [{ source := "a\"<&>'", target := "b", label := some " </svg> ", points := [⟨0, 0⟩, ⟨50, 20⟩] }]

theorem read_svg_awkward :
    (∃ doc, Xml.read (awkwardGraph.svg "/* > */" { title := some "R&D" }) = some doc ∧
      (withRole ("g", some "node") doc.elements).map (fun e => e.tag.attrs.lookup "data-id") =
        [some "a\"<&>'", some "b"] ∧
      (withRole ("text", some "nodeLabel") doc.elements).map Element.content =
        [Xml.chars "a\"<&>'", Xml.chars "]]>"] ∧
      (withRole ("text", some "edgeLabel") doc.elements).map Element.content = [Xml.chars "</svg>"] ∧
      (withRole ("title", none) doc.elements).map Element.content = [Xml.chars "R&D"]) ∧
    isText (awkwardGraph.svg "/* > */" { title := some "R&D" }) = true := by
  obtain ⟨⟨doc, hread, hshows, -⟩, htext⟩ :=
    read_svg awkwardGraph { title := some "R&D" } (by decide : Quiet "/* > */".toList)
  refine ⟨⟨doc, hread, hshows.boxes, hshows.labels, hshows.lineLabels, hshows.title⟩, htext ?_ (by decide)⟩
  exact { ids := by decide, nodeLabels := by decide, edgeLabels := by decide, title := by decide }

end read

end MemoryCompiler.Diagram
