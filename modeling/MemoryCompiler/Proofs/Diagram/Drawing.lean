import MemoryCompiler.Diagram.Svg
import MemoryCompiler.Proofs.Text.Characters
import MemoryCompiler.Proofs.Xml.Printing

/-!
# Drawings as documents

What a drawing prints is a document, whatever the texts in its graph: `printable_drawing` goes through
the pieces and checks of each that its tags and attributes have names and that nothing special is left
without an escape. Only the style sheet goes in as it is. What is asked of the texts beyond that, such as
that a document may hold their characters, passes on to all texts in the drawing.
-/

namespace MemoryCompiler.Diagram

open Xml (isName isText isText_iff isText_append Quiet AttrsOk)

/-- What is asked of texts holds of those that a drawing shows. -/
structure TextsOk (ok : String → Prop) (g : Graph) (rules : DrawingRules) : Prop where
  ids : ∀ n ∈ g.nodes, ok n.id
  nodeLabels : ∀ n ∈ g.nodes, ∀ label ∈ n.label, ok label
  edgeLabels : ∀ e ∈ g.edges, ∀ label ∈ e.label, ok label
  title : ∀ title ∈ rules.title, ok title

/-! ### Values and texts -/

theorem isText_coordinate (x : Float) : isText (coordinate x) = true := by
  refine isText_iff.2 fun c hc => ?_
  have hnumeral : Decimal.inNumeral c = true := Decimal.inNumeral_of_mem_text hc
  rw [Decimal.inNumeral, Bool.or_eq_true] at hnumeral
  rcases hnumeral with hdigit | hmem
  · exact Xml.isXmlChar_of_inName (by simp [Xml.inName, hdigit])
  · exact List.all_eq_true.1 (by decide : "+-.eNaInfinity".toList.all Xml.isXmlChar = true) c
      (List.contains_iff_mem.1 hmem)

theorem isText_trim {s : String} (h : isText s = true) : isText (Text.trim s) = true :=
  isText_iff.2 fun c hc => isText_iff.1 h c (Text.mem_of_mem_trim hc)

theorem styledCategory_mem (category : Option String) : styledCategory category ∈ styledCategories := by
  unfold styledCategory
  dsimp only
  split_ifs with hstyled
  · exact List.contains_iff_mem.1 hstyled
  · decide

theorem isText_styledCategory (category : Option String) : isText (styledCategory category) = true :=
  (by decide : ∀ c ∈ styledCategories, isText c = true) _ (styledCategory_mem category)

theorem isText_pathData (points : List (Point Float)) : isText (pathData points) = true := by
  refine isText_iff.2 fun c hc => ?_
  rcases Text.mem_or_mem_of_mem_intercalate hc with hc | ⟨piece, hpiece, hc⟩
  · exact isText_iff.1 (by decide : isText " " = true) c hc
  · obtain ⟨i, hi, rfl⟩ := List.mem_mapIdx.1 hpiece
    refine isText_iff.1 ?_ c hc
    rw [isText_append, isText_append, isText_append, isText_coordinate, isText_coordinate]
    split_ifs <;> decide

/-! ### Pieces that can be printed -/

namespace Markup

variable {ok : String → Prop}

theorem attrsOk_of_names {attrs : List (String × String)} (names : List String)
    (h : attrs.map Prod.fst = names) (hnames : names.Nodup ∧ ∀ name ∈ names, isName name = true)
    (hvalues : ∀ value ∈ attrs.map Prod.snd, ok value) : AttrsOk ok attrs := by
  refine ⟨h ▸ hnames.1, fun a ha => ⟨hnames.2 a.1 ?_, hvalues a.2 (List.mem_map_of_mem ha)⟩⟩
  rw [← h]
  exact List.mem_map_of_mem ha

theorem attrsOk_of_isText (hok : ∀ s, isText s = true → ok s) {attrs : List (String × String)}
    (names : List String) (h : attrs.map Prod.fst = names)
    (hnames : names.Nodup ∧ ∀ name ∈ names, isName name = true)
    (hvalues : ∀ value ∈ attrs.map Prod.snd, isText value = true) : AttrsOk ok attrs :=
  attrsOk_of_names names h hnames fun value hvalue => hok value (hvalues value hvalue)

theorem printableIn_iff {ms : List Markup} : PrintableIn ok ms ↔ ∀ m ∈ ms, m.Printable ok := by
  induction ms with
  | nil => simp [PrintableIn]
  | cons m rest ih => simp [PrintableIn, ih]

theorem printableIn_append {ms ms' : List Markup} :
    PrintableIn ok (ms ++ ms') ↔ PrintableIn ok ms ∧ PrintableIn ok ms' := by
  simp only [printableIn_iff, List.mem_append]
  exact ⟨fun h => ⟨fun m hm => h m (.inl hm), fun m hm => h m (.inr hm)⟩,
    fun h m hm => hm.elim (h.1 m) (h.2 m)⟩

theorem printableIn_onLines {margin : String} {ms : List Markup}
    (hmargin : (verbatim ("\n" ++ margin)).Printable ok) (hms : PrintableIn ok ms) :
    PrintableIn ok (onLines margin ms) := by
  rw [printableIn_iff] at hms ⊢
  intro m hm
  obtain ⟨m', hm', hpiece⟩ := List.mem_flatMap.1 hm
  rcases List.mem_cons.1 hpiece with rfl | hsame
  · exact hmargin
  · rw [List.mem_singleton.1 hsame]
    exact hms m' hm'

theorem printable_verbatim (hok : ∀ s, isText s = true → ok s) {s : String}
    (h : s.toList.head? = some '\n' ∧ Quiet s.toList ∧ isText s = true) : (verbatim s).Printable ok :=
  ⟨h.1, h.2.1, hok s h.2.2⟩

theorem printable_verbatim_line {s : String} (hquiet : Quiet s.toList) (htext : ok ("\n" ++ s ++ "\n")) :
    (verbatim ("\n" ++ s ++ "\n")).Printable ok := by
  obtain ⟨hlt, hamp, hend⟩ := hquiet
  have hchars : ("\n" ++ s ++ "\n").toList = '\n' :: (s.toList ++ ['\n']) := by simp
  rw [Printable, hchars]
  refine ⟨rfl, ⟨by simpa using hlt, by simpa using hamp, ?_⟩, htext⟩
  rw [List.infix_cons_iff, List.infix_concat_iff]
  rintro (hstart | hfinish | hin)
  · simp at hstart
  · obtain ⟨t, ht⟩ := hfinish
    have hlast := congrArg List.getLast? ht
    simp at hlast
  · exact hend hin

end Markup

open Markup

section printable

variable {ok : String → Prop} (hok : ∀ s, isText s = true → ok s) {m : Markup}

include hok

theorem printable_box {n : Node} (hid : ok n.id) : n.box.Printable ok := by
  have hclass : ok ("node " ++ styledCategory n.category) := by
    apply hok
    rw [isText_append, isText_styledCategory]
    rfl
  have hrect : (Markup.empty "rect" [("x", coordinate n.left), ("y", coordinate n.upper),
      ("width", coordinate n.drawnWidth), ("height", coordinate n.drawnHeight), ("rx", "6"),
      ("ry", "6")]).Printable ok :=
    ⟨by decide, attrsOk_of_isText hok ["x", "y", "width", "height", "rx", "ry"] rfl (by decide)
      (by simp only [List.map_cons, List.forall_mem_cons, isText_coordinate]; decide)⟩
  refine ⟨by decide, attrsOk_of_names ["class", "data-id"] rfl (by decide) (by simp [hclass, hid]),
    printableIn_append.2 ⟨?_, ?_⟩⟩
  · exact printableIn_onLines (printable_verbatim hok (by decide)) ⟨hrect, trivial⟩
  · exact ⟨printable_verbatim hok (by decide), trivial⟩

theorem printable_labelText {n : Node} (hid : ok n.id) (hlabel : ∀ label ∈ n.label, ok label) :
    n.labelText.Printable ok := by
  have hclass : isText ("nodeLabel " ++ styledCategory n.category) = true := by
    rw [isText_append, isText_styledCategory]
    rfl
  have htext : ok (n.label.getD n.id) := by
    cases hn : n.label with
    | none => exact hid
    | some label => exact hlabel label hn
  exact ⟨by decide, attrsOk_of_isText hok ["class", "x", "y", "text-anchor", "dominant-baseline"] rfl
    (by decide) (by simp only [List.map_cons, List.forall_mem_cons, hclass, isText_coordinate]; decide),
    htext, trivial⟩

theorem printable_of_mem_frames {g : Graph} (h : m ∈ g.frames) : m.Printable ok := by
  obtain ⟨category, -, hm⟩ := List.mem_filterMap.1 h
  split at hm
  · cases hm
  · next first rest hmembers =>
    cases hm
    -- A frame is drawn around a box, so its category is one that has a style.
    have hfirst : first ∈ g.nodes.filter fun n => styledCategory n.category == category := by
      rw [hmembers]
      exact List.mem_cons_self
    have hcategory : category ∈ styledCategories := by
      rw [← beq_iff_eq.1 (List.mem_filter.1 hfirst).2]
      exact styledCategory_mem first.category
    have hclass : isText ("cluster " ++ className category) = true :=
      (by decide : ∀ c ∈ styledCategories, isText ("cluster " ++ className c) = true) _ hcategory
    exact ⟨by decide, attrsOk_of_isText hok ["class", "x", "y", "width", "height", "rx", "ry"] rfl
      (by decide) (by simp only [List.map_cons, List.forall_mem_cons, hclass, isText_coordinate]; decide)⟩

theorem printable_line? {e : Edge} (h : e.line? = some m) : m.Printable ok := by
  rw [Edge.line?] at h
  split at h
  · cases h
  · cases h
    have hclass : isText (if e.isBus then "edge bus" else "edge") = true := by
      split_ifs <;> decide
    exact ⟨by decide, attrsOk_of_isText hok ["class", "d", "marker-end"] rfl (by decide)
      (by simp only [List.map_cons, List.forall_mem_cons, hclass, isText_pathData]; decide)⟩

theorem printable_labelText? (htrim : ∀ s, ok s → ok (Text.trim s)) {e : Edge}
    (hlabel : ∀ label ∈ e.label, ok label) (h : e.labelText? = some m) : m.Printable ok := by
  simp only [Edge.labelText?, Option.bind_eq_bind, Option.bind_eq_some_iff] at h
  obtain ⟨label, he, p, -, h⟩ := h
  split_ifs at h
  cases h
  exact ⟨by decide, attrsOk_of_isText hok ["class", "x", "y", "text-anchor"] rfl (by decide)
    (by simp only [List.map_cons, List.forall_mem_cons, isText_coordinate]; decide),
    htrim label (hlabel label he), trivial⟩

theorem printable_arrowhead : arrowhead.Printable ok := by
  have hpath : (Markup.empty "path" [("d", "M0,0 L8,3 L0,6 z"), ("fill", "#222")]).Printable ok :=
    ⟨by decide, attrsOk_of_isText hok ["d", "fill"] rfl (by decide) (by decide)⟩
  refine ⟨by decide, attrsOk_of_isText hok ["id", "markerWidth", "markerHeight", "refX", "refY", "orient",
    "markerUnits"] rfl (by decide) (by decide), printableIn_append.2 ⟨?_, ?_⟩⟩
  · exact printableIn_onLines (printable_verbatim hok (by decide)) ⟨hpath, trivial⟩
  · exact ⟨printable_verbatim hok (by decide), trivial⟩

theorem printable_group {name : String} {pieces : List Markup} (hname : isText name = true)
    (h : ∀ m ∈ pieces, m.Printable ok) : (group name pieces).Printable ok := by
  refine ⟨by decide, attrsOk_of_isText hok ["class"] rfl (by decide) (by simp [hname]),
    printableIn_append.2 ⟨?_, ?_⟩⟩
  · exact printableIn_onLines (printable_verbatim hok (by decide)) (printableIn_iff.2 h)
  · exact ⟨printable_verbatim hok (by decide), trivial⟩

omit hok in
theorem printable_titleElement {title : Option String} (htitle : ∀ t ∈ title, ok t)
    (h : m ∈ titleElement title) : m.Printable ok := by
  cases title with
  | none => cases h
  | some t =>
    rw [titleElement] at h
    split_ifs at h
    · cases h
    · rw [List.mem_singleton.1 h]
      exact ⟨by decide, attrsOk_of_names [] rfl (by decide) (by simp), htitle t rfl, trivial⟩

theorem printable_drawing (htrim : ∀ s, ok s → ok (Text.trim s)) {g : Graph} {css : String}
    {rules : DrawingRules} (h : TextsOk ok g rules) (hcss : Quiet css.toList)
    (hstyle : ok ("\n" ++ css ++ "\n")) : (g.drawing css rules).Printable ok := by
  have hframes : (group "clusters" (if rules.showClusters then g.frames else [])).Printable ok := by
    refine printable_group hok (by decide) fun m hm => ?_
    split_ifs at hm
    · exact printable_of_mem_frames hok hm
    · cases hm
  have hwires : (group "wires" (g.edges.filterMap Edge.line?)).Printable ok := by
    refine printable_group hok (by decide) fun m hm => ?_
    obtain ⟨e, -, he⟩ := List.mem_filterMap.1 hm
    exact printable_line? hok he
  have hnodes : (group "nodes" (g.nodes.map Node.box)).Printable ok := by
    refine printable_group hok (by decide) fun m hm => ?_
    obtain ⟨n, hn, rfl⟩ := List.mem_map.1 hm
    exact printable_box hok (h.ids n hn)
  have hlabels : (group "labels"
      (g.nodes.map Node.labelText ++ g.edges.filterMap Edge.labelText?)).Printable ok := by
    refine printable_group hok (by decide) fun m hm => ?_
    rcases List.mem_append.1 hm with hm | hm
    · obtain ⟨n, hn, rfl⟩ := List.mem_map.1 hm
      exact printable_labelText hok (h.ids n hn) (h.nodeLabels n hn)
    · obtain ⟨e, he, hm⟩ := List.mem_filterMap.1 hm
      exact printable_labelText? hok htrim (h.edgeLabels e he) hm
  have hcontent : (Markup.element "style" [] [.verbatim ("\n" ++ css ++ "\n")]).Printable ok :=
    ⟨by decide, attrsOk_of_names [] rfl (by decide) (by simp), printable_verbatim_line hcss hstyle, trivial⟩
  have hdefs : (Markup.element "defs" []
      (Markup.onLines "  " [arrowhead] ++ [.verbatim "\n"])).Printable ok := by
    refine ⟨by decide, attrsOk_of_names [] rfl (by decide) (by simp), printableIn_append.2 ⟨?_, ?_⟩⟩
    · exact printableIn_onLines (printable_verbatim hok (by decide)) ⟨printable_arrowhead hok, trivial⟩
    · exact ⟨printable_verbatim hok (by decide), trivial⟩
  have hview : isText ("0 0 " ++ coordinate g.canvasWidth ++ " " ++ coordinate g.canvasHeight) = true := by
    simp only [isText_append, isText_coordinate]
    decide
  refine ⟨by decide, attrsOk_of_isText hok ["xmlns", "width", "height", "viewBox"] rfl (by decide)
    (by simp only [List.map_cons, List.forall_mem_cons, isText_coordinate, hview]; decide),
    printableIn_append.2 ⟨?_, printable_verbatim hok (by decide), trivial⟩⟩
  refine printableIn_onLines (printable_verbatim hok (by decide)) (printableIn_append.2 ⟨?_, ?_⟩)
  · exact printableIn_iff.2 fun m hm => printable_titleElement h.title hm
  · exact ⟨hcontent, hdefs, hframes, hwires, hnodes, hlabels, trivial⟩

end printable

end MemoryCompiler.Diagram
