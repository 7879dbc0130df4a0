import MemoryCompiler.Proofs.Decimal.MonotoneOperations
import MemoryCompiler.Proofs.Diagram.BoxSizes

/-!
# Boxes grow with their metric

A box with a larger metric is no narrower and no lower than another one of its category (`size_grows`): every
step from the metric to the size keeps the order, the clamping and the snapping included. A graph that is
sized has both sizes in every box, so it is not sized again, by whatever rules.
-/

namespace MemoryCompiler.Diagram

open Decimal

namespace SizeRules

/-! ### The metric of a box -/

/-- An attribute of a box spells a number, and it is not negative. -/
structure Spells (n : Node) (name : String) (x : Float) : Prop where
  spelled : ∃ t, n.attr? name = some t ∧ (Document.text t).finite? = some x
  nonneg : 0 ≤ x

/-- Where the metric of a box comes from: the first attribute in question that spells a number, or the
category, or the default. -/
inductive IsMetric (r : SizeRules) (n : Node) : Float → Prop
  | spelled {before after : List String} {name : String} {x : Float}
      (hattrs : r.metricAttrs = before ++ name :: after) (hfirst : ∀ k ∈ before, ∀ y, ¬ Spells n k y)
      (hspells : Spells n name x) : IsMetric r n x
  | category {c : CategorySizing} (hnone : ∀ k ∈ r.metricAttrs, ∀ y, ¬ Spells n k y)
      (hlisted : r.categories.lookup (n.category.getD defaultCategory) = some c) : IsMetric r n c.metric
  | default (hnone : ∀ k ∈ r.metricAttrs, ∀ y, ¬ Spells n k y)
      (hunlisted : r.categories.lookup (n.category.getD defaultCategory) = none) : IsMetric r n r.defaultMetric

section metric

variable {r : SizeRules} {n : Node} {name : String} {x : Float}

theorem attrMetric?_eq_some_iff : attrMetric? n name = some x ↔ Spells n name x := by
  simp only [attrMetric?, Option.filter_eq_some_iff, Option.bind_eq_some_iff, decide_eq_true_eq]
  exact ⟨fun ⟨h, hx⟩ => ⟨h, hx⟩, fun ⟨h, hx⟩ => ⟨h, hx⟩⟩

theorem attrMetric?_eq_none_iff : attrMetric? n name = none ↔ ∀ y, ¬ Spells n name y := by
  simp only [Option.eq_none_iff_forall_ne_some, ne_eq, attrMetric?_eq_some_iff]

theorem IsMetric.eq (h : IsMetric r n x) : r.metric n (n.category.getD defaultCategory) = x := by
  unfold metric
  cases h with
  | spelled hattrs hfirst hspells =>
    have hnone := List.findSome?_eq_none_iff.2 fun k hk => attrMetric?_eq_none_iff.2 (hfirst k hk)
    simp [hattrs, List.findSome?_append, hnone, attrMetric?_eq_some_iff.2 hspells]
  | category hnone hlisted =>
    have hattrs := List.findSome?_eq_none_iff.2 fun k hk => attrMetric?_eq_none_iff.2 (hnone k hk)
    simp [hattrs, hlisted]
  | default hnone hunlisted =>
    have hattrs := List.findSome?_eq_none_iff.2 fun k hk => attrMetric?_eq_none_iff.2 (hnone k hk)
    simp [hattrs, hunlisted]

theorem isFinite_metric (hr : r.AllFinite) : (r.metric n name).isFinite = true := by
  unfold metric
  cases hfound : r.metricAttrs.findSome? (attrMetric? n) with
  | none => exact isFinite_lookup hr.categories (fun _ h => h.1) hr.defaultMetric name
  | some y =>
    obtain ⟨k, -, hk⟩ := List.exists_of_findSome?_eq_some hfound
    obtain ⟨t, -, hspelled⟩ := (attrMetric?_eq_some_iff.1 hk).spelled
    exact isFinite_of_finite? hspelled

end metric

/-! ### From the metric to the size -/

/-- Rules under which a box does not shrink when its metric grows. -/
structure Growing (r : SizeRules) : Prop where
  baseArea : 0 ≤ r.baseArea
  growth : 0 ≤ r.growth
  aspects : ∀ c ∈ r.categories, 0 < c.2.aspect
  width : r.minWidth ≤ r.maxWidth
  height : r.minHeight ≤ r.maxHeight

section growing

variable {r : SizeRules} {n m : Node}

theorem Growing.aspect_pos (h : r.Growing) (n : Node) : 0 < r.aspect n := by
  unfold aspect
  cases hlookup : r.categories.lookup (n.category.getD defaultCategory) with
  | none =>
    rw [Option.map_none, Option.getD_none]
    decide +kernel
  | some c =>
    obtain ⟨before, after, heq, -⟩ := List.lookup_eq_some_iff.1 hlookup
    exact h.aspects (n.category.getD defaultCategory, c) (by simp [heq])

theorem ascending_area (hr : r.AllFinite) (h : r.Growing)
    (hle : r.metric n (n.category.getD defaultCategory) ≤ r.metric m (m.category.getD defaultCategory)) :
    Ascending (r.area n) (r.area m) := by
  have hn : (r.metric n (n.category.getD defaultCategory)).isFinite = true := isFinite_metric hr
  have hm : (r.metric m (m.category.getD defaultCategory)).isFinite = true := isFinite_metric hr
  have hlarger := Ascending.larger_zero hn hm hle
  have hroot := hlarger.map roundsGrowing_sqrt
  have hrootn := isFinite_sqrt (isFinite_larger_zero hn) hlarger.nonneg
  have hrootm := isFinite_sqrt (isFinite_larger_zero hm) (le_trans_of_doubles hlarger.nonneg hlarger.le)
  have hadded := Ascending.mul_left hr.growth h.growth hrootn hrootm hroot
  unfold area
  exact hadded.map (roundsGrowing_add hr.baseArea h.baseArea)

theorem snap_clamp_mono {grid low high x y : Float} (hgrid : grid.isFinite = true) (hlow : low.isFinite = true)
    (hhigh : high.isFinite = true) (hbounds : low ≤ high) (hxy : x ≤ y) :
    snap grid (clamp x low high) ≤ snap grid (clamp y low high) := by
  have hclamp := clamp_mono hlow hhigh hxy
  obtain ⟨v, w, hv, hw, -⟩ := value?_of_le hxy
  obtain ⟨hx, -, -⟩ := clamp_bounds hv hlow hhigh hbounds
  obtain ⟨hy, -, -⟩ := clamp_bounds hw hlow hhigh hbounds
  by_cases hstep : grid ≤ 1
  · rw [snap, snap, if_pos hstep, if_pos hstep]
    exact hclamp
  · have hlt : 1 < grid := (not_le_iff hgrid isFinite_one).1 hstep
    exact snap_mono hgrid hlt hx hy ((toReal_le_iff hx hy).2 hclamp)

theorem sizeNode_grows (hr : r.AllFinite) (h : r.Growing) (hn : n.isSized = false) (hm : m.isSized = false)
    (hcategory : n.category.getD defaultCategory = m.category.getD defaultCategory)
    (hle : r.metric n (n.category.getD defaultCategory) ≤ r.metric m (m.category.getD defaultCategory)) :
    ∃ w u w' u', r.sizeNode n = { n with width := some w, height := some u } ∧
      r.sizeNode m = { m with width := some w', height := some u' } ∧ w ≤ w' ∧ u ≤ u' := by
  have harea := ascending_area hr h hle
  have haspect : r.aspect m = r.aspect n := by rw [aspect, aspect, hcategory]
  have hfinite : (r.aspect n).isFinite = true := isFinite_aspect hr.categories _
  have hpos := h.aspect_pos n
  have hwidth := (harea.map (roundsGrowing_mul hfinite hpos)).map roundsGrowing_sqrt
  have hheight := (harea.map (roundsGrowing_div hfinite hpos)).map roundsGrowing_sqrt
  refine ⟨_, _, _, _, sizeNode_of_not_isSized r hn, sizeNode_of_not_isSized r hm, ?_, ?_⟩
  · rw [haspect]
    exact snap_clamp_mono hr.grid hr.minWidth hr.maxWidth h.width hwidth.le
  · rw [haspect]
    exact snap_clamp_mono hr.grid hr.minHeight hr.maxHeight h.height hheight.le

end growing

/-! ### Sizing twice -/

theorem isSized_sizeNode (r : SizeRules) (n : Node) : (r.sizeNode n).isSized = true := by
  cases hn : n.isSized with
  | true => rw [sizeNode, if_pos hn, hn]
  | false => rw [sizeNode_of_not_isSized r hn]; rfl

theorem size_size (g : Graph) (r s : SizeRules) : (g.size r).size s = g.size r := by
  have hkept : ∀ n ∈ g.nodes, s.sizeNode (r.sizeNode n) = r.sizeNode n := fun n _ =>
    if_pos (isSized_sizeNode r n)
  simpa [Graph.size, Function.comp_def] using List.map_congr_left hkept

/-- **Boxes grow with their metric.** Of two boxes of a category that get their sizes from the rules, the one
with the larger metric is no narrower and no lower. Sizing again changes nothing. -/
theorem size_grows (d : Document) (g : Graph) :
    ((ofDocument d).Growing → ∀ (i j : Nat) (n m : Node) (x y : Float), g.nodes[i]? = some n →
      g.nodes[j]? = some m → n.isSized = false → m.isSized = false →
      n.category.getD defaultCategory = m.category.getD defaultCategory →
      IsMetric (ofDocument d) n x → IsMetric (ofDocument d) m y → x ≤ y →
      ∃ w u w' u', (g.size (ofDocument d)).nodes[i]? = some { n with width := some w, height := some u } ∧
        (g.size (ofDocument d)).nodes[j]? = some { m with width := some w', height := some u' } ∧
        w ≤ w' ∧ u ≤ u') ∧
    ∀ s : SizeRules, (g.size (ofDocument d)).size s = g.size (ofDocument d) := by
  constructor
  · intro h i j n m x y hi hj hn hm hcategory hx hy hle
    rw [← hx.eq, ← hy.eq] at hle
    obtain ⟨w, u, w', u', hwu, hwu', hgrows⟩ :=
      sizeNode_grows (allFinite_ofDocument d) h hn hm hcategory hle
    refine ⟨w, u, w', u', ?_, ?_, hgrows⟩
    · simp [Graph.size, hi, hwu]
    · simp [Graph.size, hj, hwu']
  · intro s
    exact size_size g (ofDocument d) s

/-- Two boxes with four and nine ports; the second one has a metric that spells no number. -/
def portBoxes : Graph :=
  ⟨[{ id := "a", category := some "io", attrs := [("ports", "4")] },
    { id := "b", category := some "io", attrs := [("metric", "many"), ("ports", "9")] }], []⟩

theorem isMetric_ports {n : Node} {x : Float} (hmetric : attrMetric? n "metric" = none)
    (hports : attrMetric? n "ports" = some x) : IsMetric (ofDocument .undefined) n x := by
  have hattrs : (ofDocument .undefined).metricAttrs = ["metric"] ++ "ports" :: [] := rfl
  refine .spelled hattrs ?_ (attrMetric?_eq_some_iff.1 hports)
  intro k hk
  rw [List.mem_singleton.1 hk]
  exact attrMetric?_eq_none_iff.1 hmetric

def sizeAt (g : Graph) (i : Nat) : Option (Option Float × Option Float) :=
  g.nodes[i]?.map fun n => (n.width, n.height)

theorem size_grows_portBoxes : (ofDocument .undefined).Growing ∧
    (∃ n m, portBoxes.nodes = [n, m] ∧ n.isSized = false ∧ m.isSized = false ∧
      n.category.getD defaultCategory = m.category.getD defaultCategory ∧
      IsMetric (ofDocument .undefined) n 4 ∧ IsMetric (ofDocument .undefined) m 9) ∧
    ∃ w u w' u', sizeAt (portBoxes.size (ofDocument .undefined)) 0 = some (some w, some u) ∧
      sizeAt (portBoxes.size (ofDocument .undefined)) 1 = some (some w', some u') ∧ w ≤ w' ∧ u ≤ u' := by
  have hgrowing : (ofDocument .undefined).Growing :=
    ⟨by decide +kernel, by decide +kernel, by decide +kernel, by decide +kernel, by decide +kernel⟩
  have hfour := isMetric_ports (n := { id := "a", category := some "io", attrs := [("ports", "4")] })
    (x := 4) (by decide +kernel) (by decide +kernel)
  have hnine := isMetric_ports
    (n := { id := "b", category := some "io", attrs := [("metric", "many"), ("ports", "9")] })
    (x := 9) (by decide +kernel) (by decide +kernel)
  obtain ⟨w, u, w', u', hfirst, hsecond, hgrows⟩ := (size_grows .undefined portBoxes).1 hgrowing 0 1 _ _ 4 9
    rfl rfl rfl rfl rfl hfour hnine (by decide +kernel)
  exact ⟨hgrowing, ⟨_, _, rfl, rfl, rfl, rfl, hfour, hnine⟩, w, u, w', u', congrArg _ hfirst,
    congrArg _ hsecond, hgrows⟩

end SizeRules

end MemoryCompiler.Diagram
