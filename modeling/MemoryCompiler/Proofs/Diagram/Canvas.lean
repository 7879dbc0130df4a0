import MemoryCompiler.Proofs.Decimal.NearestWhole
import MemoryCompiler.Proofs.Diagram.Elements

/-!
# Boxes and the canvas

The canvas ends a margin beyond the last given right end and the last given lower end, so it contains every box
whose sizes are given (`canvas_of_placed`). A box without a size is drawn with a standard one that the canvas
does not know of: it lies inside only if some given end reaches far enough, and else it sticks out
(`box_beyond_canvas`).
-/

namespace MemoryCompiler.Diagram

open Decimal
open Xml (Element)

/-! ### The margin -/

section margin

theorem isFinite_canvasMargin : canvasMargin.isFinite = true := by decide +kernel

theorem toReal_canvasMargin : toReal canvasMargin = 40 := by
  have hdecode : decode canvasMargin = some ⟨false, 40 * 2 ^ 47, -47⟩ := by decide +kernel
  rw [toReal, hdecode]
  show Dyadic.value ⟨false, 40 * 2 ^ 47, -47⟩ = 40
  rw [Dyadic.value, if_neg Bool.false_ne_true, one_mul, zpow_neg]
  norm_num

variable {x : Float} {v : EReal}

theorem le_add_canvasMargin (hx : value? x = some v) (hv : 0 ≤ v) : x ≤ x + canvasMargin := by
  induction v with
  | bot => exact absurd hv (not_le.2 EReal.bot_lt_zero)
  | top => exact (le_iff_value? hx (value?_add_top hx isFinite_canvasMargin)).2 (le_refl _)
  | coe r =>
    obtain ⟨hfinite, rfl⟩ := isFinite_of_value? hx
    rw [le_iff_value? hx (value?_add hfinite isFinite_canvasMargin), ← rounded_toReal hfinite,
      toReal_canvasMargin]
    exact rounded_mono (by linarith)

theorem exists_rounded_of_le {r : ℝ} (hr : 0 ≤ r) (hmost : r ≤ 2 ^ 58) : ∃ s : ℝ, rounded r = s := by
  have hle : rounded r ≤ ((2 ^ 58 : ℝ) : EReal) :=
    (rounded_mono hmost).trans (rounded_two_pow (k := 58) (by decide)).le
  have hge : (0 : EReal) ≤ rounded r := rounded_nonneg hr
  exact ⟨(rounded r).toReal, (EReal.coe_toReal (ne_top_of_le_ne_top (EReal.coe_ne_top _) hle)
    (ne_bot_of_le_ne_bot EReal.zero_ne_bot hge)).symm⟩

/-- Below `2 ^ 58` the last place is at most that of 32. -/
theorem sub_le_rounded {t : ℝ} (ht : 0 ≤ t) (hlt : t < 2 ^ 58) : (t - 16 : ℝ) ≤ rounded t := by
  rw [rounded_of_nonneg ht, bounded]
  split_ifs
  · rcases ht.eq_or_lt with rfl | hpos
    · rw [roundMagnitude_zero, EReal.coe_le_coe_iff]
      norm_num
    · have hplace : lastPlace t ≤ 5 := lastPlace_le hpos (by norm_num; linarith) (by decide)
      have hunit : (2 : ℝ) ^ lastPlace t ≤ 2 ^ (5 : ℤ) := zpow_le_zpow_right₀ (by norm_num) hplace
      have hsmall : (2 : ℝ) ^ (5 : ℤ) = 32 := by norm_num
      have hle := le_roundMagnitude_add t
      rw [EReal.coe_le_coe_iff]
      linarith
  · exact le_top

/-- The two roundings up to the far end of the canvas lose less than the margin adds. -/
theorem le_rounded_add_margin {r s : ℝ} (hr : 0 ≤ r) (hmost : r ≤ 2 ^ 58) (hs : rounded r = s) :
    (r : EReal) ≤ rounded (s + 40) := by
  have hpower := rounded_two_pow (k := 58) (by decide)
  have hsge : r - 16 ≤ s := by
    rcases hmost.lt_or_eq with hlt | heq
    · have h := sub_le_rounded hr hlt
      rwa [hs, EReal.coe_le_coe_iff] at h
    · rw [heq, hpower] at hs
      have h := EReal.coe_injective hs
      linarith
  rcases le_or_gt (2 ^ 58) (s + 40) with hfar | hnear
  · calc (r : EReal) ≤ ((2 ^ 58 : ℝ) : EReal) := EReal.coe_le_coe_iff.2 hmost
      _ = rounded (2 ^ 58) := hpower.symm
      _ ≤ rounded (s + 40) := rounded_mono hfar
  · calc (r : EReal) ≤ ((s + 40 - 16 : ℝ) : EReal) := EReal.coe_le_coe_iff.2 (by linarith)
      _ ≤ rounded (s + 40) := sub_le_rounded (by linarith) hnear

end margin

/-! ### The far end of the canvas -/

section far

/-- A coordinate or a size is finite and not negative, if it is given. -/
def GivenNonneg (given : Option Float) : Prop := ∀ x ∈ given, x.isFinite = true ∧ 0 ≤ x

theorem GivenNonneg.getD {given : Option Float} (h : GivenNonneg given) {other : Float}
    (hother : other.isFinite = true ∧ 0 ≤ other) : (given.getD other).isFinite = true ∧ 0 ≤ given.getD other := by
  cases given with
  | none => exact hother
  | some x => exact h x rfl

theorem exists_largest (xs : List Float) (hxs : ∀ x ∈ xs, ∃ v, value? x = some v ∧ 0 ≤ v) :
    ∃ M, value? (xs.foldr larger 0) = some M ∧ 0 ≤ M ∧ (∀ x ∈ xs, x ≤ xs.foldr larger 0) ∧
      (M = 0 ∨ ∃ x ∈ xs, value? x = some M) := by
  induction xs with
  | nil =>
    refine ⟨0, ?_, le_refl _, fun x hx => absurd hx List.not_mem_nil, .inl rfl⟩
    rw [List.foldr_nil, value?_of_isFinite isFinite_zero, toReal_zero, EReal.coe_zero]
  | cons x xs ih =>
    obtain ⟨M, hM, hnonneg, hle, hattained⟩ := ih fun y hy => hxs y (List.mem_cons_of_mem _ hy)
    obtain ⟨v, hv, -⟩ := hxs x List.mem_cons_self
    have hlarger := value?_larger hv hM
    refine ⟨max v M, hlarger, le_max_of_le_right hnonneg, fun y hy => ?_, ?_⟩
    · rcases List.mem_cons.1 hy with rfl | hy
      · exact (le_iff_value? hv hlarger).2 (le_max_left _ _)
      · exact le_trans_of_doubles (hle y hy) ((le_iff_value? hM hlarger).2 (le_max_right _ _))
    · rcases max_choice v M with hmax | hmax
      · rw [hmax]
        exact .inr ⟨x, List.mem_cons_self, hv⟩
      · rw [hmax]
        exact hattained.imp_right fun ⟨y, hy, hvalue⟩ => ⟨y, List.mem_cons_of_mem _ hy, hvalue⟩

/-- The far end of a canvas in one direction, in which `near` is the near end of a box and `size?` its size. -/
def farEnd (near : Node → Float) (size? : Node → Option Float) (nodes : List Node) : Float :=
  (nodes.map fun n => near n + (size? n).getD 0).foldr larger 0 + canvasMargin

theorem canvasWidth_eq (g : Graph) : g.canvasWidth = farEnd Node.left Node.width g.nodes := rfl

theorem canvasHeight_eq (g : Graph) : g.canvasHeight = farEnd Node.upper Node.height g.nodes := rfl

/-- How a box that is drawn in one direction with a given or else the standard size lies to a far end. -/
structure Reaches (near : Node → Float) (size? : Node → Option Float) (standard : Float) (nodes : List Node)
    (far : Float) (n : Node) : Prop where
  near_nonneg : 0 ≤ near n
  /-- It lies inside exactly when some given end reaches as far, up to the margin. -/
  inside_iff : near n + (size? n).getD standard ≤ far ↔
    ∃ m ∈ nodes, near n + (size? n).getD standard ≤ near m + (size? m).getD 0 + canvasMargin
  /-- With a given size it lies inside. -/
  inside : (size? n).isSome = true → near n + (size? n).getD standard ≤ far
  /-- This is no matter of rounding, unless the canvas is larger than `2 ^ 58`. -/
  inside_exactly : (size? n).isSome = true →
    toReal (near n) + toReal ((size? n).getD standard) ≤ 2 ^ 58 → ∃ w, value? far = some w ∧
      ((toReal (near n) + toReal ((size? n).getD standard) : ℝ) : EReal) ≤ w

variable {near : Node → Float} {size? : Node → Option Float} {standard : Float} {nodes : List Node}

theorem exists_value?_end {x y : Float} (hx : x.isFinite = true ∧ 0 ≤ x) (hy : y.isFinite = true ∧ 0 ≤ y) :
    ∃ v, value? (x + y) = some v ∧ 0 ≤ v :=
  ⟨_, value?_add hx.1 hy.1, rounded_nonneg (add_nonneg (toReal_nonneg hx.1 hx.2) (toReal_nonneg hy.1 hy.2))⟩

theorem zero_nonneg : (0 : Float).isFinite = true ∧ (0 : Float) ≤ 0 := by decide +kernel

theorem exists_value?_given (hnear : ∀ n ∈ nodes, (near n).isFinite = true ∧ 0 ≤ near n)
    (hsize : ∀ n ∈ nodes, GivenNonneg (size? n)) :
    ∀ n ∈ nodes, ∃ v, value? (near n + (size? n).getD 0) = some v ∧ 0 ≤ v :=
  fun n hn => exists_value?_end (hnear n hn) ((hsize n hn).getD zero_nonneg)

theorem farEnd_spec (hends : ∀ n ∈ nodes, ∃ v, value? (near n + (size? n).getD 0) = some v ∧ 0 ≤ v)
    (hne : nodes ≠ []) :
    (∀ n ∈ nodes, near n + (size? n).getD 0 + canvasMargin ≤ farEnd near size? nodes) ∧
      ∃ n ∈ nodes, farEnd near size? nodes ≤ near n + (size? n).getD 0 + canvasMargin := by
  obtain ⟨M, hM, hnonneg, hlargest, hattained⟩ :=
    exists_largest (nodes.map fun n => near n + (size? n).getD 0) fun x hx => by
      obtain ⟨n, hn, rfl⟩ := List.mem_map.1 hx
      exact hends n hn
  constructor
  · intro n hn
    obtain ⟨v, hv, hvnonneg⟩ := hends n hn
    have hle := hlargest _ (List.mem_map_of_mem hn)
    exact add_le_add_of_nonneg hv hM hvnonneg ((le_iff_value? hv hM).1 hle) isFinite_canvasMargin
  · have hn : ∃ n ∈ nodes, value? (near n + (size? n).getD 0) = some M := by
      rcases hattained with rfl | ⟨x, hx, hvalue⟩
      · -- When all ends are zero, any box has the last one.
        obtain ⟨n, hn⟩ := List.exists_mem_of_ne_nil nodes hne
        obtain ⟨v, hv, hvnonneg⟩ := hends n hn
        have hle := (le_iff_value? hv hM).1 (hlargest _ (List.mem_map_of_mem hn))
        exact ⟨n, hn, (le_antisymm hle hvnonneg) ▸ hv⟩
      · obtain ⟨n, hn, rfl⟩ := List.mem_map.1 hx
        exact ⟨n, hn, hvalue⟩
    obtain ⟨n, hn, hvalue⟩ := hn
    exact ⟨n, hn, add_le_add_of_nonneg hM hvalue hnonneg (le_refl M) isFinite_canvasMargin⟩

theorem exists_le_of_add_margin_le {x y far : Float} (hx : x.isFinite = true ∧ 0 ≤ x)
    (hy : y.isFinite = true ∧ 0 ≤ y) (hmost : toReal x + toReal y ≤ 2 ^ 58) (hfar : x + y + canvasMargin ≤ far) :
    ∃ w, value? far = some w ∧ ((toReal x + toReal y : ℝ) : EReal) ≤ w := by
  have hr := add_nonneg (toReal_nonneg hx.1 hx.2) (toReal_nonneg hy.1 hy.2)
  obtain ⟨s, hs⟩ := exists_rounded_of_le hr hmost
  have hsum := value?_add hx.1 hy.1
  rw [hs] at hsum
  obtain ⟨hsumFinite, hsumValue⟩ := isFinite_of_value? hsum
  have hend := value?_add hsumFinite isFinite_canvasMargin
  rw [hsumValue, toReal_canvasMargin] at hend
  obtain ⟨u, w, hu, hw, hle⟩ := value?_of_le hfar
  obtain rfl := Option.some.inj (hend.symm.trans hu)
  exact ⟨w, hw, (le_rounded_add_margin hr hmost hs).trans hle⟩

theorem reaches_farEnd (hnear : ∀ n ∈ nodes, (near n).isFinite = true ∧ 0 ≤ near n)
    (hsize : ∀ n ∈ nodes, GivenNonneg (size? n)) {n : Node} (hn : n ∈ nodes) :
    Reaches near size? standard nodes (farEnd near size? nodes) n := by
  have hends := exists_value?_given hnear hsize
  obtain ⟨hmargin, hreached⟩ := farEnd_spec hends (List.ne_nil_of_mem hn)
  have hgiven : (size? n).isSome = true → (size? n).getD standard = (size? n).getD 0 := fun h => by
    obtain ⟨w, hw⟩ := Option.isSome_iff_exists.1 h
    rw [hw, Option.getD_some, Option.getD_some]
  refine ⟨(hnear n hn).2, ⟨fun h => ?_, fun ⟨m, hm, h⟩ => ?_⟩, fun h => ?_, fun h hmost => ?_⟩
  · obtain ⟨m, hm, hle⟩ := hreached
    exact ⟨m, hm, le_trans_of_doubles h hle⟩
  · exact le_trans_of_doubles h (hmargin m hm)
  · obtain ⟨v, hv, hvnonneg⟩ := hends n hn
    rw [hgiven h]
    exact le_trans_of_doubles (le_add_canvasMargin hv hvnonneg) (hmargin n hn)
  · rw [hgiven h] at hmost ⊢
    exact exists_le_of_add_margin_le (hnear n hn) ((hsize n hn).getD zero_nonneg) hmost (hmargin n hn)

end far

/-! ### What the drawing says -/

section drawing

variable (g : Graph) (css : String) (rules : DrawingRules)

theorem drawn_box (n : Node) : (withRole ("rect", none) (elementsOf [n.box])).map (fun e => e.tag.attrs) =
    [[("x", coordinate n.left), ("y", coordinate n.upper), ("width", coordinate n.drawnWidth),
      ("height", coordinate n.drawnHeight), ("rx", "6"), ("ry", "6")]] := by
  simp [Node.box, role, List.lookup_cons, withRole]

theorem drawn_boxes : (withRole ("rect", none) (elementsOf [g.drawing css rules])).map (fun e => e.tag.attrs) =
    g.nodes.map fun n => [("x", coordinate n.left), ("y", coordinate n.upper),
      ("width", coordinate n.drawnWidth), ("height", coordinate n.drawnHeight), ("rx", "6"), ("ry", "6")] := by
  simp (disch := decide) only [withRole_drawing, withRole_titleElement, withRole_frames, withRole_lines,
    withRole_labels, withRole_lineLabels, List.nil_append, List.append_nil]
  exact map_withRole_map drawn_box g.nodes

theorem drawn_root : (elementsOf [g.drawing css rules]).head?.map (fun e => (e.tag.name, e.tag.attrs.lookup "viewBox")) =
    some ("svg", some ("0 0 " ++ coordinate g.canvasWidth ++ " " ++ coordinate g.canvasHeight)) := by
  simp [Graph.drawing, List.lookup_cons]

end drawing

/-- The coordinates and sizes that a graph gives are finite and not negative. -/
structure Graph.Placed (g : Graph) : Prop where
  x : ∀ n ∈ g.nodes, GivenNonneg n.x
  y : ∀ n ∈ g.nodes, GivenNonneg n.y
  width : ∀ n ∈ g.nodes, GivenNonneg n.width
  height : ∀ n ∈ g.nodes, GivenNonneg n.height

/-- **The canvas contains the boxes whose sizes are given.** -/
theorem canvas_of_placed (g : Graph) (css : String) (rules : DrawingRules) (hplaced : g.Placed) :
    (elementsOf [g.drawing css rules]).head?.map (fun e => (e.tag.name, e.tag.attrs.lookup "viewBox")) =
      some ("svg", some ("0 0 " ++ coordinate g.canvasWidth ++ " " ++ coordinate g.canvasHeight)) ∧
    (withRole ("rect", none) (elementsOf [g.drawing css rules])).map (fun e => e.tag.attrs) =
      (g.nodes.map fun n => [("x", coordinate n.left), ("y", coordinate n.upper),
        ("width", coordinate n.drawnWidth), ("height", coordinate n.drawnHeight), ("rx", "6"), ("ry", "6")]) ∧
    ∀ n ∈ g.nodes, Reaches Node.left Node.width defaultWidth g.nodes g.canvasWidth n ∧
      Reaches Node.upper Node.height defaultHeight g.nodes g.canvasHeight n := by
  refine ⟨drawn_root g css rules, drawn_boxes g css rules, fun n hn => ⟨?_, ?_⟩⟩
  · rw [canvasWidth_eq]
    exact reaches_farEnd (fun m hm => (hplaced.x m hm).getD zero_nonneg) hplaced.width hn
  · rw [canvasHeight_eq]
    exact reaches_farEnd (fun m hm => (hplaced.y m hm).getD zero_nonneg) hplaced.height hn

theorem placed_of_forall {g : Graph} (h : ∀ n ∈ g.nodes, ∀ x ∈ [n.x, n.y, n.width, n.height], ∀ v ∈ x,
    v.isFinite = true ∧ 0 ≤ v) : g.Placed where
  x := fun n hn => h n hn n.x (by simp)
  y := fun n hn => h n hn n.y (by simp)
  width := fun n hn => h n hn n.width (by simp)
  height := fun n hn => h n hn n.height (by simp)

/-- A box with both sizes, and one that is drawn with the standard width. -/
def twoBoxes : Graph :=
  ⟨[{ id := "a", x := some 20, y := some 30, width := some 200, height := some 90 },
    { id := "b", x := some 60, height := some 40 }], []⟩

theorem canvas_of_placed_twoBoxes : twoBoxes.Placed ∧ ∀ n ∈ twoBoxes.nodes,
    Reaches Node.left Node.width defaultWidth twoBoxes.nodes twoBoxes.canvasWidth n := by
  have hplaced : twoBoxes.Placed := placed_of_forall (by decide +kernel)
  exact ⟨hplaced, fun n hn => ((canvas_of_placed twoBoxes "" {} hplaced).2.2 n hn).1⟩

def farBox : Graph := ⟨[{ id := "a", x := some 500, y := some 0 }], []⟩

/-- It is drawn from 500 to 620, on a canvas that ends at 540. -/
theorem box_beyond_canvas : farBox.Placed ∧
    (elementsOf [farBox.drawing "" {}]).head?.map (fun e => (e.tag.name, e.tag.attrs.lookup "viewBox")) =
      some ("svg", some "0 0 540 40") ∧
    (withRole ("rect", none) (elementsOf [farBox.drawing "" {}])).map (fun e => e.tag.attrs) =
      [[("x", "500"), ("y", "0"), ("width", "120"), ("height", "60"), ("rx", "6"), ("ry", "6")]] ∧
    farBox.canvasWidth = 540 ∧ ∀ n ∈ farBox.nodes, farBox.canvasWidth < n.left + n.drawnWidth := by
  refine ⟨placed_of_forall (by decide +kernel), ?_, ?_, by decide +kernel, by decide +kernel⟩
  · rw [drawn_root]
    decide +kernel
  · rw [drawn_boxes]
    decide +kernel

end MemoryCompiler.Diagram
