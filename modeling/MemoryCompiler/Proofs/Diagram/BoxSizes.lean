import MemoryCompiler.Diagram.Sizing
import MemoryCompiler.Proofs.Decimal.NearestWhole

/-!
# Box sizes, their bounds and the grid

A size is clamped to its bounds and then snapped to the grid, so it is a multiple of the grid between the
snapped bounds (`size_onGrid`). It keeps the bounds themselves where these are multiples of the grid. A bound
that is none may be snapped out of the interval, and the sizes go with it, although the interval contains a
multiple (`size_snapped_below`).
-/

namespace MemoryCompiler.Diagram

open Decimal
open Float.Model (UnpackedFloat Format)

namespace SizeRules

/-! ### Snapping -/

section snap

theorem decode_one : decode 1 = some ⟨false, 2 ^ 52, -52⟩ := by decide +kernel

theorem isFinite_one : (1 : Float).isFinite = true := isFinite_iff.2 ⟨_, decode_one⟩

theorem toReal_one : toReal 1 = 1 := by
  rw [toReal, decode_one]
  show Dyadic.value ⟨false, 2 ^ 52, -52⟩ = 1
  rw [Dyadic.value, if_neg Bool.false_ne_true, one_mul, zpow_neg]
  norm_num

variable {grid x y : Float} (hgrid : grid.isFinite = true) (hstep : 1 < grid)

include hgrid hstep

theorem one_lt_toReal : 1 < toReal grid := by
  have hlt := (toReal_lt_iff isFinite_one hgrid).2 hstep
  rwa [toReal_one] at hlt

theorem exists_rounded_div (hx : x.isFinite = true) : ∃ q : ℝ, rounded (toReal x / toReal grid) = q := by
  have hone := one_lt_toReal hgrid hstep
  have hzero := toReal_zero
  rcases le_total 0 (toReal x) with h | h
  · obtain ⟨q, hq, -⟩ := exists_rounded_eq isFinite_zero hx (by rw [hzero]; positivity) (div_le_self h hone.le)
    exact ⟨q, hq⟩
  · have hlow : toReal x ≤ toReal x / toReal grid := by
      rw [le_div_iff₀ (by linarith)]
      exact mul_le_of_one_le_right h hone.le
    obtain ⟨q, hq, -⟩ := exists_rounded_eq hx isFinite_zero hlow
      (by rw [hzero]; exact div_nonpos_of_nonpos_of_nonneg h (by linarith))
    exact ⟨q, hq⟩

/-- A size is snapped to the whole number of steps that is nearest to its own. -/
theorem exists_steps (hx : x.isFinite = true) : ∃ q : ℝ, rounded (toReal x / toReal grid) = q ∧
    value? (snap grid x) = some (rounded (⌊q + 1 / 2⌋ * toReal grid)) := by
  have hone := one_lt_toReal hgrid hstep
  obtain ⟨q, hq⟩ := exists_rounded_div hgrid hstep hx
  have hdivided := value?_div hx hgrid (by linarith)
  rw [hq] at hdivided
  obtain ⟨hfinite, hvalue⟩ := isFinite_of_value? hdivided
  obtain ⟨hwholeFinite, hwhole⟩ := toReal_nearestWhole hfinite
  have hnot : ¬ grid ≤ 1 := (not_le_iff hgrid isFinite_one).2 hstep
  refine ⟨q, hq, ?_⟩
  rw [snap, if_neg hnot, value?_mul hwholeFinite hgrid, hwhole, hvalue]

theorem snap_mono (hx : x.isFinite = true) (hy : y.isFinite = true) (hle : toReal x ≤ toReal y) :
    snap grid x ≤ snap grid y := by
  have hone := one_lt_toReal hgrid hstep
  obtain ⟨q, hq, hsnapx⟩ := exists_steps hgrid hstep hx
  obtain ⟨r, hr, hsnapy⟩ := exists_steps hgrid hstep hy
  have hsteps : q ≤ r := by
    rw [← EReal.coe_le_coe_iff, ← hq, ← hr]
    exact rounded_mono (div_le_div_of_nonneg_right hle (by linarith))
  have hwhole : ⌊q + 1 / 2⌋ ≤ ⌊r + 1 / 2⌋ := Int.floor_mono (by linarith)
  rw [le_iff_value? hsnapx hsnapy]
  exact rounded_mono (mul_le_mul_of_nonneg_right (by exact_mod_cast hwhole) (by linarith))

theorem snap_of_multiple (hx : x.isFinite = true) {k : ℤ} (hk : toReal x = k * toReal grid) :
    value? (snap grid x) = value? x := by
  have hone := one_lt_toReal hgrid hstep
  obtain ⟨q, hq, hsnap⟩ := exists_steps hgrid hstep hx
  have hsteps : q = k := by
    rw [hk, mul_div_cancel_right₀ _ (by linarith), rounded_of_multiple hx hgrid hone.le hk] at hq
    exact (EReal.coe_injective hq).symm
  have hfloor : ⌊(k : ℝ) + 1 / 2⌋ = k := by
    rw [Int.floor_intCast_add]
    norm_num
  rw [hsnap, hsteps, hfloor, ← hk, rounded_toReal hx, value?_of_isFinite hx]

end snap

/-! ### Clamping -/

theorem clamp_bounds {x low high : Float} {v : EReal} (hx : value? x = some v) (hlow : low.isFinite = true)
    (hhigh : high.isFinite = true) (hle : low ≤ high) :
    (clamp x low high).isFinite = true ∧ toReal low ≤ toReal (clamp x low high) ∧
      toReal (clamp x low high) ≤ toReal high := by
  have hvalue : value? (clamp x low high) = some (min (toReal high : EReal) (max (toReal low : EReal) v)) :=
    value?_smaller (value?_of_isFinite hhigh) (value?_larger (value?_of_isFinite hlow) hx)
  have hbounds : (toReal low : EReal) ≤ toReal high :=
    EReal.coe_le_coe_iff.2 ((toReal_le_iff hlow hhigh).2 hle)
  have hge : (toReal low : EReal) ≤ min (toReal high : EReal) (max (toReal low : EReal) v) :=
    le_min hbounds (le_max_left _ _)
  have hmost : min (toReal high : EReal) (max (toReal low : EReal) v) ≤ toReal high := min_le_left _ _
  have hreal := EReal.coe_toReal (ne_top_of_le_ne_top (EReal.coe_ne_top _) hmost)
    (ne_bot_of_le_ne_bot (EReal.coe_ne_bot _) hge)
  rw [← hreal] at hvalue hge hmost
  obtain ⟨hfinite, hclamp⟩ := isFinite_of_value? hvalue
  rw [hclamp]
  exact ⟨hfinite, EReal.coe_le_coe_iff.1 hge, EReal.coe_le_coe_iff.1 hmost⟩

/-! ### Sizes on the grid -/

/-- A size is a multiple of the grid and lies between the snapped bounds, so also between the bounds where
these are multiples. -/
structure OnGrid (grid low high size : Float) : Prop where
  /-- It is the double nearest to a multiple. -/
  multiple : ∃ k : ℤ, value? size = some (rounded (k * toReal grid))
  snap_low_le : snap grid low ≤ size
  le_snap_high : size ≤ snap grid high
  low_le : (∃ k : ℤ, toReal low = k * toReal grid) → low ≤ size
  le_high : (∃ k : ℤ, toReal high = k * toReal grid) → size ≤ high
  /-- With a whole grid it is a multiple itself, as long as doubles can count that far. -/
  exact : (∃ g : ℤ, toReal grid = g) → size.isFinite = true → |toReal size| < 2 ^ 53 →
    ∃ k : ℤ, toReal size = k * toReal grid

section onGrid

variable {grid low high x : Float} {v : EReal}

/-- A whole number of more than 53 bits is rounded to one that has as many. -/
theorem natAbs_lt_of_rounded {n : ℤ} {r : ℝ} (hn : rounded n = r) (hr : |r| < 2 ^ 53) : n.natAbs < 2 ^ 53 := by
  have hpower := rounded_two_pow (k := 53) (by decide)
  obtain ⟨hlow, hhigh⟩ := abs_lt.1 hr
  by_contra hmore
  rcases le_total 0 n with hsign | hsign
  · have hge : (2 : ℝ) ^ 53 ≤ n := by exact_mod_cast (show (2 ^ 53 : ℤ) ≤ n by omega)
    have hrounded := rounded_mono hge
    rw [hpower, hn, EReal.coe_le_coe_iff] at hrounded
    linarith
  · have hle : (n : ℝ) ≤ -(2 ^ 53) := by exact_mod_cast (show n ≤ -(2 ^ 53 : ℤ) by omega)
    have hrounded := rounded_mono hle
    rw [rounded_neg, hpower, hn, ← EReal.coe_neg, EReal.coe_le_coe_iff] at hrounded
    linarith

theorem exact_of_rounded {n : ℤ} {size : Float} (hsize : value? size = some (rounded n))
    (hfinite : size.isFinite = true) (hlt : |toReal size| < 2 ^ 53) : toReal size = n := by
  rw [value?_of_isFinite hfinite] at hsize
  have hvalue := Option.some.inj hsize
  obtain ⟨hnFinite, hn⟩ := toReal_ofInt (natAbs_lt_of_rounded hvalue.symm hlt)
  have hkept := rounded_toReal hnFinite
  rw [hn, ← hvalue] at hkept
  exact EReal.coe_injective hkept

theorem onGrid_snap_clamp (hgrid : grid.isFinite = true) (hstep : 1 < grid) (hlow : low.isFinite = true)
    (hhigh : high.isFinite = true) (hle : low ≤ high) (hx : value? x = some v) :
    OnGrid grid low high (snap grid (clamp x low high)) := by
  obtain ⟨hfinite, hge, hmost⟩ := clamp_bounds hx hlow hhigh hle
  obtain ⟨q, -, hsnap⟩ := exists_steps hgrid hstep hfinite
  have hlower := snap_mono hgrid hstep hlow hfinite hge
  have hupper := snap_mono hgrid hstep hfinite hhigh hmost
  refine ⟨⟨_, hsnap⟩, hlower, hupper, ?_, ?_, ?_⟩
  · rintro ⟨k, hk⟩
    obtain ⟨a, b, ha, hb, hab⟩ := value?_of_le hlower
    rw [snap_of_multiple hgrid hstep hlow hk] at ha
    exact (le_iff_value? ha hb).2 hab
  · rintro ⟨k, hk⟩
    obtain ⟨a, b, ha, hb, hab⟩ := value?_of_le hupper
    rw [snap_of_multiple hgrid hstep hhigh hk] at hb
    exact (le_iff_value? ha hb).2 hab
  · rintro ⟨g, hg⟩ hsizeFinite hlt
    rw [hg, ← Int.cast_mul] at hsnap
    refine ⟨⌊q + 1 / 2⌋, ?_⟩
    rw [exact_of_rounded hsnap hsizeFinite hlt, hg, Int.cast_mul]

end onGrid

/-! ### Roots of areas -/

section roots

theorem exists_value?_of_pos {x : Float} (h : 0 < x) : ∃ v, value? x = some v ∧ 0 < v := by
  obtain ⟨z, v, hz, hv, hlt⟩ := value?_of_lt h
  rw [value?_of_isFinite isFinite_zero, toReal_zero] at hz
  obtain rfl := Option.some.inj hz
  exact ⟨v, hv, hlt⟩

variable {x y : Float} {v : EReal}

theorem exists_value?_sqrt (hx : value? x = some v) (hv : 0 ≤ v) : ∃ w, value? x.sqrt = some w := by
  induction v with
  | bot => exact absurd hv (not_le.2 EReal.bot_lt_zero)
  | top => exact ⟨⊤, value?_sqrt_top hx⟩
  | coe r =>
    obtain ⟨hfinite, rfl⟩ := isFinite_of_value? hx
    exact ⟨_, value?_sqrt hfinite (EReal.coe_nonneg.1 hv)⟩

variable (hx : 0 < x) (hy : y.isFinite = true) (hpos : 0 < y)

include hx hy hpos

theorem exists_value?_mul : ∃ w, value? (x * y) = some w ∧ 0 ≤ w := by
  obtain ⟨v, hv, hlt⟩ := exists_value?_of_pos hx
  have hreal := toReal_pos hy hpos
  induction v with
  | bot => exact absurd hlt not_lt_bot
  | top => exact ⟨⊤, value?_mul_top hv hy hreal, le_top⟩
  | coe r =>
    obtain ⟨hfinite, rfl⟩ := isFinite_of_value? hv
    exact ⟨_, value?_mul hfinite hy, rounded_nonneg (mul_nonneg (EReal.coe_pos.1 hlt).le hreal.le)⟩

theorem exists_value?_div : ∃ w, value? (x / y) = some w ∧ 0 ≤ w := by
  obtain ⟨v, hv, hlt⟩ := exists_value?_of_pos hx
  have hreal := toReal_pos hy hpos
  induction v with
  | bot => exact absurd hlt not_lt_bot
  | top => exact ⟨⊤, value?_div_top hv hy hreal, le_top⟩
  | coe r =>
    obtain ⟨hfinite, rfl⟩ := isFinite_of_value? hv
    exact ⟨_, value?_div hfinite hy hreal.ne', rounded_nonneg (div_nonneg (EReal.coe_pos.1 hlt).le hreal.le)⟩

end roots

/-! ### Rules that are read -/

def FiniteSizings (known : List (String × CategorySizing)) : Prop :=
  ∀ c ∈ known, c.2.metric.isFinite = true ∧ c.2.aspect.isFinite = true

/-- The numbers of some rules are finite. -/
structure AllFinite (r : SizeRules) : Prop where
  baseArea : r.baseArea.isFinite = true
  growth : r.growth.isFinite = true
  minWidth : r.minWidth.isFinite = true
  maxWidth : r.maxWidth.isFinite = true
  minHeight : r.minHeight.isFinite = true
  maxHeight : r.maxHeight.isFinite = true
  grid : r.grid.isFinite = true
  defaultMetric : r.defaultMetric.isFinite = true
  categories : FiniteSizings r.categories

section finite

variable {known : List (String × CategorySizing)}

theorem isFinite_of_finite? {d : Document} {x : Float} (h : d.finite? = some x) : x.isFinite = true := by
  cases d with
  | undefined | null | boolean | integer | list | record => cases h
  | number y =>
    rw [Document.finite?] at h
    split_ifs at h with hfinite
    exact Option.some.inj h ▸ hfinite
  | text s =>
    rw [Document.finite?] at h
    split_ifs at h
    exact (Option.filter_eq_some_iff.1 h).2

theorem isFinite_getD {d : Document} {other : Float} (h : other.isFinite = true) :
    (d.finite?.getD other).isFinite = true := by
  cases hd : d.finite? with
  | none => exact h
  | some x => exact isFinite_of_finite? hd

theorem isFinite_lookup (hknown : FiniteSizings known) {value : CategorySizing → Float}
    (hvalue : ∀ c : CategorySizing, c.metric.isFinite = true ∧ c.aspect.isFinite = true →
      (value c).isFinite = true) {other : Float} (hother : other.isFinite = true) (name : String) :
    (((known.lookup name).map value).getD other).isFinite = true := by
  cases hlookup : known.lookup name with
  | none => exact hother
  | some c =>
    obtain ⟨before, after, rfl, -⟩ := List.lookup_eq_some_iff.1 hlookup
    exact hvalue c (hknown (name, c) (by simp))

theorem isFinite_aspect (hknown : FiniteSizings known) (name : String) :
    (((known.lookup name).map CategorySizing.aspect).getD defaultAspect).isFinite = true :=
  isFinite_lookup hknown (fun _ h => h.2) (by decide +kernel) name

theorem FiniteSizings.setField (hknown : FiniteSizings known) (name : String) {c : CategorySizing}
    (hc : c.metric.isFinite = true ∧ c.aspect.isFinite = true) :
    FiniteSizings (Document.setField name c known) := by
  induction known with
  | nil =>
    intro f hf
    rw [List.mem_singleton.1 hf]
    exact hc
  | cons f rest ih =>
    have hrest : FiniteSizings rest := fun g hg => hknown g (List.mem_cons_of_mem _ hg)
    intro g hg
    rw [Document.setField] at hg
    split_ifs at hg
    · rcases List.mem_cons.1 hg with rfl | hg
      · exact hc
      · exact hrest g hg
    · rcases List.mem_cons.1 hg with rfl | hg
      · exact hknown _ List.mem_cons_self
      · exact ih hrest g hg

theorem isFinite_readCategory (hknown : FiniteSizings known) (name : String) (d : Document) :
    (readCategory known name d).metric.isFinite = true ∧ (readCategory known name d).aspect.isFinite = true :=
  ⟨isFinite_getD (isFinite_lookup hknown (fun _ h => h.1) (by decide +kernel) name),
    isFinite_getD (isFinite_aspect hknown name)⟩

theorem finiteSizings_standard : FiniteSizings standard.categories := by
  unfold FiniteSizings
  decide +kernel

theorem allFinite_ofDocument (d : Document) : (ofDocument d).AllFinite where
  baseArea := isFinite_getD (by decide +kernel)
  growth := isFinite_getD (by decide +kernel)
  minWidth := isFinite_getD (by decide +kernel)
  maxWidth := isFinite_getD (by decide +kernel)
  minHeight := isFinite_getD (by decide +kernel)
  maxHeight := isFinite_getD (by decide +kernel)
  grid := isFinite_getD (by decide +kernel)
  defaultMetric := isFinite_getD (by decide +kernel)
  categories := by
    show FiniteSizings (List.foldl _ _ _)
    generalize ((d.field "categories").fields?).getD [] = fields
    generalize hstart : standard.categories = known
    have hknown : FiniteSizings known := hstart ▸ finiteSizings_standard
    clear hstart
    induction fields generalizing known with
    | nil => exact hknown
    | cons f rest ih => exact ih _ (hknown.setField f.1 (isFinite_readCategory hknown f.1 f.2))

end finite

/-! ### Boxes -/

def area (r : SizeRules) (n : Node) : Float :=
  r.baseArea + r.growth * (larger 0 (r.metric n (n.category.getD defaultCategory))).sqrt

def aspect (r : SizeRules) (n : Node) : Float :=
  ((r.categories.lookup (n.category.getD defaultCategory)).map CategorySizing.aspect).getD defaultAspect

theorem sizeNode_of_not_isSized (r : SizeRules) {n : Node} (h : n.isSized = false) : r.sizeNode n =
    { n with
      width := some (snap r.grid (clamp (r.area n * r.aspect n).sqrt r.minWidth r.maxWidth))
      height := some (snap r.grid (clamp (r.area n / r.aspect n).sqrt r.minHeight r.maxHeight)) } := by
  rw [sizeNode, if_neg (by rw [h]; decide)]
  rfl

/-- What becomes of a box: one that has both sizes keeps them, and any other one gets sizes on the grid. -/
structure Sized (r : SizeRules) (n sized : Node) : Prop where
  others : sized = { n with width := sized.width, height := sized.height }
  kept : n.isSized = true → sized = n
  onGrid : n.isSized = false → 0 < r.area n → 0 < r.aspect n → ∃ w h, sized.width = some w ∧ sized.height = some h ∧
    OnGrid r.grid r.minWidth r.maxWidth w ∧ OnGrid r.grid r.minHeight r.maxHeight h

theorem sized_sizeNode {r : SizeRules} (hfinite : r.AllFinite) (hstep : 1 < r.grid)
    (hwidth : r.minWidth ≤ r.maxWidth) (hheight : r.minHeight ≤ r.maxHeight) (n : Node) :
    Sized r n (r.sizeNode n) := by
  by_cases hn : n.isSized = true
  · have hkept : r.sizeNode n = n := if_pos hn
    rw [hkept]
    exact ⟨rfl, fun _ => rfl, fun h => absurd hn (by rw [h]; decide)⟩
  · rw [sizeNode_of_not_isSized r (Bool.not_eq_true _ ▸ hn)]
    refine ⟨rfl, fun h => absurd h hn, fun _ harea haspect => ⟨_, _, rfl, rfl, ?_, ?_⟩⟩
    · obtain ⟨w, hproduct, hw⟩ := exists_value?_mul harea (isFinite_aspect hfinite.categories _) haspect
      obtain ⟨root, hroot⟩ := exists_value?_sqrt hproduct hw
      exact onGrid_snap_clamp hfinite.grid hstep hfinite.minWidth hfinite.maxWidth hwidth hroot
    · obtain ⟨w, hquotient, hw⟩ := exists_value?_div harea (isFinite_aspect hfinite.categories _) haspect
      obtain ⟨root, hroot⟩ := exists_value?_sqrt hquotient hw
      exact onGrid_snap_clamp hfinite.grid hstep hfinite.minHeight hfinite.maxHeight hheight hroot

/-- **Boxes are sized on the grid.** Sizes that are given and all other fields stay as they are. -/
theorem size_onGrid (d : Document) (g : Graph) (hstep : 1 < (ofDocument d).grid)
    (hwidth : (ofDocument d).minWidth ≤ (ofDocument d).maxWidth)
    (hheight : (ofDocument d).minHeight ≤ (ofDocument d).maxHeight) :
    (g.size (ofDocument d)).edges = g.edges ∧
      List.Forall₂ (Sized (ofDocument d)) g.nodes (g.size (ofDocument d)).nodes := by
  refine ⟨rfl, ?_⟩
  show List.Forall₂ _ g.nodes (g.nodes.map (ofDocument d).sizeNode)
  rw [List.forall₂_map_right_iff]
  exact List.forall₂_same.2 fun n _ => sized_sizeNode (allFinite_ofDocument d) hstep hwidth hheight n

/-- Rules with bounds that are no multiples of their grid and with a sizing of their own for a category. -/
def unevenRules : Document :=
  .record [("min_w", .number 94), ("max_w", .number 250), ("min_h", .number 33), ("max_h", .number 151),
    ("grid", .number 12),
    ("categories", .record [("mem", .record [("metric", .number 40), ("aspect", .number 2.5)])])]

/-- A box that is too large, one with both sizes, and one with a width only. -/
def unevenGraph : Graph where
  nodes := [{ id := "a", category := some "mem", attrs := [("metric", "900")] },
    { id := "b", width := some 95, height := some 34 },
    { id := "c", attrs := [("ports", "0.5")], width := some 50 }]
  edges := [{ source := "a", target := "b" }]

theorem size_onGrid_uneven : 1 < (ofDocument unevenRules).grid ∧
    (ofDocument unevenRules).minWidth ≤ (ofDocument unevenRules).maxWidth ∧
    (ofDocument unevenRules).minHeight ≤ (ofDocument unevenRules).maxHeight ∧
    (unevenGraph.size (ofDocument unevenRules)).edges = unevenGraph.edges ∧
    List.Forall₂ (Sized (ofDocument unevenRules)) unevenGraph.nodes
      (unevenGraph.size (ofDocument unevenRules)).nodes ∧
    (unevenGraph.size (ofDocument unevenRules)).nodes.map (fun n => (n.width, n.height)) =
      [(some 252, some 144), (some 95, some 34), (some 120, some 60)] := by
  have hstep : 1 < (ofDocument unevenRules).grid := by decide +kernel
  have hwidth : (ofDocument unevenRules).minWidth ≤ (ofDocument unevenRules).maxWidth := by decide +kernel
  have hheight : (ofDocument unevenRules).minHeight ≤ (ofDocument unevenRules).maxHeight := by decide +kernel
  obtain ⟨hedges, hnodes⟩ := size_onGrid unevenRules unevenGraph hstep hwidth hheight
  exact ⟨hstep, hwidth, hheight, hedges, hnodes, by decide +kernel⟩

/-- The rules of a document that only raises the least width to 94. -/
def narrowRules : SizeRules := ofDocument (.record [("min_w", .number 94)])

/-- A box of the least width 94 is snapped down to 90, although 100 is a multiple of the grid in the interval. -/
theorem size_snapped_below : narrowRules.grid = 10 ∧ narrowRules.minWidth = 94 ∧ narrowRules.maxWidth = 300 ∧
    narrowRules.minHeight = 40 ∧ narrowRules.maxHeight = 160 ∧
    ((Graph.size ⟨[{ id := "a", category := some "io" }], []⟩ narrowRules).nodes.map Node.width) = [some 90] ∧
    (90 : Float) < narrowRules.minWidth ∧ 0 < narrowRules.area { id := "a", category := some "io" } ∧
    0 < narrowRules.aspect { id := "a", category := some "io" } := by
  decide +kernel

end SizeRules

end MemoryCompiler.Diagram
