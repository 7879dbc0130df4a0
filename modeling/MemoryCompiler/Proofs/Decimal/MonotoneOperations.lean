import MemoryCompiler.Proofs.Decimal.NearestWhole

/-!
# Operations that keep the order

Addition, multiplication, division and the square root round an exact result that grows with its operand.
Rounding keeps the order, so the doubles grow as well (`Ascending.map`), also where they become infinite.
-/

namespace MemoryCompiler.Decimal

/-- Two doubles in order, neither of them negative. -/
structure Ascending (x y : Float) : Prop where
  nonneg : 0 ≤ x
  le : x ≤ y

section ascending

variable {x y c : Float}

theorem value?_zero : value? 0 = some (0 : EReal) := by
  rw [value?_of_isFinite isFinite_zero, toReal_zero, EReal.coe_zero]

theorem ascending_iff {v w : EReal} (hx : value? x = some v) (hy : value? y = some w) :
    Ascending x y ↔ 0 ≤ v ∧ v ≤ w := by
  constructor
  · intro h
    exact ⟨(le_iff_value? value?_zero hx).1 h.nonneg, (le_iff_value? hx hy).1 h.le⟩
  · intro h
    exact ⟨(le_iff_value? value?_zero hx).2 h.1, (le_iff_value? hx hy).2 h.2⟩

theorem Ascending.values (h : Ascending x y) :
    ∃ v w, value? x = some v ∧ value? y = some w ∧ 0 ≤ v ∧ v ≤ w := by
  obtain ⟨v, w, hv, hw, -⟩ := value?_of_le h.le
  exact ⟨v, w, hv, hw, (ascending_iff hv hw).1 h⟩

theorem ascending_of_isFinite (hx : x.isFinite = true) (hy : y.isFinite = true) :
    Ascending x y ↔ 0 ≤ toReal x ∧ toReal x ≤ toReal y := by
  rw [ascending_iff (value?_of_isFinite hx) (value?_of_isFinite hy), EReal.coe_nonneg, EReal.coe_le_coe_iff]

theorem Ascending.cases (h : Ascending x y) :
    (x.isFinite = true ∧ y.isFinite = true ∧ 0 ≤ toReal x ∧ toReal x ≤ toReal y) ∨ value? y = some ⊤ := by
  obtain ⟨v, w, hv, hw, hnonneg, hle⟩ := h.values
  induction w with
  | bot => exact absurd (hnonneg.trans hle) (not_le.2 EReal.bot_lt_zero)
  | top => exact .inr hw
  | coe b =>
    induction v with
    | bot => exact absurd hnonneg (not_le.2 EReal.bot_lt_zero)
    | top => exact absurd hle (not_le.2 (EReal.coe_lt_top b))
    | coe a =>
      obtain ⟨hx, rfl⟩ := isFinite_of_value? hv
      obtain ⟨hy, rfl⟩ := isFinite_of_value? hw
      exact .inl ⟨hx, hy, EReal.coe_nonneg.1 hnonneg, EReal.coe_le_coe_iff.1 hle⟩

theorem Ascending.left (h : Ascending x y) : Ascending x x := by
  obtain ⟨v, w, hv, -, hnonneg, -⟩ := h.values
  exact (ascending_iff hv hv).2 ⟨hnonneg, le_refl v⟩

end ascending

/-- An operation on doubles that rounds a function which grows on the numbers from zero on, and that leaves
the infinite double infinite. -/
structure RoundsGrowing (f : Float → Float) (F : ℝ → ℝ) : Prop where
  nonneg : ∀ a, 0 ≤ a → 0 ≤ F a
  mono : ∀ a b, 0 ≤ a → a ≤ b → F a ≤ F b
  finite : ∀ x : Float, x.isFinite = true → 0 ≤ toReal x → value? (f x) = some (rounded (F (toReal x)))
  infinite : ∀ x : Float, value? x = some ⊤ → value? (f x) = some ⊤

section growing

variable {f : Float → Float} {F : ℝ → ℝ} {x y c : Float}

theorem RoundsGrowing.exists_value? (hf : RoundsGrowing f F) (h : Ascending x x) :
    ∃ v, value? (f x) = some v ∧ 0 ≤ v := by
  obtain ⟨hx, -, hnonneg, -⟩ | htop := h.cases
  · exact ⟨_, hf.finite x hx hnonneg, rounded_nonneg (hf.nonneg _ hnonneg)⟩
  · exact ⟨⊤, hf.infinite x htop, le_top⟩

theorem Ascending.map (hf : RoundsGrowing f F) (h : Ascending x y) : Ascending (f x) (f y) := by
  obtain ⟨hx, hy, hnonneg, hle⟩ | htop := h.cases
  · rw [ascending_iff (hf.finite x hx hnonneg) (hf.finite y hy (hnonneg.trans hle))]
    exact ⟨rounded_nonneg (hf.nonneg _ hnonneg), rounded_mono (hf.mono _ _ hnonneg hle)⟩
  · obtain ⟨v, hv, hvalue⟩ := hf.exists_value? h.left
    rw [ascending_iff hv (hf.infinite y htop)]
    exact ⟨hvalue, le_top⟩

theorem roundsGrowing_sqrt : RoundsGrowing Float.sqrt Real.sqrt where
  nonneg := fun a _ => Real.sqrt_nonneg a
  mono := fun _ _ _ h => Real.sqrt_le_sqrt h
  finite := fun _ => value?_sqrt
  infinite := fun _ => value?_sqrt_top

theorem roundsGrowing_mul (hc : c.isFinite = true) (hpos : 0 < c) :
    RoundsGrowing (fun x => x * c) (fun a => a * toReal c) where
  nonneg := fun _ ha => mul_nonneg ha (toReal_pos hc hpos).le
  mono := fun _ _ _ h => mul_le_mul_of_nonneg_right h (toReal_pos hc hpos).le
  finite := fun _ hx _ => value?_mul hx hc
  infinite := fun _ hx => value?_mul_top hx hc (toReal_pos hc hpos)

theorem roundsGrowing_div (hc : c.isFinite = true) (hpos : 0 < c) :
    RoundsGrowing (fun x => x / c) (fun a => a / toReal c) where
  nonneg := fun _ ha => div_nonneg ha (toReal_pos hc hpos).le
  mono := fun _ _ _ h => div_le_div_of_nonneg_right h (toReal_pos hc hpos).le
  finite := fun _ hx _ => value?_div hx hc (toReal_pos hc hpos).ne'
  infinite := fun _ hx => value?_div_top hx hc (toReal_pos hc hpos)

theorem value?_add_top_right (hc : c.isFinite = true) (hx : value? x = some ⊤) : value? (c + x) = some ⊤ := by
  show value? (.ofModel (.pack (Float.Model.UnpackedFloat.add Float.Model.Format.binary64 c.toModel.unpack
    x.toModel.unpack))) = _
  rw [unpack_of_top hx]
  obtain ⟨s, hcu, -⟩ | ⟨s, m, e, hm, hcu, -⟩ := unpack_cases hc
  · rw [hcu]
    exact value?_pack_infinity .positive
  · rw [hcu]
    exact value?_pack_infinity .positive

theorem roundsGrowing_add (hc : c.isFinite = true) (hnonneg : 0 ≤ c) :
    RoundsGrowing (fun x => c + x) (fun a => toReal c + a) where
  nonneg := fun _ ha => add_nonneg (toReal_nonneg hc hnonneg) ha
  mono := fun _ _ _ h => add_le_add_right h _
  finite := fun _ hx _ => value?_add hc hx
  infinite := fun _ hx => value?_add_top_right hc hx

/-- A factor of zero is no obstacle as long as the operands are finite. -/
theorem Ascending.mul_left (hc : c.isFinite = true) (hnonneg : 0 ≤ c) (hx : x.isFinite = true)
    (hy : y.isFinite = true) (h : Ascending x y) : Ascending (c * x) (c * y) := by
  have hfactor := toReal_nonneg hc hnonneg
  obtain ⟨hreal, hle⟩ := (ascending_of_isFinite hx hy).1 h
  rw [ascending_iff (value?_mul hc hx) (value?_mul hc hy)]
  exact ⟨rounded_nonneg (mul_nonneg hfactor hreal), rounded_mono (mul_le_mul_of_nonneg_left hle hfactor)⟩

/-- The root of a finite double is finite: it is at most the double or at most one. -/
theorem isFinite_sqrt (hx : x.isFinite = true) (hnonneg : 0 ≤ x) : x.sqrt.isFinite = true := by
  have hreal := toReal_nonneg hx hnonneg
  have hroot := Real.sqrt_nonneg (toReal x)
  have hbound : ∃ r : ℝ, rounded √(toReal x) = r := by
    rcases le_total (toReal x) 1 with hone | hone
    · have hle : √(toReal x) ≤ 2 ^ 0 := by simpa using hone
      have hrounded : rounded √(toReal x) ≤ ((2 ^ 0 : ℝ) : EReal) :=
        (rounded_mono hle).trans (rounded_two_pow (k := 0) (by decide)).le
      exact ⟨_, (EReal.coe_toReal (ne_top_of_le_ne_top (EReal.coe_ne_top _) hrounded)
        (ne_bot_of_le_ne_bot EReal.zero_ne_bot (rounded_nonneg hroot))).symm⟩
    · have hle : √(toReal x) ≤ toReal x := Real.sqrt_le_iff.2 ⟨hreal, le_self_pow₀ hone two_ne_zero⟩
      obtain ⟨r, hr, -⟩ := exists_rounded_eq isFinite_zero hx (toReal_zero.trans_le hroot) hle
      exact ⟨r, hr⟩
  obtain ⟨r, hr⟩ := hbound
  have hvalue := value?_sqrt hx hreal
  rw [hr] at hvalue
  exact (isFinite_of_value? hvalue).1

theorem Ascending.larger_zero (hx : x.isFinite = true) (hy : y.isFinite = true) (h : x ≤ y) :
    Ascending (larger 0 x) (larger 0 y) := by
  have hle := (le_iff_value? (value?_of_isFinite hx) (value?_of_isFinite hy)).1 h
  rw [ascending_iff (value?_larger value?_zero (value?_of_isFinite hx))
    (value?_larger value?_zero (value?_of_isFinite hy))]
  exact ⟨le_max_left _ _, max_le_max_left _ hle⟩

theorem isFinite_larger_zero (hx : x.isFinite = true) : (larger 0 x).isFinite = true := by
  have hvalue := value?_larger value?_zero (value?_of_isFinite hx)
  rcases max_choice (0 : EReal) (toReal x) with hmax | hmax
  · rw [hmax] at hvalue
    exact (isFinite_of_value? hvalue).1
  · rw [hmax] at hvalue
    exact (isFinite_of_value? hvalue).1

theorem clamp_mono {low high : Float} (hlow : low.isFinite = true) (hhigh : high.isFinite = true) (h : x ≤ y) :
    clamp x low high ≤ clamp y low high := by
  obtain ⟨v, w, hv, hw, hle⟩ := value?_of_le h
  have hclamp : ∀ {z : Float} {u : EReal}, value? z = some u →
      value? (clamp z low high) = some (min (toReal high : EReal) (max (toReal low : EReal) u)) := fun hz =>
    value?_smaller (value?_of_isFinite hhigh) (value?_larger (value?_of_isFinite hlow) hz)
  rw [le_iff_value? (hclamp hv) (hclamp hw)]
  exact min_le_min_left _ (max_le_max_left _ hle)

end growing

end MemoryCompiler.Decimal
