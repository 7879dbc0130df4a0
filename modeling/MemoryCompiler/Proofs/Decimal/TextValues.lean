import MemoryCompiler.Proofs.Decimal.ReadBack
import MemoryCompiler.Proofs.Decimal.Reals
import MemoryCompiler.Proofs.Decimal.RoundingIntervals

/-!
# Texts of different doubles

However digits are laid out, positionally or with an exponent, the numeral is read as their value
(`parts?_layOut`), and the value of the shortest digits lies in the rounding interval of one double only. So
different doubles have different texts, but for the two zeros (`text_inj`).
-/

namespace MemoryCompiler.Decimal

/-! ### The value of a layout -/

/-- The number that the parts of a numeral write, before it is rounded. -/
def Parts.exact (p : Parts) : ℚ :=
  digitsValue 10 (p.whole ++ p.fraction) * 10 ^ (p.exponent - p.fraction.length)

theorem isDigit_of_mem_zeros {n : Nat} {c : Char} (h : c ∈ zeros n) : c.isDigit = true := by
  rw [List.eq_of_mem_replicate h]
  decide

theorem digitsValue_zeros_append (n : Nat) (cs : List Char) :
    digitsValue 10 (zeros n ++ cs) = digitsValue 10 cs := by
  induction n with
  | zero => rfl
  | succ n ih => exact ih

/-- A layout writes the digits with some places behind the point, and an exponent that makes up for them. -/
theorem parts?_layOut (l : Layout) {d : Digits} (hd : 0 < d.digits) :
    ∃ p, parts? (d.layOut l) = some p ∧ p.exact = d.value := by
  have hwhole := digitChars_mul_ten_pow hd
  have hvalue := digitsValue_digitChars d.digits
  have hdigits : ∀ c ∈ digitChars d.digits, c.isDigit = true := fun _ => isDigit_of_mem_digitChars
  have hne : digitChars d.digits ≠ [] := Nat.toDigits_ne_nil
  -- The digits in front of the point and those behind it are the digits, and the scale is kept.
  have hexact : ∀ {before behind : List Char} {hasPoint : Bool} {e : Int},
      digitsValue 10 (before ++ behind) = d.digits → e - behind.length = d.scale →
        (Parts.mk before behind hasPoint e).exact = d.value := by
    intro before behind hasPoint e hsame hscale
    rw [Parts.exact, hsame, hscale, Digits.value]
  rw [Digits.layOut]
  generalize digitChars d.digits = ds at *
  split_ifs with hzeros hpoint hsmall
  · -- Zeros behind the digits make a whole number.
    obtain ⟨u, hu⟩ := Int.eq_ofNat_of_zero_le (show 0 ≤ d.scale by omega)
    have hcount : (d.scale + ds.length - ds.length).toNat = u := by omega
    rw [hcount, ← hwhole u]
    refine ⟨_, parts?_digitChars _, ?_⟩
    rw [Parts.exact, Digits.value, List.append_nil, digitsValue_digitChars, hu]
    simp
  · generalize hplaces : (d.scale + ds.length).toNat = n
    have hbefore : ∀ c ∈ ds.take n, c.isDigit = true := fun c hc => hdigits c (List.mem_of_mem_take hc)
    have hbehind : ∀ c ∈ ds.drop n, c.isDigit = true := fun c hc => hdigits c (List.mem_of_mem_drop hc)
    have hparts := parts?_point hbefore hbehind isTail_nil
    rw [List.append_nil] at hparts
    refine ⟨_, hparts, hexact ?_ ?_⟩
    · rw [List.take_append_drop, hvalue]
    · rw [List.length_drop]
      omega
  · have hzero : ∀ c ∈ ['0'], c.isDigit = true := List.forall_mem_singleton.2 (by decide)
    have hbehind : ∀ c ∈ zeros (-(d.scale + ds.length)).toNat ++ ds, c.isDigit = true :=
      List.forall_mem_append.2 ⟨fun _ => isDigit_of_mem_zeros, hdigits⟩
    have hparts := parts?_point hzero hbehind isTail_nil
    rw [List.append_nil] at hparts
    refine ⟨_, hparts, hexact ?_ ?_⟩
    · exact (digitsValue_zeros_append (_ + 1) ds).trans hvalue
    · rw [List.length_append, zeros, List.length_replicate]
      omega
  · cases ds with
    | nil => exact absurd rfl hne
    | cons c ds =>
      have hfirst : ∀ x ∈ [c], x.isDigit = true := List.forall_mem_singleton.2 (hdigits c List.mem_cons_self)
      have hrest : ∀ x ∈ ds, x.isDigit = true := fun x hx => hdigits x (List.mem_cons_of_mem c hx)
      cases ds with
      | nil =>
        refine ⟨_, parts?_whole hfirst (isTail_exponentChars _), hexact hvalue ?_⟩
        rw [List.length_singleton, List.length_nil]
        omega
      | cons c' ds =>
        refine ⟨_, parts?_point hfirst hrest (isTail_exponentChars _), hexact hvalue ?_⟩
        rw [List.length_cons, List.length_cons]
        omega

/-! ### Numerals of doubles -/

section numerals

variable {a b : Dyadic} (ha : a.Canonical) (hpos : 0 < a.mantissa)

include ha hpos

theorem exists_parts_shortest :
    ∃ p, parts? ((shortest a).layOut standardLayout) = some p ∧ p.exact = (shortest a).value :=
  parts?_layOut standardLayout (shortest_pos ha hpos)

theorem eq_of_layOut_eq (hb : b.Canonical) (hpos' : 0 < b.mantissa)
    (h : (shortest a).layOut standardLayout = (shortest b).layOut standardLayout) :
    a.mantissa = b.mantissa ∧ a.exponent = b.exponent := by
  obtain ⟨p, hp, hvalue⟩ := exists_parts_shortest ha hpos
  obtain ⟨q, hq, hvalue'⟩ := exists_parts_shortest hb hpos'
  rw [h, hq] at hp
  cases hp
  have hholds := holds_shortest ha hpos
  rw [← hvalue, hvalue'] at hholds
  exact eq_of_holds ha hb hholds (holds_shortest hb hpos')

theorem layOut_ne_minus (cs : List Char) : (shortest a).layOut standardLayout ≠ '-' :: cs := by
  intro h
  obtain ⟨p, hp, -⟩ := exists_parts_shortest ha hpos
  rw [h] at hp
  cases hp

theorem layOut_ne_zero : (shortest a).layOut standardLayout ≠ ['0'] := by
  intro h
  have hvalue : (0 : ℚ) < (shortest a).value :=
    mul_pos (by exact_mod_cast shortest_pos ha hpos) (by positivity)
  obtain ⟨p, hp, hexact⟩ := exists_parts_shortest ha hpos
  have hzero : parts? ['0'] = some ⟨['0'], [], false, 0⟩ := rfl
  rw [h, hzero, Option.some.injEq] at hp
  have hnone : digitsValue 10 ['0'] = 0 := by decide
  rw [← hexact, ← hp, Parts.exact, List.append_nil, hnone, Nat.cast_zero, zero_mul] at hvalue
  exact lt_irrefl 0 hvalue

end numerals

/-! ### Texts of doubles -/

section text

variable {x y : Float} {a b : Dyadic}

theorem toList_text (hx : decode x = some a) (hpos : 0 < a.mantissa) : (text x).toList =
    (if a.negative then ['-'] else []) ++ (shortest a).layOut standardLayout := by
  rw [text, hx]
  dsimp only
  rw [if_neg hpos.ne']
  split_ifs
  · simp
  · simp

theorem text_ne_of_zero (hx : decode x = some a) (hy : decode y = some b) (hpos : 0 < a.mantissa)
    (hzero : b.mantissa = 0) : text x ≠ text y := by
  intro h
  have hnought : text y = "0" := by
    rw [text, hy]
    exact if_pos hzero
  have hlist := toList_text hx hpos
  rw [h, hnought] at hlist
  split_ifs at hlist
  · cases (List.cons.inj hlist).1
  · exact layOut_ne_zero (canonical_of_decode hx) hpos hlist.symm

theorem text_inj (hx : x.isFinite = true) (hy : y.isFinite = true) (hne : toReal x ≠ 0) :
    text x = text y ↔ x = y := by
  refine ⟨fun h => ?_, congrArg text⟩
  obtain ⟨a, ha⟩ := isFinite_iff.1 hx
  obtain ⟨b, hb⟩ := isFinite_iff.1 hy
  have hpos : 0 < a.mantissa := by
    refine Nat.pos_of_ne_zero fun hzero => hne ?_
    rw [toReal_of_decode ha, units_of_mantissa_eq_zero hzero, Int.cast_zero, zero_mul]
  have hpos' : 0 < b.mantissa := Nat.pos_of_ne_zero fun hzero => text_ne_of_zero ha hb hpos hzero h
  have hcanonical := canonical_of_decode ha
  have hcanonical' := canonical_of_decode hb
  have hlists := congrArg String.toList h
  rw [toList_text ha hpos, toList_text hb hpos'] at hlists
  -- The signs agree, and behind them the numerals do.
  obtain ⟨hsign, hnumerals⟩ : a.negative = b.negative ∧
      (shortest a).layOut standardLayout = (shortest b).layOut standardLayout := by
    cases hnegative : a.negative <;> cases hnegative' : b.negative <;> rw [hnegative, hnegative'] at hlists
    · exact ⟨rfl, hlists⟩
    · exact absurd hlists (layOut_ne_minus hcanonical hpos _)
    · exact absurd hlists.symm (layOut_ne_minus hcanonical' hpos' _)
    · exact ⟨rfl, (List.cons.inj hlists).2⟩
  obtain ⟨hmantissa, hexponent⟩ := eq_of_layOut_eq hcanonical hpos hcanonical' hpos' hnumerals
  have hsame : a = b := by
    rw [Dyadic.mk.injEq]
    exact ⟨hsign, hmantissa, hexponent⟩
  exact decode_injective ha (hsame ▸ hb)

end text

end MemoryCompiler.Decimal
