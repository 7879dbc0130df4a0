import MemoryCompiler.Decimal.Numeral
import MemoryCompiler.Proofs.Decimal.ShortestDigits
import MemoryCompiler.Proofs.Text.Characters

/-!
# Whole doubles read back

A numeral without a fraction is read as the nearest double, and the shortest digits of a whole double lie
inside its rounding interval, so the text of a whole double is read as a double of the same value
(`denotes_text`). Only the sign of a zero is lost.
-/

namespace MemoryCompiler.Decimal

open Float.Model (UnpackedFloat Format)
open Float.Model.UnpackedFloat

/-! ### Digits -/

section digits

variable {c : Char} {cs : List Char}

theorem isDigit_iff : c.isDigit = true ↔ 48 ≤ c.toNat ∧ c.toNat ≤ 57 := by
  simp only [Char.isDigit, Bool.and_eq_true, decide_eq_true_eq, UInt32.le_iff_toNat_le, ge_iff_le]
  exact Iff.rfl

theorem digitValue?_of_isDigit (h : c.isDigit = true) : digitValue? 10 c = some (c.toNat - 48) := by
  have hrange := isDigit_iff.1 h
  have hle : '0' ≤ c ∧ c ≤ '9' := by
    rw [Char.le_def, Char.le_def, UInt32.le_iff_toNat_le, UInt32.le_iff_toNat_le]
    exact hrange
  have hten : c.toNat - 48 < 10 := by omega
  rw [digitValue?, if_pos hle]
  exact (Option.filter_eq_some_iff).2 ⟨rfl, decide_eq_true hten⟩

theorem isDigit_of_char (h : c.isDigit = true) : isDigit c = true := by
  rw [isDigit, digitValue?_of_isDigit h]
  rfl

theorem digitsValue_eq (h : ∀ c ∈ cs, c.isDigit = true) (n : Nat) :
    cs.foldl (fun n c => n * 10 + (digitValue? 10 c).getD 0) n = Nat.ofDigitChars 10 cs n := by
  induction cs generalizing n with
  | nil => rfl
  | cons d cs ih =>
    rw [List.foldl_cons, Nat.ofDigitChars_cons, digitValue?_of_isDigit (h d List.mem_cons_self),
      ih (fun c hc => h c (List.mem_cons_of_mem d hc)), Nat.mul_comm]
    rfl

theorem digitsValue_digitChars (n : Nat) : digitsValue 10 (digitChars n) = n :=
  (digitsValue_eq (fun _ => isDigit_of_mem_digitChars) 0).trans Nat.ofDigitChars_ten_toDigits

theorem takeWhile_isDigit (h : ∀ c ∈ cs, c.isDigit = true) (rest : List Char)
    (hrest : ∀ c ∈ rest.head?, isDigit c = false) :
    (cs ++ rest).takeWhile isDigit = cs ∧ (cs ++ rest).dropWhile isDigit = rest :=
  Text.span_append (fun c hc => isDigit_of_char (h c hc)) hrest

theorem exists_cons_digitChars (n : Nat) : ∃ d ds, digitChars n = d :: ds ∧ d.isDigit = true := by
  cases hn : digitChars n with
  | nil => exact absurd hn Nat.toDigits_ne_nil
  | cons d ds => exact ⟨d, ds, rfl, isDigit_of_mem_digitChars (by rw [hn]; exact List.mem_cons_self)⟩

end digits

/-! ### Numerals without a fraction -/

theorem nearest_eq {c count u : Nat} (hc : 0 < c) (hcount : count + u ≤ 400) :
    nearest c count (u : Int) = Float.ofScientific c false u := by
  rw [nearest, if_neg hc.ne', if_neg (by omega), if_neg (by omega), if_pos (by omega), Int.toNat_natCast]

/-- What stands behind the digits of a numeral: nothing, or an exponent. -/
structure IsTail (cs : List Char) (e : Int) : Prop where
  value : trailingExponent? cs = some e
  head : ∀ c ∈ cs.head?, isDigit c = false ∧ c ≠ '.'

theorem isTail_nil : IsTail [] 0 := ⟨rfl, nofun⟩

theorem isTail_exponentChars (e : Int) : IsTail (exponentChars e) e where
  value := by
    have hall : (digitChars e.natAbs).all (fun c => (digitValue? 10 c).isSome) = true :=
      List.all_eq_true.2 fun c hc => isDigit_of_char (isDigit_of_mem_digitChars hc)
    have hnil : digitChars e.natAbs ≠ [] := Nat.toDigits_ne_nil
    have hsign : splitSign ((if e < 0 then '-' else '+') :: digitChars e.natAbs) =
        (decide (e < 0), digitChars e.natAbs) := by
      by_cases he : e < 0
      · rw [if_pos he, decide_eq_true he]
        rfl
      · rw [if_neg he, decide_eq_false he]
        rfl
    rw [exponentChars, trailingExponent?, if_pos (.inl rfl), exponent?, hsign]
    simp only [wholeNumeral?, hall, and_true, digitsValue_digitChars]
    rw [if_pos hnil]
    show some (if decide (e < 0) = true then -(e.natAbs : Int) else e.natAbs) = some e
    congr 1
    simp only [decide_eq_true_eq]
    split_ifs <;> omega
  head := by
    intro c hc
    cases hc
    decide

section parts

variable {ws ds cs : List Char} {e : Int} (hws : ∀ c ∈ ws, c.isDigit = true)

include hws

theorem parts?_whole (h : IsTail cs e) : parts? (ws ++ cs) = some ⟨ws, [], false, e⟩ := by
  have hsplit := takeWhile_isDigit hws cs fun c hc => (h.head c hc).1
  rw [parts?, hsplit.1, hsplit.2]
  dsimp only
  split
  · exact absurd rfl (h.head '.' rfl).2
  · rw [h.value]
    rfl

theorem parts?_point (hds : ∀ c ∈ ds, c.isDigit = true) (h : IsTail cs e) :
    parts? (ws ++ '.' :: (ds ++ cs)) = some ⟨ws, ds, true, e⟩ := by
  have hsplit := takeWhile_isDigit hws ('.' :: (ds ++ cs)) fun c hc => by
    cases hc
    decide
  have hfraction := takeWhile_isDigit hds cs fun c hc => (h.head c hc).1
  rw [parts?, hsplit.1, hsplit.2]
  show (trailingExponent? ((ds ++ cs).dropWhile isDigit)).bind
    (fun e => some (Parts.mk ws ((ds ++ cs).takeWhile isDigit) true e)) = _
  rw [hfraction.1, hfraction.2, h.value]
  rfl

end parts

theorem parts?_digitChars (n : Nat) : parts? (digitChars n) = some ⟨digitChars n, [], false, 0⟩ := by
  have hdigits : ∀ c ∈ digitChars n, c.isDigit = true := fun _ => isDigit_of_mem_digitChars
  have hparts := parts?_whole hdigits isTail_nil
  rwa [List.append_nil] at hparts

theorem decimal?_of_parts {cs : List Char} {p : Parts} (h : parts? cs = some p) (hne : p.whole ≠ []) :
    decimal? cs = some p.value := by
  rw [decimal?, h]
  simp only [Option.bind_eq_bind, Option.bind_some, hne, false_and, if_false]

theorem decimal?_digitChars {n : Nat} (hn : 0 < n) (hcount : digitCount n ≤ 400) :
    decimal? (digitChars n) = some (Float.ofNat n) := by
  have hle : ((digitChars n ++ []).dropWhile (· == '0')).length + 0 ≤ 400 := by
    rw [List.append_nil]
    exact (List.dropWhile_sublist _).length_le.trans hcount
  have hvalue := nearest_eq hn hle
  rw [decimal?_of_parts (parts?_digitChars n) Nat.toDigits_ne_nil, Parts.value]
  rw [List.append_nil] at hvalue
  simp only [List.append_nil, digitsValue_digitChars]
  exact congrArg some hvalue

theorem decimal?_layOut {c u : Nat} (hc : 0 < c) (hcount : digitCount c + u ≤ 400)
    (hlong : 21 < digitCount c + u) :
    (∃ d ds, (⟨c, u⟩ : Digits).layOut standardLayout = d :: ds ∧ d.isDigit = true) ∧
      decimal? ((⟨c, u⟩ : Digits).layOut standardLayout) = some (Float.ofScientific c false u) := by
  obtain ⟨d, ds, hchars, hd⟩ := exists_cons_digitChars c
  have hdigits : ∀ x ∈ ds, x.isDigit = true := fun x hx =>
    isDigit_of_mem_digitChars (by rw [hchars]; exact List.mem_cons_of_mem d hx)
  have hlength : digitCount c = ds.length + 1 := by
    rw [digitCount, hchars, List.length_cons]
  have hvalue : digitsValue 10 (d :: ds) = c := by
    rw [← hchars]
    exact digitsValue_digitChars c
  have hnear : nearest c ((d :: ds).dropWhile (· == '0')).length u = Float.ofScientific c false u := by
    have hle := (List.dropWhile_sublist (· == '0') (l := d :: ds)).length_le
    rw [List.length_cons] at hle
    exact nearest_eq hc (by omega)
  have hsingle : ∀ x ∈ [d], x.isDigit = true := List.forall_mem_singleton.2 hd
  have hpoint : (u : Int) + ((ds.length + 1 : Nat) : Int) - 1 = ((u + ds.length : Nat) : Int) := by omega
  have hscale : ((u + ds.length : Nat) : Int) - (ds.length : Int) = (u : Int) := by omega
  have hplaces : standardLayout.placesBefore = 21 := rfl
  rw [Digits.layOut, hchars]
  dsimp only
  rw [List.length_cons, hpoint, hplaces, if_neg (by omega), if_neg (by omega), if_neg (by omega)]
  cases ds with
  | nil =>
    refine ⟨⟨d, exponentChars (u : Int), rfl, hd⟩, ?_⟩
    refine (decimal?_of_parts (parts?_whole hsingle (isTail_exponentChars u)) (List.cons_ne_nil d [])).trans ?_
    simp only [Parts.value, List.append_nil, List.length_nil, Int.natCast_zero, Int.sub_zero, hvalue,
      hnear]
  | cons a ds =>
    refine ⟨⟨d, '.' :: ((a :: ds) ++ exponentChars _), rfl, hd⟩, ?_⟩
    refine (decimal?_of_parts (parts?_point hsingle hdigits (isTail_exponentChars _))
      (List.cons_ne_nil d [])).trans ?_
    simp only [Parts.value, List.singleton_append, hscale, hvalue, hnear]

/-! ### Numerals and their signs -/

section numerals

variable {c : Char} {cs : List Char}

theorem not_isBlank_of_inConstant (h : inConstant c = true) : Text.isBlank c = false := by
  rw [inConstant, Bool.or_eq_true] at h
  rcases h with h | h
  · have hrange := isDigit_iff.1 h
    simp only [Text.isBlank, Text.blankRanges, List.any_cons, List.any_nil, Bool.or_eq_false_iff,
      Bool.and_eq_false_iff, decide_eq_false_iff_not, and_true]
    omega
  · have hsign : c = '+' ∨ c = '-' ∨ c = '.' ∨ c = 'e' := by simpa using h
    rcases hsign with rfl | rfl | rfl | rfl <;> rfl

theorem trimChars_of_inConstant (h : ∀ c ∈ cs, inConstant c = true) : Text.trimChars cs = cs := by
  have hkeep : ∀ l : List Char, (∀ c ∈ l, inConstant c = true) → l.dropWhile Text.isBlank = l := by
    intro l hl
    cases l with
    | nil => rfl
    | cons a l =>
      rw [List.dropWhile_cons_of_neg]
      rw [not_isBlank_of_inConstant (hl a List.mem_cons_self)]
      exact Bool.false_ne_true
  rw [Text.trimChars, hkeep cs h, hkeep cs.reverse (fun c hc => h c (List.mem_reverse.1 hc)),
    List.reverse_reverse]

theorem based?_of_inConstant (h : ∀ c ∈ cs, inConstant c = true) : based? cs = none := by
  have hbase : ∀ c, inConstant c = true → ¬ (c = 'x' ∨ c = 'X') ∧ ¬ (c = 'o' ∨ c = 'O') ∧
      ¬ (c = 'b' ∨ c = 'B') := by
    intro c hc
    refine ⟨?_, ?_, ?_⟩ <;> rintro (rfl | rfl) <;> cases hc
  unfold based?
  split
  · rename_i c ds
    obtain ⟨hx, ho, hb⟩ := hbase c (h c (by simp))
    rw [if_neg hx, if_neg ho, if_neg hb]
    rfl
  · rfl

theorem numberChars?_of_decimal? {x : Float} (h : ∀ c ∈ cs, inConstant c = true)
    (hfirst : ∃ d ds, cs = d :: ds ∧ d.isDigit = true) (hx : decimal? cs = some x) :
    numberChars? cs = some x ∧ numberChars? ('-' :: cs) = some (-x) := by
  obtain ⟨d, ds, rfl, hd⟩ := hfirst
  have hrange := isDigit_iff.1 hd
  have hminus : ∀ c ∈ '-' :: d :: ds, inConstant c = true := List.forall_mem_cons.2 ⟨by decide, h⟩
  have hinfinity : ¬ d :: ds = "Infinity".toList := by
    intro heq
    cases (List.cons.inj heq).1
    cases hd
  have hsign : splitSign (d :: ds) = (false, d :: ds) := by
    unfold splitSign
    split
    · rename_i heq
      cases heq
      cases hd
    · rename_i heq
      cases heq
      cases hd
    · rfl
  have hsigned : splitSign ('-' :: d :: ds) = (true, d :: ds) := rfl
  constructor
  · rw [numberChars?, if_neg (List.cons_ne_nil d ds), based?_of_inConstant h, hsign]
    simp only [hinfinity, if_false, hx, Option.map_some]
    rfl
  · rw [numberChars?, if_neg (List.cons_ne_nil _ _), based?_of_inConstant hminus, hsigned]
    simp only [hinfinity, if_false, hx, Option.map_some]
    rfl

end numerals

/-! ### Whole doubles -/

theorem digitCount_le_of_lt {n k j : Nat} (hj : 0 < j) (hk : k ≤ 13 * j) (h : n < 2 ^ k) :
    digitCount n ≤ 4 * j := by
  refine (Nat.length_toDigits_le_iff (by decide) (by omega)).2 (h.trans_le ?_)
  calc 2 ^ k ≤ 2 ^ (13 * j) := Nat.pow_le_pow_right (by decide) hk
    _ = (2 ^ 13) ^ j := Nat.pow_mul ..
    _ ≤ (10 ^ 4) ^ j := Nat.pow_le_pow_left (by decide) j
    _ = 10 ^ (4 * j) := (Nat.pow_mul ..).symm

theorem decode_neg {x : Float} {m : Nat} {e : Int} (hm : 0 < m) (hx : decode x = some ⟨false, m, e⟩) :
    decode (-x) = some ⟨true, m, e⟩ := by
  obtain ⟨hlt, hge, hle, hnormal⟩ := canonical_of_decode hx
  show decode (.ofModel (.pack (UnpackedFloat.neg x.toModel.unpack))) = _
  rw [unpack_of_decode hm hx]
  exact decode_pack hm ⟨hlt, hge, hle, hnormal⟩

theorem decode_ofNat_of_le {n : Nat} (h : 1024 ≤ n.log2) : decode (Float.ofNat n) = none := by
  have hn : n ≠ 0 := by
    rintro rfl
    exact absurd h (by decide)
  have hbig : ¬ n < 2 ^ 53 := fun hlt => by
    have := (Nat.log2_lt hn).2 hlt
    omega
  have hshift : n <<< 53 * 1 = n * 2 ^ 53 := by rw [Nat.mul_one, Nat.shiftLeft_eq]
  have hlog : (n * 2 ^ 53).log2 = n.log2 + 53 := log2_mul_two_pow (Nat.pos_of_ne_zero hn) 53
  obtain ⟨m, e, hm, hround, he⟩ := exists_roundWithAccuracy_ge (s := .positive)
    (m := n * 2 ^ 53) (e := -53) (by omega) (by omega) (by omega)
  have hbits : Format.binary64.exponentBits = 11 := rfl
  show decode (Float.ofScientific n false 0) = none
  rw [Float.ofScientific, dif_neg (fun hsmall => hbig hsmall.1)]
  show decode (.ofModel (.pack (UnpackedFloat.ofScientific Format.binary64 n ((0 : Nat) : Int)))) = none
  rw [UnpackedFloat.ofScientific, dif_neg hn, hbits, if_neg (by omega), if_neg (by omega),
    if_pos (by omega)]
  show decode (.ofModel (.pack (roundWithAccuracy Format.binary64 .positive (n <<< 53 * 1) (-53) .exact))) =
    none
  rw [hshift, hround, pack_of_lt_exponent hm (by omega)]
  decide +kernel

section whole

variable {m : Nat} {e k : Int} {x : Float}

/-- The digits of a double, its sign left out, are a numeral of the double. -/
def ReadsBack (d : Dyadic) : Prop :=
  (∃ a as, (shortest d).layOut standardLayout = a :: as ∧ a.isDigit = true) ∧
    ∃ y, decimal? ((shortest d).layOut standardLayout) = some y ∧
      decode y = some ⟨false, d.mantissa, d.exponent⟩

/-- Large doubles read back, since their digits lie inside the rounding interval. -/
theorem readsBack_large {b : Nat} (negative : Bool) (hb : 1 ≤ b)
    (hd : Dyadic.Canonical ⟨false, m, b⟩) : ReadsBack ⟨negative, m, b⟩ := by
  have hhigh : m < 2 ^ 53 := hd.mantissa_lt
  have hlow : 2 ^ 52 ≤ m := hd.normal.resolve_left (show ¬ (b : Int) = -1074 by omega)
  have hsigned : Dyadic.Canonical ⟨negative, m, b⟩ := ⟨hd.mantissa_lt, hd.exponent_ge, hd.exponent_le, hd.normal⟩
  obtain ⟨c, u, hshortest, hc, hin⟩ := shortest_inside hb hsigned
  have hcount : digitCount c + u ≤ 400 := by
    obtain ⟨-, hle, -⟩ := hin.bounds hlow hhigh
    have hlargest : (b : Int) ≤ 971 := hd.exponent_le
    have hnext : m * 2 ^ b + 2 ^ b ≤ 2 ^ 53 * 2 ^ b := by
      rw [← Nat.succ_mul]
      exact Nat.mul_le_mul_right _ hhigh
    rw [← digitCount_mul_ten_pow hc]
    refine digitCount_le_of_lt (j := 100) (by decide) (show 53 + b + 1 ≤ 13 * 100 by omega) ?_
    calc c * 10 ^ u ≤ 2 ^ 53 * 2 ^ b := by omega
      _ = 2 ^ (53 + b) := (Nat.pow_add ..).symm
      _ < 2 ^ (53 + b + 1) := Nat.pow_lt_pow_right (by decide) (by omega)
  rw [ReadsBack, hshortest]
  by_cases hshort : digitCount c + u ≤ 21
  · have hpos : 0 < c * 10 ^ u := Nat.mul_pos hc (Nat.pow_pos (by decide))
    rw [layOut_whole hc hshort]
    refine ⟨exists_cons_digitChars _, _, decimal?_digitChars hpos ?_, ?_⟩
    · rw [digitCount_mul_ten_pow hc]
      omega
    · refine decode_ofScientific hpos (by decide) hd hlow ?_
      rwa [Nat.pow_zero, Nat.mul_one]
  · obtain ⟨hfirst, hvalue⟩ := decimal?_layOut hc (by omega) (Nat.not_le.1 hshort)
    exact ⟨hfirst, _, hvalue, decode_ofScientific hc (by omega) hd hlow hin⟩

/-- Whole doubles below `2 ^ 53` read back, since their digits are those of the number itself. -/
theorem readsBack_small (negative : Bool) (hm : 0 < m) (he : e ≤ 0)
    (hd : Dyadic.Canonical ⟨false, m, e⟩) (hwhole : 0 ≤ e ∨ m % 2 ^ (-e).toNat = 0) :
    ReadsBack ⟨negative, m, e⟩ := by
  have hhigh : m < 2 ^ 53 := hd.mantissa_lt
  obtain ⟨n, hn⟩ : ∃ n, m = n * 2 ^ (-e).toNat := by
    refine ⟨m / 2 ^ (-e).toNat, ?_⟩
    rcases hwhole with hzero | hrest
    · have hnone : (-e).toNat = 0 := by omega
      rw [hnone, Nat.pow_zero, Nat.div_one, Nat.mul_one]
    · exact (Nat.div_mul_cancel (Nat.dvd_of_mod_eq_zero hrest)).symm
  have hunit := Nat.two_pow_pos (-e).toNat
  have hpos : 0 < n := Nat.pos_of_mul_pos_right (hn ▸ hm)
  have hlt : n < 2 ^ 53 := (Nat.le_mul_of_pos_right n hunit).trans_lt (hn ▸ hhigh)
  obtain ⟨hmantissa, hexponent⟩ := eq_whole_of_canonical hpos hlt hd (by
    split_ifs with hzero
    · have hnone : e = 0 := by omega
      subst hnone
      exact (Nat.mul_one m).trans (hn.trans (Nat.mul_one n))
    · exact hn)
  have hsigned : Dyadic.Canonical ⟨negative, m, e⟩ := ⟨hd.mantissa_lt, hd.exponent_ge, hd.exponent_le, hd.normal⟩
  have hvalue : (m : ℚ) * 2 ^ e = n := by
    have hexponent : e = -((-e).toNat : ℤ) := by omega
    rw [hn, Nat.cast_mul, Nat.cast_pow, Nat.cast_two]
    nth_rewrite 2 [hexponent]
    rw [zpow_neg, zpow_natCast, mul_inv_cancel_right₀ (by positivity)]
  have hcount := digitCount_le hlt
  rw [ReadsBack, layOut_shortest hsigned hpos hlt hvalue]
  refine ⟨exists_cons_digitChars n, _, decimal?_digitChars hpos (by omega), ?_⟩
  rw [decode_ofNat hpos hlt, ← hmantissa, ← hexponent]

theorem readsBack_of_whole (negative : Bool) (hm : 0 < m) (hd : Dyadic.Canonical ⟨false, m, e⟩)
    (hwhole : 0 ≤ e ∨ m % 2 ^ (-e).toNat = 0) : ReadsBack ⟨negative, m, e⟩ := by
  by_cases he : 1 ≤ e
  · obtain ⟨b, rfl⟩ := Int.eq_ofNat_of_zero_le (show 0 ≤ e by omega)
    exact readsBack_large negative (by omega) hd
  · exact readsBack_small negative hm (by omega) hd hwhole

/-- A text is a numeral of the whole number `k`. -/
structure Denotes (s : String) (k : Int) : Prop where
  ne_nil : s.toList ≠ []
  inConstant : ∀ c ∈ s.toList, inConstant c = true
  value : ∃ y, number? s = some y ∧ wholeValue y = some k

/-- The text of a whole double is read as a double of the same value. -/
theorem denotes_text (hk : wholeValue x = some k) : Denotes (text x) k := by
  obtain ⟨⟨negative, m, e⟩, hd, -⟩ := Option.bind_eq_some_iff.1 hk
  rcases Nat.eq_zero_or_pos m with rfl | hm
  · have htext : text x = "0" := by
      rw [text, hd]
      rfl
    have hzero : k = 0 := by
      rw [wholeValue_eq hd, Dyadic.magnitude] at hk
      split_ifs at hk <;> simp_all
    rw [htext, hzero]
    exact ⟨by decide, List.forall_mem_singleton.2 (by decide), 0, by decide +kernel, by decide +kernel⟩
  · obtain ⟨hlt, hge, hle, hnormal⟩ := canonical_of_decode hd
    have hwhole : 0 ≤ e ∨ m % 2 ^ (-e).toNat = 0 := by
      by_cases he : 0 ≤ e
      · exact .inl he
      · rw [wholeValue_eq hd, Dyadic.magnitude, if_neg he] at hk
        by_contra hrest
        rw [if_neg (fun h => hrest (.inr h))] at hk
        cases hk
    obtain ⟨hfirst, y, hy, hdecode⟩ := readsBack_of_whole negative hm ⟨hlt, hge, hle, hnormal⟩ hwhole
    have hchars : ∀ c ∈ (shortest ⟨negative, m, e⟩).layOut standardLayout, inConstant c = true :=
      fun _ => inConstant_of_mem_layOut
    have hne : (shortest ⟨negative, m, e⟩).layOut standardLayout ≠ [] := by
      obtain ⟨d, ds, hds, -⟩ := hfirst
      rw [hds]
      exact List.cons_ne_nil d ds
    obtain ⟨hplain, hminus⟩ := numberChars?_of_decimal? hchars hfirst hy
    cases negative with
    | false =>
      have hsame : x = y := decode_injective hd hdecode
      have htext : (text x).toList = (shortest ⟨false, m, e⟩).layOut standardLayout := by
        rw [text, hd]
        dsimp only
        rw [if_neg hm.ne', if_neg Bool.false_ne_true, String.toList_ofList]
      rw [← htext] at hchars hne hplain
      exact ⟨hne, hchars, y, by rw [number?, trimChars_of_inConstant hchars, hplain], hsame ▸ hk⟩
    | true =>
      have hsame : x = -y := decode_injective hd (decode_neg hm hdecode)
      have htext : (text x).toList = '-' :: (shortest ⟨true, m, e⟩).layOut standardLayout := by
        rw [text, hd]
        dsimp only
        rw [if_neg hm.ne', if_pos rfl]
        simp
      have hsigned : ∀ c ∈ (text x).toList, inConstant c = true := by
        rw [htext]
        exact List.forall_mem_cons.2 ⟨by decide, hchars⟩
      rw [← htext] at hminus
      refine ⟨?_, hsigned, -y, by rw [number?, trimChars_of_inConstant hsigned, hminus], hsame ▸ hk⟩
      rw [htext]
      exact List.cons_ne_nil _ _

theorem denotes_natText {n : Nat} (hk : wholeValue (Float.ofNat n) = some k) : Denotes (natText n) k := by
  have hchars : ∀ c ∈ (natText n).toList, inConstant c = true := by
    rw [natText, String.toList_ofList]
    exact fun _ => inConstant_of_mem_digitChars
  have hne : (natText n).toList ≠ [] := by
    rw [natText, String.toList_ofList]
    exact Nat.toDigits_ne_nil
  refine ⟨hne, hchars, Float.ofNat n, ?_, hk⟩
  rcases Nat.eq_zero_or_pos n with rfl | hn
  · decide +kernel
  · have hlog : n.log2 < 1024 := by
      by_contra hle
      rw [wholeValue, decode_ofNat_of_le (Nat.not_lt.1 hle)] at hk
      cases hk
    have hcount := digitCount_le_of_lt (by decide) (show n.log2 + 1 ≤ 13 * 100 by omega) Nat.lt_log2_self
    rw [number?, trimChars_of_inConstant hchars, natText, String.toList_ofList]
    exact (numberChars?_of_decimal? (fun _ => inConstant_of_mem_digitChars) (exists_cons_digitChars n)
      (decimal?_digitChars hn (by omega))).1

end whole

end MemoryCompiler.Decimal
