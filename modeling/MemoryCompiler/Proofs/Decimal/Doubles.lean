import Mathlib
import MemoryCompiler.Decimal.Binary64

/-!
# Doubles and their values

`decode` reads the value of a double off its bits. Here it is tied to the arithmetic of doubles, which
works on unpacked numbers: decoding is unpacking (`decode_eq`), packing a canonical number and decoding
it gives the number back (`decode_pack`), and a double is known by its value and sign
(`decode_injective`).
-/

namespace MemoryCompiler.Decimal

open Float.Model (UnpackedFloat Format)
open Float.Model.UnpackedFloat (Sign)

/-! ### Canonical values -/

/-- A value with as many mantissa bits as a double has, or with the least exponent. -/
structure Dyadic.Canonical (d : Dyadic) : Prop where
  mantissa_lt : d.mantissa < 2 ^ 53
  exponent_ge : -1074 ≤ d.exponent
  exponent_le : d.exponent ≤ 971
  normal : d.exponent = -1074 ∨ 2 ^ 52 ≤ d.mantissa

theorem canonical_of_decode {x : Float} {d : Dyadic} (h : decode x = some d) : d.Canonical := by
  simp only [decode] at h
  generalize x.toBits.toNat = b at h
  have hexponent : b / 2 ^ 52 % 2 ^ 11 < 2 ^ 11 := Nat.mod_lt _ (by decide)
  have hfraction : b % 2 ^ 52 < 2 ^ 52 := Nat.mod_lt _ (by decide)
  split_ifs at h with hspecial hsmall <;> cases h
  · exact ⟨by dsimp only; omega, le_refl _, show (-1074 : Int) ≤ 971 by decide, .inl rfl⟩
  · refine ⟨?_, ?_, ?_, .inr ?_⟩ <;> dsimp only <;> omega

theorem toBits_injective : Function.Injective Float.toBits := by
  rintro ⟨⟨b, hb⟩⟩ ⟨⟨c, hc⟩⟩ h
  have hbc : b = c := h
  subst hbc
  rfl

theorem decode_injective {x y : Float} {d : Dyadic} (hx : decode x = some d)
    (hy : decode y = some d) : x = y := by
  have hbits : x.toBits.toNat = y.toBits.toNat := by
    simp only [decode] at hx hy
    have hxlt := x.toBits.toNat_lt
    have hylt := y.toBits.toNat_lt
    generalize x.toBits.toNat = b at *
    generalize y.toBits.toNat = c at *
    split_ifs at hx hy <;> cases hx <;>
      simp only [Option.some.injEq, Dyadic.mk.injEq, decide_eq_decide, leastExponent] at hy <;> omega
  exact toBits_injective (UInt64.toNat_inj.1 hbits)

/-! ### Unpacking -/

def ofUnpacked : UnpackedFloat → Option Dyadic
  | .notANumber | .infinity _ => none
  | .zero s => some ⟨s == .negative, 0, leastExponent⟩
  | .finite s m e _ => some ⟨s == .negative, m, e⟩

section fields

variable (b : BitVec 64)

abbrev mantissaField : BitVec 52 := @UnpackedFloat.unpackMantissa Format.binary64 b

abbrev exponentField : BitVec 11 := @UnpackedFloat.unpackExponent Format.binary64 b

theorem toNat_mantissaField : (mantissaField b).toNat = b.toNat % 2 ^ 52 := by
  simp [UnpackedFloat.unpackMantissa]

theorem toNat_exponentField : (exponentField b).toNat = b.toNat / 2 ^ 52 % 2 ^ 11 := by
  simp [UnpackedFloat.unpackExponent, Nat.shiftRight_eq_div_pow]

theorem isNegative_unpackSign :
    (Sign.ofBitVec (@UnpackedFloat.unpackSign Format.binary64 b) == .negative) =
      decide (2 ^ 63 ≤ b.toNat) := by
  have hlt := b.isLt
  have hsign : (@UnpackedFloat.unpackSign Format.binary64 b).toNat = b.toNat / 2 ^ 63 := by
    simp [UnpackedFloat.unpackSign, Nat.shiftRight_eq_div_pow]
    omega
  rw [Sign.ofBitVec]
  by_cases h : 2 ^ 63 ≤ b.toNat
  · have hone : b.toNat / 2 ^ 63 = 1 := by omega
    rw [hone] at hsign
    rw [if_neg (fun h0 => by rw [h0] at hsign; exact absurd hsign (by decide)), decide_eq_true h]
    rfl
  · have hzero : b.toNat / 2 ^ 63 = 0 := by omega
    rw [hzero] at hsign
    rw [if_pos (BitVec.eq_of_toNat_eq hsign), decide_eq_false h]
    rfl

end fields

theorem decode_eq (x : Float) : decode x = ofUnpacked x.toModel.unpack := by
  have hbits : x.toBits.toNat = x.toBits.toBitVec.toNat := rfl
  show decode x = ofUnpacked (UnpackedFloat.unpack Format.binary64 x.toBits.toBitVec)
  rw [UnpackedFloat.unpack, decode, hbits]
  generalize x.toBits.toBitVec = b
  have hmantissa := toNat_mantissaField b
  have hexponent := toNat_exponentField b
  have hsign := isNegative_unpackSign b
  have hall : exponentField b = -1#_ ↔ b.toNat / 2 ^ 52 % 2 ^ 11 = 2047 := by
    rw [← hexponent, ← BitVec.toNat_inj]
    rfl
  have hnone : exponentField b = 0#_ ↔ b.toNat / 2 ^ 52 % 2 ^ 11 = 0 := by
    rw [← hexponent, ← BitVec.toNat_inj]
    rfl
  have hzero : mantissaField b = 0#_ ↔ b.toNat % 2 ^ 52 = 0 := by
    rw [← hmantissa, ← BitVec.toNat_inj]
    rfl
  dsimp only
  by_cases hspecial : b.toNat / 2 ^ 52 % 2 ^ 11 = 2047
  · rw [if_pos hspecial, if_pos (hall.2 hspecial)]
    split_ifs <;> rfl
  rw [if_neg hspecial, if_neg (mt hall.1 hspecial)]
  by_cases hsmall : b.toNat / 2 ^ 52 % 2 ^ 11 = 0
  · rw [if_pos hsmall, if_pos (hnone.2 hsmall)]
    by_cases hfraction : b.toNat % 2 ^ 52 = 0
    · rw [dif_pos (hzero.2 hfraction), ofUnpacked, hsign, hfraction]
    · rw [dif_neg (mt hzero.1 hfraction), ofUnpacked, hsign, hmantissa, hexponent, hsmall]
      rfl
  · have himplicit : (1#1 ++ mantissaField b).toNat = b.toNat % 2 ^ 52 + 2 ^ 52 := by
      rw [BitVec.toNat_append, ← Nat.shiftLeft_add_eq_or_of_lt (BitVec.isLt _), hmantissa,
        Nat.add_comm]
      rfl
    rw [if_neg hsmall, if_neg (mt hnone.1 hsmall), ofUnpacked, hsign, hexponent, himplicit]
    rfl

theorem isFinite_iff {x : Float} : x.isFinite = true ↔ ∃ d, decode x = some d := by
  show x.toModel.unpack.isFinite = true ↔ _
  rw [decode_eq]
  cases x.toModel.unpack <;> simp [UnpackedFloat.isFinite, ofUnpacked]

/-! ### Packing -/

theorem toNat_packComponents (s : Sign) (e : BitVec 11) (m : BitVec 52) :
    (UnpackedFloat.packComponents Format.binary64 s e m).toNat =
      (if s == .negative then 2 ^ 63 else 0) + e.toNat * 2 ^ 52 + m.toNat := by
  have hfields : (UnpackedFloat.packComponents Format.binary64 s e m).toNat =
      (s.toBitVec.toNat <<< 11 ||| e.toNat) <<< 52 ||| m.toNat := rfl
  rw [hfields, ← Nat.shiftLeft_add_eq_or_of_lt m.isLt, ← Nat.shiftLeft_add_eq_or_of_lt e.isLt,
    Nat.shiftLeft_eq, Nat.shiftLeft_eq]
  cases s with
  | negative =>
    show (1 * 2 ^ 11 + e.toNat) * 2 ^ 52 + m.toNat = 2 ^ 63 + e.toNat * 2 ^ 52 + m.toNat
    omega
  | positive =>
    show (0 * 2 ^ 11 + e.toNat) * 2 ^ 52 + m.toNat = 0 + e.toNat * 2 ^ 52 + m.toNat
    omega

theorem decode_of_fields {x : Float} {negative : Bool} {biased fraction : Nat}
    (hbits : x.toBits.toNat = (if negative then 2 ^ 63 else 0) + biased * 2 ^ 52 + fraction)
    (hbiased : biased < 2047) (hfraction : fraction < 2 ^ 52) :
    decode x = if biased = 0 then some ⟨negative, fraction, leastExponent⟩
      else some ⟨negative, fraction + 2 ^ 52, (biased : Int) - 1075⟩ := by
  have hsign : decide (2 ^ 63 ≤ x.toBits.toNat) = negative := by
    cases negative
    · exact decide_eq_false (by rw [hbits, if_neg Bool.false_ne_true]; omega)
    · exact decide_eq_true (by rw [hbits, if_pos rfl]; omega)
  have hlow : x.toBits.toNat % 2 ^ 52 = fraction := by
    rw [hbits]
    split_ifs <;> omega
  have hhigh : x.toBits.toNat / 2 ^ 52 % 2 ^ 11 = biased := by
    rw [hbits]
    split_ifs <;> omega
  simp only [decode]
  rw [hsign, hlow, hhigh, if_neg (Nat.ne_of_lt hbiased)]

theorem decode_pack {s : Sign} {m : Nat} {e : Int} (h : 0 < m)
    (hc : Dyadic.Canonical ⟨s == .negative, m, e⟩) :
    decode (.ofModel (.pack (.finite s m e h))) = some ⟨s == .negative, m, e⟩ := by
  have hm : m < 2 ^ 53 := hc.mantissa_lt
  have hge : -1074 ≤ e := hc.exponent_ge
  have hle : e ≤ 971 := hc.exponent_le
  have hnormal : e = -1074 ∨ 2 ^ 52 ≤ m := hc.normal
  have hbias : e + (Format.binary64.exponentBias : Int) + ((52 : Nat) : Int) = e + 1075 := by
    have hvalue : Format.binary64.exponentBias = 1023 := rfl
    omega
  have hcount : Format.binary64.mantissaBits = 53 := rfl
  have hbits : (Float.ofModel (.pack (.finite s m e h))).toBits.toNat =
      (UnpackedFloat.pack Format.binary64 (.finite s m e h)).toNat := rfl
  rw [UnpackedFloat.pack] at hbits
  dsimp only at hbits
  rw [hbias, if_neg (by omega)] at hbits
  by_cases hbig : 2 ^ 52 ≤ m
  · have hlog : m.log2 = 52 := (Nat.log2_eq_iff h.ne').2 ⟨hbig, hm⟩
    rw [if_pos (by omega), toNat_packComponents, BitVec.toNat_ofNat, BitVec.toNat_ofNat] at hbits
    rw [decode_of_fields hbits (by omega) (by omega), if_neg (by omega)]
    congr 2 <;> omega
  · have hlog : m.log2 < 52 := (Nat.log2_lt h.ne').2 (by omega)
    rw [if_neg (by omega), toNat_packComponents, BitVec.toNat_zero, BitVec.toNat_ofNat] at hbits
    rw [decode_of_fields hbits (by decide) (by omega), if_pos rfl]
    congr 2
    · omega
    · exact (hnormal.resolve_right hbig).symm

end MemoryCompiler.Decimal
