import MemoryCompiler.Proofs.Ecc.Syndrome

/-!
# One wrong bit is corrected, two are detected

On a word of the code's length the decoder looks at two things, syndrome and parity
(`decode_natCast`). A word of the code has syndrome zero and even parity (`encode_codeWord`). Both are
sums without carry, so a flipped bit adds its place to the syndrome and makes the parity odd, and two
flipped bits leave a syndrome that is not zero and an even parity. The main statement is
`decode_of_flips`.
-/

namespace MemoryCompiler.Ecc

/-- A natural number that is a word of the code. -/
structure CodeWord (l : Layout) (w r c : Nat) : Prop where
  lt : c < 2 ^ (w + r + 1)
  syndrome_eq : syndrome l w r c = 0
  parity_eq : parity (c : Int) = false

section extended

variable {l : Layout} {w r : Nat}

theorem codeBits_eq (hl : l.Extended w r) : l.codeBits = ((w + r + 1 : Nat) : Int) := by
  rw [Layout.codeBits, hl.dataBits, hl.hammingBits]
  push_cast
  rfl

/-! ### Encoding -/

theorem shift_natCast (x k : Nat) : shift (x : Int) (k : Int) = ((x * 2 ^ k : Nat) : Int) := by
  rw [shift, if_pos (by omega), Int.toNat_natCast]
  push_cast
  rfl

theorem body_facts (hl : l.Extended w r) {d : Nat} (hd : d < 2 ^ w) :
    d + l.check (d : Int) * 2 ^ w < 2 ^ (w + r) ∧
      (d + l.check (d : Int) * 2 ^ w) % 2 ^ w = d ∧
      (d + l.check (d : Int) * 2 ^ w) / 2 ^ w = l.check (d : Int) := by
  have hcheck := check_lt hl (d : Int)
  refine ⟨?_, ?_, ?_⟩
  · calc d + l.check (d : Int) * 2 ^ w < (l.check (d : Int) + 1) * 2 ^ w := by rw [Nat.add_mul]; omega
      _ ≤ 2 ^ r * 2 ^ w := Nat.mul_le_mul_right _ hcheck
      _ = 2 ^ (w + r) := by rw [← pow_add, Nat.add_comm]
  · rw [Nat.add_mul_mod_self_right, Nat.mod_eq_of_lt hd]
  · rw [Nat.add_mul_div_right _ _ (Nat.two_pow_pos w), Nat.div_eq_of_lt hd, Nat.zero_add]

theorem encode_eq (hl : l.Extended w r) {data : Int} {d : Nat}
    (hlow : lowBits (w : Int) data = d) (hd : d < 2 ^ w) :
    l.encode data =
      (((d + l.check (d : Int) * 2 ^ w) ^^^
        if parity ((d + l.check (d : Int) * 2 ^ w : Nat) : Int) then 2 ^ (w + r) else 0 : Nat) : Int) := by
  have hbody := (body_facts hl hd).1
  have hsum : (d : Int) + shift (l.check (d : Int)) l.dataBits =
      ((d + l.check (d : Int) * 2 ^ w : Nat) : Int) := by
    rw [hl.dataBits, shift_natCast]
    push_cast
    rfl
  have htop : l.dataBits + l.hammingBits = ((w + r : Nat) : Int) := by
    rw [hl.dataBits, hl.hammingBits]
    push_cast
    rfl
  simp only [Layout.encode, hl.dataBits, hlow]
  rw [← hl.dataBits, hsum, htop, setBit, bit_natCast, Int.toNat_natCast, Nat.testBit_lt_two_pow hbody]
  generalize d + l.check (d : Int) * 2 ^ w = body at hbody ⊢
  have hnonneg : decide ((0 : Int) ≤ ((w + r : Nat) : Int)) = true := decide_eq_true (by omega)
  rw [hnonneg]
  cases parity (body : Int)
  · simp
  · simp only [Bool.and_self, Bool.not_false, if_true]
    rw [← add_two_pow_eq_xor (Nat.testBit_lt_two_pow hbody)]
    push_cast
    rfl

theorem two_pow_parity_facts (w r : Nat) :
    2 ^ (w + r) % 2 ^ w = 0 ∧ 2 ^ (w + r) / 2 ^ w % 2 ^ r = 0 := by
  refine ⟨Nat.mod_eq_zero_of_dvd (pow_dvd_pow 2 (by omega)), ?_⟩
  rw [Nat.pow_div (by omega) (by decide), Nat.add_sub_cancel_left, Nat.mod_self]

theorem encode_codeWord (hl : l.Extended w r) (data : Int) :
    ∃ c : Nat, l.encode data = c ∧ CodeWord l w r c ∧ ((c % 2 ^ w : Nat) : Int) = data % 2 ^ w := by
  obtain ⟨d, hd, hlow, hmod⟩ := exists_lowBits w data
  obtain ⟨hlt, hdata, hcheck⟩ := body_facts hl hd
  refine ⟨_, encode_eq hl hlow hd, ?_, ?_⟩
  · generalize hbody : d + l.check (d : Int) * 2 ^ w = body at *
    have hpow : 2 ^ (w + r) < 2 ^ (w + r + 1) := Nat.pow_lt_pow_right (by decide) (by omega)
    have hsyn : syndrome l w r body = 0 := by
      rw [syndrome, hcheck, hdata, Nat.mod_eq_of_lt (check_lt hl _), Nat.xor_self]
    have htop : syndrome l w r (2 ^ (w + r)) = 0 := by
      rw [syndrome, (two_pow_parity_facts w r).1, (two_pow_parity_facts w r).2, check_zero hl,
        Nat.xor_self]
    cases hp : parity (body : Int)
    · rw [if_neg Bool.false_ne_true, Nat.xor_zero]
      exact ⟨lt_trans hlt hpow, hsyn, hp⟩
    · rw [if_pos rfl]
      refine ⟨Nat.xor_lt_two_pow (lt_trans hlt hpow) hpow, ?_, ?_⟩
      · rw [syndrome_xor hl, hsyn, htop, Nat.xor_self]
      · rw [parity_xor, hp, parity_two_pow]
        rfl
  · rw [← hmod, Nat.xor_mod_two_pow, hdata]
    split_ifs
    · rw [(two_pow_parity_facts w r).1, Nat.xor_zero]
    · rw [Nat.zero_mod, Nat.xor_zero]

/-! ### Decoding -/

theorem shift_neg_natCast (x k : Nat) : shift (x : Int) (-(k : Int)) = ((x / 2 ^ k : Nat) : Int) := by
  rw [shift]
  split_ifs with h
  · have hk : k = 0 := by omega
    subst hk
    simp
  · rw [Int.neg_neg, Int.toNat_natCast]
    push_cast
    rfl

/-- What the decoder makes of a word that is no longer than the code. -/
theorem decode_natCast (hl : l.Extended w r) {c : Nat} (hc : c < 2 ^ (w + r + 1)) :
    l.decode (c : Int) =
      { data := if parity (c : Int) then l.correct ((c % 2 ^ w : Nat) : Int) (syndrome l w r c)
          else ((c % 2 ^ w : Nat) : Int)
        syndrome := syndrome l w r c
        correctable := parity (c : Int)
        uncorrectable := !parity (c : Int) && syndrome l w r c != 0 } := by
  have hstored : (lowBits (r : Int) (shift (c : Int) (-(w : Int)))).toNat = c / 2 ^ w % 2 ^ r := by
    rw [shift_neg_natCast, lowBits_natCast, Int.toNat_natCast]
  simp only [Layout.decode, codeBits_eq hl, hl.dataBits, hl.hammingBits, lowBits_natCast,
    Nat.mod_eq_of_lt hc, hstored, syndrome]

theorem decode_codeWord (hl : l.Extended w r) {c : Nat} (hc : CodeWord l w r c) :
    l.decode (c : Int) = ⟨((c % 2 ^ w : Nat) : Int), 0, false, false⟩ := by
  rw [decode_natCast hl hc.lt, hc.parity_eq, hc.syndrome_eq]
  rfl

theorem two_pow_lt_of_le {i : Nat} (hi : i ≤ w + r) : 2 ^ i < 2 ^ (w + r + 1) :=
  Nat.pow_lt_pow_right (by decide) (by omega)

theorem correct_place (hl : l.Extended w r) (x : Nat) {i : Nat} (hi : i < w) :
    l.correct (x : Int) (place l w r i) = ((x ^^^ 2 ^ i : Nat) : Int) := by
  obtain ⟨p, hp, hplace⟩ := place_data hl hi
  rw [Layout.correct, hplace, idxOf?_positions hl hp]
  exact toggle_natCast x i

theorem correct_place_of_le (hl : l.Extended w r) (data : Int) {i : Nat} (hi : w ≤ i) :
    l.correct data (place l w r i) = data := by
  have hnone : l.positions.idxOf? (place l w r i) = none := by
    rw [List.idxOf?_eq_none_iff]
    intro hmem
    rw [place, if_neg (by omega)] at hmem
    split_ifs at hmem
    · exact hl.position_ne_pow _ hmem _ rfl
    · exact absurd (hl.position_pos _ hmem) (lt_irrefl 0)
  rw [Layout.correct, hnone]

theorem decode_flip (hl : l.Extended w r) {c i : Nat} (hc : CodeWord l w r c) (hi : i ≤ w + r) :
    l.decode ((c ^^^ 2 ^ i : Nat) : Int) =
      ⟨((c % 2 ^ w : Nat) : Int), place l w r i, true, false⟩ := by
  have hsyn : syndrome l w r (c ^^^ 2 ^ i) = place l w r i := by
    rw [syndrome_xor hl, hc.syndrome_eq, Nat.zero_xor, syndrome_two_pow hl hi]
  have hodd : parity ((c ^^^ 2 ^ i : Nat) : Int) = true := by
    rw [parity_xor, hc.parity_eq, parity_two_pow]
    rfl
  rw [decode_natCast hl (Nat.xor_lt_two_pow hc.lt (two_pow_lt_of_le hi)), hsyn, hodd, if_pos rfl]
  have hdata : l.correct (((c ^^^ 2 ^ i) % 2 ^ w : Nat) : Int) (place l w r i) =
      ((c % 2 ^ w : Nat) : Int) := by
    rw [Nat.xor_mod_two_pow]
    by_cases hiw : i < w
    · rw [correct_place hl _ hiw, Nat.mod_eq_of_lt (Nat.pow_lt_pow_right (by decide) hiw),
        Nat.xor_xor_cancel_right]
    · rw [correct_place_of_le hl _ (by omega), Nat.mod_eq_zero_of_dvd (pow_dvd_pow 2 (by omega)),
        Nat.xor_zero]
  rw [hdata]
  rfl

theorem decode_flip_flip (hl : l.Extended w r) {c i k : Nat} (hc : CodeWord l w r c)
    (hi : i ≤ w + r) (hk : k ≤ w + r) (hik : i ≠ k) :
    (l.decode ((c ^^^ 2 ^ i ^^^ 2 ^ k : Nat) : Int)).correctable = false ∧
      (l.decode ((c ^^^ 2 ^ i ^^^ 2 ^ k : Nat) : Int)).uncorrectable = true := by
  have hsyn : syndrome l w r (c ^^^ 2 ^ i ^^^ 2 ^ k) = place l w r i ^^^ place l w r k := by
    rw [syndrome_xor hl, syndrome_xor hl, hc.syndrome_eq, Nat.zero_xor, syndrome_two_pow hl hi,
      syndrome_two_pow hl hk]
  have heven : parity ((c ^^^ 2 ^ i ^^^ 2 ^ k : Nat) : Int) = false := by
    rw [parity_xor, parity_xor, hc.parity_eq, parity_two_pow, parity_two_pow]
    rfl
  have hne : place l w r i ^^^ place l w r k ≠ 0 := fun h =>
    hik (place_injective hl hi hk (Nat.xor_eq_zero_iff.1 h))
  have hlt := Nat.xor_lt_two_pow (Nat.xor_lt_two_pow hc.lt (two_pow_lt_of_le hi)) (two_pow_lt_of_le hk)
  rw [decode_natCast hl hlt, hsyn, heven]
  exact ⟨rfl, by simpa using hne⟩

end extended

/-- **The code corrects one wrong bit and detects two.** A word that was encoded is read back; with
one flipped bit, whichever it is, it is read back and reported as corrected; with two it is reported
as wrong. -/
theorem decode_of_flips (w : Nat) (hpos : 1 ≤ w) (hw : w ≤ 2 ^ 30) (data : Int) :
    (Layout.ofWidth w).decode ((Layout.ofWidth w).encode data) = ⟨data % 2 ^ w, 0, false, false⟩ ∧
      (∀ i : Nat, i < (Layout.ofWidth w).codeBits →
        ((Layout.ofWidth w).decode (toggle ((Layout.ofWidth w).encode data) i)).data = data % 2 ^ w ∧
        ((Layout.ofWidth w).decode (toggle ((Layout.ofWidth w).encode data) i)).correctable = true ∧
        ((Layout.ofWidth w).decode (toggle ((Layout.ofWidth w).encode data) i)).uncorrectable = false) ∧
      (∀ i k : Nat, i < (Layout.ofWidth w).codeBits → k < (Layout.ofWidth w).codeBits → i ≠ k →
        ((Layout.ofWidth w).decode
          (toggle (toggle ((Layout.ofWidth w).encode data) i) k)).correctable = false ∧
        ((Layout.ofWidth w).decode
          (toggle (toggle ((Layout.ofWidth w).encode data) i) k)).uncorrectable = true) := by
  have hl := extended_ofWidth hpos (lt_of_le_of_lt hw (by norm_num))
  obtain ⟨c, hencode, hc, hdata⟩ := encode_codeWord hl data
  have hbits : ∀ i : Nat, i < (Layout.ofWidth w).codeBits → i ≤ w + hammingBits w := fun i hi => by
    rw [codeBits_eq hl] at hi
    omega
  rw [hencode, ← hdata]
  refine ⟨decode_codeWord hl hc, fun i hi => ?_, fun i k hi hk hik => ?_⟩
  · rw [toggle_natCast, decode_flip hl hc (hbits i hi)]
    exact ⟨rfl, rfl, rfl⟩
  · rw [toggle_natCast, toggle_natCast]
    exact decode_flip_flip hl hc (hbits i hi) (hbits k hk) hik

/-- Four data bits, four check bits: a negative word, its parity bit flipped alone and with bit zero. -/
theorem decode_of_flips_four :
    (1 ≤ 4 ∧ 4 ≤ 2 ^ 30 ∧ (7 : Int) < (Layout.ofWidth 4).codeBits) ∧
      (Layout.ofWidth 4).decode ((Layout.ofWidth 4).encode (-3)) = ⟨(-3) % 2 ^ 4, 0, false, false⟩ ∧
      ((Layout.ofWidth 4).decode (toggle ((Layout.ofWidth 4).encode (-3)) 7)).data = (-3) % 2 ^ 4 ∧
      ((Layout.ofWidth 4).decode
        (toggle (toggle ((Layout.ofWidth 4).encode (-3)) 0) 7)).uncorrectable = true := by
  have hflips := decode_of_flips 4 (by decide) (by decide) (-3)
  have hzero : ((0 : Nat) : Int) < (Layout.ofWidth ((4 : Nat) : Int)).codeBits := by decide +kernel
  have hseven : ((7 : Nat) : Int) < (Layout.ofWidth ((4 : Nat) : Int)).codeBits := by decide +kernel
  exact ⟨⟨by decide, by decide, hseven⟩, hflips.1, (hflips.2.1 7 hseven).1,
    (hflips.2.2 0 7 hzero hseven (by decide)).2⟩

end MemoryCompiler.Ecc
