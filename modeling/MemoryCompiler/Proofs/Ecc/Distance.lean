import MemoryCompiler.Proofs.Ecc.Correction

/-!
# The received words that the decoder takes as they are

The sum of two words of the code is one again, so how far they are apart is how many ones a word of the
code has. A word of the code other than zero has at least four (`CodeWord.four_le_ones`): the parity
makes the number even, and two bits would leave the sum of their places, which differ, as a syndrome.
A word of the code is made by the encoder from its own data bits (`encode_eq_of_codeWord`), and the
decoder raises no flag for these words only. The main statement is `decode_of_received`.
-/

namespace MemoryCompiler.Ecc

/-! ### Ones -/

/-- The number of ones among the lowest `n` bits. -/
def ones (n x : Nat) : Nat := (List.range n).countP x.testBit

/-- In how many of the lowest `n` bits two words differ. -/
def distance (n : Nat) (x y : Int) : Nat := (List.range n).countP fun i => bit x i != bit y i

theorem oddCount_eq_decide (f : Nat → Bool) (l : List Nat) :
    oddCount f l = decide (l.countP f % 2 = 1) := by
  induction l with
  | nil => rfl
  | cons j l ih =>
    rw [oddCount_cons, ih, List.countP_cons]
    cases hj : f j
    · simp
    · rcases Nat.mod_two_eq_zero_or_one (l.countP f) with h | h
      · simp [h, Nat.add_mod]
      · simp [h, Nat.add_mod]

theorem parity_eq_decide {n x : Nat} (hx : x < 2 ^ n) : parity (x : Int) = decide (ones n x % 2 = 1) := by
  rw [parity_natCast hx, oddCount_eq_decide]
  rfl

theorem eq_zero_of_ones {n x : Nat} (hx : x < 2 ^ n) (h : ones n x = 0) : x = 0 := by
  apply Nat.eq_of_testBit_eq
  intro i
  rw [Nat.zero_testBit]
  by_cases hi : i < n
  · simp only [ones, List.countP_eq_zero, List.mem_range] at h
    simpa using h i hi
  · exact Nat.testBit_lt_two_pow (lt_of_lt_of_le hx (Nat.pow_le_pow_right (by decide) (by omega)))

theorem ones_two_pow {n i : Nat} (hi : i < n) : ones n (2 ^ i) = 1 := by
  have hbit : ∀ j ∈ List.range n, ((2 ^ i).testBit j = true ↔ (j == i) = true) := by
    intro j _
    rw [Nat.testBit_two_pow, beq_iff_eq, decide_eq_true_eq]
    omega
  rw [ones, List.countP_congr hbit]
  exact List.count_eq_one_of_mem List.nodup_range (List.mem_range.2 hi)

theorem ones_xor_two_pow {n x i : Nat} (hi : i < n) (hx : x.testBit i = true) :
    ones n (x ^^^ 2 ^ i) + 1 = ones n x := by
  have hsplit : ∀ l : List Nat, l.countP x.testBit =
      l.countP (x ^^^ 2 ^ i).testBit + l.countP (2 ^ i).testBit := by
    intro l
    induction l with
    | nil => rfl
    | cons j l ih =>
      rw [List.countP_cons, List.countP_cons, List.countP_cons, ih, Nat.testBit_xor, Nat.testBit_two_pow]
      by_cases hij : i = j
      · subst hij
        simp [hx]
        omega
      · simp [hij]
        omega
  have htwo := ones_two_pow hi
  have hall := hsplit (List.range n)
  simp only [ones] at htwo ⊢
  omega

theorem exists_testBit_of_ones {n x : Nat} (h : ones n x ≠ 0) : ∃ i < n, x.testBit i = true := by
  simp only [ones, ne_eq, List.countP_eq_zero, List.mem_range, not_forall, not_not] at h
  obtain ⟨i, hi, hbit⟩ := h
  exact ⟨i, hi, hbit⟩

theorem eq_two_pow_of_ones {n x : Nat} (hx : x < 2 ^ n) (h : ones n x = 1) : ∃ i < n, x = 2 ^ i := by
  obtain ⟨i, hi, hbit⟩ := exists_testBit_of_ones (n := n) (x := x) (by omega)
  have hrest := ones_xor_two_pow hi hbit
  have hpow : 2 ^ i < 2 ^ n := Nat.pow_lt_pow_right (by decide) hi
  have hzero := eq_zero_of_ones (Nat.xor_lt_two_pow hx hpow) (by omega : ones n (x ^^^ 2 ^ i) = 0)
  exact ⟨i, hi, Nat.xor_eq_zero_iff.1 hzero⟩

theorem distance_natCast (n x y : Nat) : distance n (x : Int) (y : Int) = ones n (x ^^^ y) := by
  apply List.countP_congr
  intro i _
  rw [bit_natCast, bit_natCast, Nat.testBit_xor]

/-! ### Words of the code -/

section extended

variable {l : Layout} {w r : Nat}

theorem CodeWord.xor (hl : l.Extended w r) {c d : Nat} (hc : CodeWord l w r c) (hd : CodeWord l w r d) :
    CodeWord l w r (c ^^^ d) where
  lt := Nat.xor_lt_two_pow hc.lt hd.lt
  syndrome_eq := by rw [syndrome_xor hl, hc.syndrome_eq, hd.syndrome_eq, Nat.xor_self]
  parity_eq := by
    rw [parity_xor, hc.parity_eq, hd.parity_eq]
    rfl

/-- **The least distance of the code is four.** -/
theorem CodeWord.four_le_ones (hl : l.Extended w r) {c : Nat} (hc : CodeWord l w r c) (hne : c ≠ 0) :
    4 ≤ ones (w + r + 1) c := by
  have heven := hc.parity_eq
  rw [parity_eq_decide hc.lt, decide_eq_false_iff_not] at heven
  have hsome : ones (w + r + 1) c ≠ 0 := fun h => hne (eq_zero_of_ones hc.lt h)
  have htwo : ones (w + r + 1) c ≠ 2 := by
    intro h
    obtain ⟨i, hi, hbit⟩ := exists_testBit_of_ones hsome
    have hrest := ones_xor_two_pow hi hbit
    have hpow : 2 ^ i < 2 ^ (w + r + 1) := Nat.pow_lt_pow_right (by decide) hi
    obtain ⟨k, hk, hck⟩ := eq_two_pow_of_ones (Nat.xor_lt_two_pow hc.lt hpow) (by omega)
    have hsum : c = 2 ^ k ^^^ 2 ^ i := by rw [← hck, Nat.xor_xor_cancel_right]
    have hsyn := hc.syndrome_eq
    rw [hsum, syndrome_xor hl, syndrome_two_pow hl (by omega), syndrome_two_pow hl (by omega),
      Nat.xor_eq_zero_iff] at hsyn
    have hki := place_injective hl (by omega) (by omega) hsyn
    rw [hsum, hki, Nat.xor_self] at hne
    exact hne rfl
  omega

theorem CodeWord.eq_of_mod_eq (hl : l.Extended w r) {c d : Nat} (hc : CodeWord l w r c)
    (hd : CodeWord l w r d) (h : c % 2 ^ w = d % 2 ^ w) : c = d := by
  have hx := hc.xor hl hd
  rw [← Nat.xor_eq_zero_iff]
  generalize hsum : c ^^^ d = x at hx
  have hlow : x % 2 ^ w = 0 := by rw [← hsum, Nat.xor_mod_two_pow, h, Nat.xor_self]
  -- no check bit is set either, so only the parity bit can be
  have hcheck : x / 2 ^ w % 2 ^ r = 0 := by
    have hsyn := hx.syndrome_eq
    rwa [syndrome, hlow, check_zero hl, Nat.xor_zero] at hsyn
  have hhigh : x / 2 ^ w / 2 ^ r < 2 := by
    have hlt := hx.lt
    rw [Nat.div_div_eq_div_mul, ← pow_add]
    exact (Nat.div_lt_iff_lt_mul (Nat.two_pow_pos _)).2 (by rw [pow_succ] at hlt; omega)
  have hparts : x = x / 2 ^ w / 2 ^ r * 2 ^ (w + r) := by
    have h1 := Nat.div_add_mod x (2 ^ w)
    have h2 := Nat.div_add_mod (x / 2 ^ w) (2 ^ r)
    rw [hlow, Nat.add_zero] at h1
    rw [hcheck, Nat.add_zero] at h2
    rw [pow_add, ← h1, ← h2]
    simp only [Nat.mul_div_cancel_left _ (Nat.two_pow_pos _)]
    ring
  rcases Nat.le_one_iff_eq_zero_or_eq_one.1 (Nat.lt_succ_iff.1 hhigh) with htop | htop
  · rw [hparts, htop, Nat.zero_mul]
  · have hodd := hx.parity_eq
    rw [hparts, htop, Nat.one_mul, parity_two_pow] at hodd
    exact Bool.noConfusion hodd

theorem encode_eq_of_codeWord (hl : l.Extended w r) {c : Nat} (hc : CodeWord l w r c) :
    l.encode ((c % 2 ^ w : Nat) : Int) = c := by
  obtain ⟨d, hencode, hd, hdata⟩ := encode_codeWord hl ((c % 2 ^ w : Nat) : Int)
  have hsame : d % 2 ^ w = c % 2 ^ w := by
    push_cast at hdata
    rw [Int.emod_emod_of_dvd _ (dvd_refl _)] at hdata
    exact_mod_cast hdata
  rw [hencode, hd.eq_of_mod_eq hl hc hsame]

theorem four_le_distance_encode (hl : l.Extended w r) {a b : Int} (h : a % 2 ^ w ≠ b % 2 ^ w) :
    4 ≤ distance (w + r + 1) (l.encode a) (l.encode b) := by
  obtain ⟨c, hencode, hc, hdata⟩ := encode_codeWord hl a
  obtain ⟨d, hencode', hd, hdata'⟩ := encode_codeWord hl b
  rw [hencode, hencode', distance_natCast]
  refine (hc.xor hl hd).four_le_ones hl fun hzero => h ?_
  rw [← hdata, ← hdata', Nat.xor_eq_zero_iff.1 hzero]

/-! ### Received words -/

theorem decode_lowBits (hl : l.Extended w r) (c : Int) {d : Nat}
    (hlow : lowBits ((w + r + 1 : Nat) : Int) c = d) (hd : d < 2 ^ (w + r + 1)) :
    l.decode c = l.decode (d : Int) := by
  have hsame : lowBits l.codeBits c = lowBits l.codeBits (d : Int) := by
    rw [codeBits_eq hl, hlow, lowBits_natCast, Nat.mod_eq_of_lt hd]
  simp only [Layout.decode, hsame]

theorem correct_lt (hl : l.Extended w r) {x : Nat} (hx : x < 2 ^ w) (s : Nat) :
    ∃ y : Nat, l.correct (x : Int) s = y ∧ y < 2 ^ w := by
  unfold Layout.correct
  cases hs : l.positions.idxOf? s with
  | none => exact ⟨x, rfl, hx⟩
  | some j =>
    obtain ⟨hj, -⟩ := List.idxOf?_eq_some_iff.1 hs
    rw [hl.length_positions] at hj
    exact ⟨_, toggle_natCast x j, Nat.xor_lt_two_pow hx (Nat.pow_lt_pow_right (by decide) hj)⟩

/-- The decoder raises no flag for the words of the code, and for no others. -/
theorem decode_flags_iff (hl : l.Extended w r) {c : Nat} (hc : c < 2 ^ (w + r + 1)) :
    (l.decode (c : Int)).correctable = false ∧ (l.decode (c : Int)).uncorrectable = false ↔
      CodeWord l w r c := by
  rw [decode_natCast hl hc]
  constructor
  · rintro ⟨heven, hclean⟩
    dsimp only at heven hclean
    refine ⟨hc, ?_, heven⟩
    simpa [heven] using hclean
  · intro hword
    simp [hword.parity_eq, hword.syndrome_eq]

theorem not_both_flags (hl : l.Extended w r) {c : Nat} (hc : c < 2 ^ (w + r + 1)) :
    ¬ ((l.decode (c : Int)).correctable = true ∧ (l.decode (c : Int)).uncorrectable = true) := by
  rw [decode_natCast hl hc]
  rintro ⟨hodd, hwrong⟩
  dsimp only at hodd hwrong
  simp [hodd] at hwrong

theorem decode_data_bounds (hl : l.Extended w r) {c : Nat} (hc : c < 2 ^ (w + r + 1)) :
    0 ≤ (l.decode (c : Int)).data ∧ (l.decode (c : Int)).data < 2 ^ w := by
  have hfits : c % 2 ^ w < 2 ^ w := Nat.mod_lt _ (Nat.two_pow_pos w)
  rw [decode_natCast hl hc]
  dsimp only
  split_ifs
  · obtain ⟨y, hy, hylt⟩ := correct_lt hl hfits (syndrome l w r c)
    rw [hy]
    exact ⟨Int.natCast_nonneg y, by exact_mod_cast hylt⟩
  · exact ⟨Int.natCast_nonneg _, by exact_mod_cast hfits⟩

theorem decode_data_of_not_correctable (hl : l.Extended w r) {c : Nat} (hc : c < 2 ^ (w + r + 1))
    (h : (l.decode (c : Int)).correctable = false) : (l.decode (c : Int)).data = (c : Int) % 2 ^ w := by
  rw [decode_natCast hl hc] at h ⊢
  dsimp only at h ⊢
  rw [h, if_neg Bool.false_ne_true]
  push_cast
  rfl

theorem encode_bounds (hl : l.Extended w r) (data : Int) :
    0 ≤ l.encode data ∧ l.encode data < 2 ^ (w + r + 1) ∧ l.encode data % 2 ^ w = data % 2 ^ w := by
  obtain ⟨c, hencode, hc, hlowest⟩ := encode_codeWord hl data
  rw [hencode, ← hlowest]
  refine ⟨Int.natCast_nonneg c, by exact_mod_cast hc.lt, ?_⟩
  push_cast
  rfl

theorem codeWord_iff_encode (hl : l.Extended w r) {c : Nat} :
    CodeWord l w r c ↔ (c : Int) = l.encode ((c % 2 ^ w : Nat) : Int) := by
  constructor
  · intro h
    rw [encode_eq_of_codeWord hl h]
  · intro h
    obtain ⟨d, hencode, hd, -⟩ := encode_codeWord hl ((c % 2 ^ w : Nat) : Int)
    rw [hencode] at h
    rwa [Int.ofNat_inj.1 h]

theorem decode_of_near (hl : l.Extended w r) {c d : Nat} (hc : c < 2 ^ (w + r + 1))
    (hd : CodeWord l w r d) (hnear : ones (w + r + 1) (c ^^^ d) ≤ 1) :
    (l.decode (c : Int)).data = ((d % 2 ^ w : Nat) : Int) := by
  have hlt := Nat.xor_lt_two_pow hc hd.lt
  rcases (by omega : ones (w + r + 1) (c ^^^ d) = 0 ∨ ones (w + r + 1) (c ^^^ d) = 1) with h | h
  · rw [Nat.xor_eq_zero_iff.1 (eq_zero_of_ones hlt h), decode_codeWord hl hd]
  · obtain ⟨i, hi, hflip⟩ := eq_two_pow_of_ones hlt h
    have hword : c = d ^^^ 2 ^ i := by
      rw [← hflip, Nat.xor_comm c d, ← Nat.xor_assoc, Nat.xor_self, Nat.zero_xor]
    rw [hword, decode_flip hl hd (by omega)]

end extended

/-- **The decoder accepts exactly the code.** For every received word `c`, of which the code sees
`c % 2 ^ codeBits`: no flag means that the word is the one made from its own data bits; both flags do not
occur; the data fit into their bits and are left alone unless a correction is reported; words made from
different data are four bits apart; a word next to a made one is read as that one and next to no other;
and a made word fits into the bits of the code and carries its data lowest. -/
theorem decode_of_received (w : Nat) (hpos : 1 ≤ w) (hw : w ≤ 2 ^ 30) (c : Int) :
    (((Layout.ofWidth w).decode c).correctable = false ∧
        ((Layout.ofWidth w).decode c).uncorrectable = false ↔
      c % 2 ^ (Layout.ofWidth w).codeBits.toNat =
        (Layout.ofWidth w).encode (c % 2 ^ (Layout.ofWidth w).codeBits.toNat % 2 ^ w)) ∧
    ¬ (((Layout.ofWidth w).decode c).correctable = true ∧
      ((Layout.ofWidth w).decode c).uncorrectable = true) ∧
    (0 ≤ ((Layout.ofWidth w).decode c).data ∧ ((Layout.ofWidth w).decode c).data < 2 ^ w) ∧
    (((Layout.ofWidth w).decode c).correctable = false →
      ((Layout.ofWidth w).decode c).data = c % 2 ^ (Layout.ofWidth w).codeBits.toNat % 2 ^ w) ∧
    (∀ a b : Int, a % 2 ^ w ≠ b % 2 ^ w → 4 ≤ distance (Layout.ofWidth w).codeBits.toNat
      ((Layout.ofWidth w).encode a) ((Layout.ofWidth w).encode b)) ∧
    (∀ data : Int, distance (Layout.ofWidth w).codeBits.toNat
        (c % 2 ^ (Layout.ofWidth w).codeBits.toNat) ((Layout.ofWidth w).encode data) ≤ 1 →
      (Layout.ofWidth w).encode data = (Layout.ofWidth w).encode ((Layout.ofWidth w).decode c).data ∧
      ∀ other : Int, distance (Layout.ofWidth w).codeBits.toNat
          (c % 2 ^ (Layout.ofWidth w).codeBits.toNat) ((Layout.ofWidth w).encode other) ≤ 1 →
        (Layout.ofWidth w).encode other = (Layout.ofWidth w).encode data) ∧
    ∀ data : Int, 0 ≤ (Layout.ofWidth w).encode data ∧
      (Layout.ofWidth w).encode data < 2 ^ (Layout.ofWidth w).codeBits.toNat ∧
      (Layout.ofWidth w).encode data % 2 ^ w = data % 2 ^ w := by
  have hl := extended_ofWidth hpos (lt_of_le_of_lt hw (by norm_num))
  generalize Layout.ofWidth w = l at hl
  generalize hammingBits (w : Int) = r at hl
  obtain ⟨d, hd, hlow, hmod⟩ := exists_lowBits (w + r + 1) c
  have hbits : l.codeBits.toNat = w + r + 1 := by rw [codeBits_eq hl, Int.toNat_natCast]
  rw [hbits, ← hmod, decode_lowBits hl c hlow hd]
  have hdata : ((d : Int) % 2 ^ w) = ((d % 2 ^ w : Nat) : Int) := by push_cast; rfl
  have hnear : ∀ data : Int, distance (w + r + 1) (d : Int) (l.encode data) ≤ 1 →
      l.encode data = l.encode (l.decode (d : Int)).data := by
    intro data h
    obtain ⟨e, hencode, he, hlowest⟩ := encode_codeWord hl data
    rw [hencode, distance_natCast] at h
    rw [decode_of_near hl hd he h, hencode, encode_eq_of_codeWord hl he]
  refine ⟨?_, not_both_flags hl hd, decode_data_bounds hl hd, decode_data_of_not_correctable hl hd,
    fun a b => four_le_distance_encode hl, ?_, encode_bounds hl⟩
  · rw [decode_flags_iff hl hd, hdata]
    exact codeWord_iff_encode hl
  · intro data h
    refine ⟨hnear data h, ?_⟩
    intro other hother
    rw [hnear data h, hnear other hother]

/-- Four data bits: a negative word that is received, one bit away from the word of six. -/
theorem decode_of_received_four :
    (1 ≤ 4 ∧ 4 ≤ 2 ^ 30 ∧ distance (Layout.ofWidth 4).codeBits.toNat
        (-204 % 2 ^ (Layout.ofWidth 4).codeBits.toNat) ((Layout.ofWidth 4).encode 6) ≤ 1) ∧
      (Layout.ofWidth 4).encode 6 = (Layout.ofWidth 4).encode ((Layout.ofWidth 4).decode (-204)).data ∧
      4 ≤ distance (Layout.ofWidth 4).codeBits.toNat ((Layout.ofWidth 4).encode 6)
        ((Layout.ofWidth 4).encode (-7)) := by
  obtain ⟨-, -, -, -, hapart, hnear, -⟩ := decode_of_received 4 (by decide) (by decide) (-204)
  have hdistance : distance (Layout.ofWidth ((4 : Nat) : Int)).codeBits.toNat
      (-204 % 2 ^ (Layout.ofWidth ((4 : Nat) : Int)).codeBits.toNat)
      ((Layout.ofWidth ((4 : Nat) : Int)).encode 6) ≤ 1 := by decide +kernel
  exact ⟨⟨by decide, by decide, hdistance⟩, (hnear 6 hdistance).1, hapart 6 (-7) (by decide)⟩

end MemoryCompiler.Ecc
