import MemoryCompiler.Proofs.Ecc.Correction

/-!
# The code on lists of bits

Encoder and decoder as a circuit computes them: a word is the list of its bits, the lowest first. The
lists agree with the integers (`encode_wordBits`, `decode_wordBits`).
-/

namespace MemoryCompiler.Ecc

/-! ### Numbers of some bits -/

theorem ofBits_append (bs cs : List Bool) :
    ofBits (bs ++ cs) = ofBits bs + ofBits cs * 2 ^ bs.length := by
  induction bs with
  | nil => simp [ofBits]
  | cons b bs ih =>
    rw [List.cons_append, ofBits, ofBits, ih, List.length_cons, pow_succ]
    ring

theorem ofBits_mod (bs : List Bool) (n : Nat) : ofBits bs % 2 ^ n = ofBits (bs.take n) := by
  apply Nat.eq_of_testBit_eq
  intro i
  rw [Nat.testBit_mod_two_pow, testBit_ofBits, testBit_ofBits, List.getElem?_take]
  split_ifs with h
  · rw [decide_eq_true h, Bool.true_and]
  · rw [decide_eq_false h, Bool.false_and]
    rfl

theorem ofBits_div (bs : List Bool) (n : Nat) : ofBits bs / 2 ^ n = ofBits (bs.drop n) := by
  apply Nat.eq_of_testBit_eq
  intro i
  rw [Nat.testBit_div_two_pow, testBit_ofBits, testBit_ofBits, List.getElem?_drop, Nat.add_comm]

theorem ofBits_injective {bs cs : List Bool} (hlen : bs.length = cs.length)
    (h : ofBits bs = ofBits cs) : bs = cs := by
  apply List.ext_getElem hlen
  intro i hb hc
  have hbit := congrArg (Nat.testBit · i) h
  simpa only [testBit_ofBits, List.getElem?_eq_getElem hb, List.getElem?_eq_getElem hc,
    Option.getD_some] using hbit

theorem ofBits_ne_zero (bs : List Bool) : (ofBits bs != 0) = bs.any id := by
  induction bs with
  | nil => rfl
  | cons b bs ih =>
    rw [ofBits, List.any_cons, ← ih, Bool.eq_iff_iff]
    cases b <;> simp

theorem ofBits_zipWith_xor {bs cs : List Bool} (hlen : bs.length = cs.length) :
    ofBits (List.zipWith xor bs cs) = ofBits bs ^^^ ofBits cs := by
  apply Nat.eq_of_testBit_eq
  intro i
  rw [Nat.testBit_xor, testBit_ofBits, testBit_ofBits, testBit_ofBits, List.getElem?_zipWith]
  by_cases hi : i < bs.length
  · rw [List.getElem?_eq_getElem hi, List.getElem?_eq_getElem (hlen ▸ hi)]
    rfl
  · rw [List.getElem?_eq_none (by omega), List.getElem?_eq_none (by omega)]
    rfl

/-! ### Bits of an integer -/

/-- The lowest bits of an integer. -/
def wordBits (n : Nat) (x : Int) : List Bool := (List.range n).map (bit x)

theorem length_wordBits (n : Nat) (x : Int) : (wordBits n x).length = n := by
  rw [wordBits, List.length_map, List.length_range]

theorem wordBits_natCast (n x : Nat) : wordBits n (x : Int) = (List.range n).map x.testBit :=
  List.map_congr_left fun i _ => bit_natCast x i

theorem bit_emod {n i : Nat} (hi : i < n) (x : Int) : bit (x % 2 ^ n) i = bit x i := by
  have hpow : (2 : Int) ^ n = 2 ^ i * (2 * 2 ^ (n - i - 1)) := by
    rw [← pow_succ', ← pow_add]
    congr 1
    omega
  have hx : x = x % 2 ^ n + 2 ^ i * (2 * (2 ^ (n - i - 1) * (x / 2 ^ n))) := by
    have hsplit := Int.emod_add_mul_ediv x (2 ^ n)
    calc x = x % 2 ^ n + 2 ^ n * (x / 2 ^ n) := hsplit.symm
      _ = x % 2 ^ n + 2 ^ i * (2 * 2 ^ (n - i - 1)) * (x / 2 ^ n) := by rw [← hpow]
      _ = _ := by ring
  have hquotient : x / 2 ^ i % 2 = x % 2 ^ n / 2 ^ i % 2 := by
    conv_lhs => rw [hx]
    rw [Int.add_mul_ediv_left _ _ (by positivity), Int.add_mul_emod_self_left]
  rw [bit, bit, hquotient]

theorem ofBits_wordBits (n : Nat) (x : Int) : lowBits n x = (ofBits (wordBits n x) : Int) := by
  obtain ⟨d, hd, hlow, hmod⟩ := exists_lowBits n x
  have hbits : wordBits n x = (List.range n).map d.testBit := by
    rw [← wordBits_natCast, hmod]
    exact List.map_congr_left fun i hi => (bit_emod (List.mem_range.1 hi) x).symm
  rw [hlow, hbits, Int.natCast_inj]
  apply Nat.eq_of_testBit_eq
  intro i
  rw [testBit_ofBits, List.getElem?_map]
  by_cases hi : i < n
  · rw [List.getElem?_range hi]
    rfl
  · rw [List.getElem?_eq_none (by simpa using hi), Option.map_none,
      Nat.testBit_lt_two_pow (lt_of_lt_of_le hd (Nat.pow_le_pow_right (by decide) (by omega)))]
    rfl

theorem ofBits_eq_iff {bs : List Bool} {n p : Nat} (hlen : bs.length = n) (hp : p < 2 ^ n) :
    ofBits bs = p ↔ bs = (List.range n).map p.testBit := by
  have hbits : ofBits ((List.range n).map p.testBit) = p := by
    have hword := ofBits_wordBits n (p : Int)
    rw [lowBits_natCast, Nat.mod_eq_of_lt hp, wordBits_natCast, Int.natCast_inj] at hword
    exact hword.symm
  constructor
  · intro h
    exact ofBits_injective (by simp [hlen]) (h.trans hbits.symm)
  · rintro rfl
    exact hbits

/-! ### Sums of bits -/

/-- The sum without carry of some bits. -/
def xorAll (bs : List Bool) : Bool := bs.foldr xor false

theorem oddCount_eq_xorAll (f : Nat → Bool) (js : List Nat) : oddCount f js = xorAll (js.map f) := by
  induction js with
  | nil => rfl
  | cons j js ih => rw [oddCount_cons, List.map_cons, xorAll, List.foldr_cons, ih, xorAll]

theorem map_getD_range (bs : List Bool) :
    (List.range bs.length).map (fun i => bs.getD i false) = bs := by
  apply List.ext_getElem (by simp)
  intro i hi hb
  simp [List.getD_eq_getElem?_getD, List.getElem?_eq_getElem hb]

theorem parity_ofBits (bs : List Bool) : parity (ofBits bs : Int) = xorAll bs := by
  rw [parity_natCast (ofBits_lt bs), oddCount_eq_xorAll]
  have hbits : (List.range bs.length).map (ofBits bs).testBit =
      (List.range bs.length).map fun i => bs.getD i false :=
    List.map_congr_left fun i _ => by rw [testBit_ofBits, List.getD_eq_getElem?_getD]
  rw [hbits, map_getD_range]

/-- The check bits of the bits of a data word. -/
def checkList (l : Layout) (bs : List Bool) : List Bool :=
  l.coverage.map fun covered => xorAll (covered.map fun j => bs.getD j false)

theorem check_ofBits (l : Layout) (bs : List Bool) :
    l.check (ofBits bs : Int) = ofBits (checkList l bs) := by
  rw [Layout.check, checkList]
  congr 1
  apply List.map_congr_left
  intro covered _
  show oddCount (bit (ofBits bs : Int)) covered = _
  rw [oddCount_eq_xorAll]
  congr 1
  apply List.map_congr_left
  intro j _
  rw [bit_natCast, testBit_ofBits, List.getD_eq_getElem?_getD]

/-! ### Encoding -/

/-- Data, check bits and parity side by side. -/
def encodeList (l : Layout) (bs : List Bool) : List Bool :=
  bs ++ checkList l bs ++ [xorAll (bs ++ checkList l bs)]

section extended

variable {l : Layout} {w r : Nat}

theorem length_checkList (hl : l.Extended w r) (bs : List Bool) : (checkList l bs).length = r := by
  rw [checkList, List.length_map, hl.coverage, List.length_map, List.length_range]

theorem encode_wordBits (hl : l.Extended w r) (data : Int) :
    l.encode data = (ofBits (encodeList l (wordBits w data)) : Int) := by
  have hlen := length_wordBits w data
  have hlow := ofBits_wordBits w data
  generalize wordBits w data = bs at hlen hlow ⊢
  have hd : ofBits bs < 2 ^ w := by
    rw [← hlen]
    exact ofBits_lt bs
  have hbody : ofBits bs + l.check (ofBits bs : Int) * 2 ^ w = ofBits (bs ++ checkList l bs) := by
    rw [check_ofBits, ofBits_append, hlen]
  have hbodylen : (bs ++ checkList l bs).length = w + r := by
    rw [List.length_append, hlen, length_checkList hl]
  have hword : ofBits (encodeList l bs) = ofBits (bs ++ checkList l bs) +
      ofBits [xorAll (bs ++ checkList l bs)] * 2 ^ (w + r) := by
    rw [encodeList, ofBits_append, hbodylen]
  have hlt : ofBits (bs ++ checkList l bs) < 2 ^ (w + r) := by
    rw [← hbodylen]
    exact ofBits_lt _
  rw [encode_eq hl hlow hd, hbody, parity_ofBits, hword, Int.natCast_inj]
  cases xorAll (bs ++ checkList l bs)
  · simp [ofBits]
  · rw [if_pos rfl, ← add_two_pow_eq_xor (Nat.testBit_lt_two_pow hlt)]
    simp [ofBits]

/-! ### Decoding -/

/-- Received check bits added to recomputed ones. -/
def syndromeList (l : Layout) (w r : Nat) (bs : List Bool) : List Bool :=
  List.zipWith xor ((bs.drop w).take r) (checkList l (bs.take w))

/-- Toggles a data bit if the parity is odd and the syndrome is its position. -/
def correctList (l : Layout) (w r : Nat) (bs : List Bool) : List Bool :=
  (bs.take w).mapIdx fun j b => b ^^
    (xorAll bs && decide (syndromeList l w r bs = (List.range r).map (l.positions.getD j 0).testBit))

theorem length_syndromeList (hl : l.Extended w r) {bs : List Bool} (hlen : bs.length = w + r + 1) :
    (syndromeList l w r bs).length = r := by
  rw [syndromeList, List.length_zipWith, length_checkList hl, List.length_take, List.length_drop]
  omega

theorem correctList_eq_mapIdx_positions (hl : l.Extended w r) {bs : List Bool}
    (hlen : bs.length = w + r + 1) :
    correctList l w r bs = l.positions.mapIdx fun j p => (bs.take w).getD j false ^^
      (xorAll bs && decide (syndromeList l w r bs = (List.range r).map p.testBit)) := by
  have htake : (bs.take w).length = w := by
    rw [List.length_take]
    omega
  rw [correctList]
  apply List.ext_getElem (by rw [List.length_mapIdx, List.length_mapIdx, htake, hl.length_positions])
  intro j hj hj'
  rw [List.length_mapIdx] at hj hj'
  rw [List.getElem_mapIdx, List.getElem_mapIdx, List.getD_eq_getElem?_getD, List.getD_eq_getElem?_getD,
    List.getElem?_eq_getElem hj, List.getElem?_eq_getElem hj', Option.getD_some, Option.getD_some]

theorem syndrome_ofBits (hl : l.Extended w r) {bs : List Bool} (hlen : bs.length = w + r + 1) :
    syndrome l w r (ofBits bs) = ofBits (syndromeList l w r bs) := by
  have hcheck := length_checkList hl (bs.take w)
  rw [syndrome, ofBits_div, ofBits_mod, ofBits_mod, check_ofBits, syndromeList, ofBits_zipWith_xor]
  rw [List.length_take, List.length_drop, hcheck]
  omega

theorem correct_ofBits (hl : l.Extended w r) {bs : List Bool} (hlen : bs.length = w) (s : Nat) :
    l.correct (ofBits bs : Int) s =
      (ofBits (bs.mapIdx fun j b => b ^^ decide (l.positions.getD j 0 = s)) : Int) := by
  have hget : ∀ j < w, ∃ p, l.positions[j]? = some p ∧ l.positions.getD j 0 = p := fun j hj => by
    have hj' : j < l.positions.length := by rwa [hl.length_positions]
    refine ⟨l.positions[j], List.getElem?_eq_getElem hj', ?_⟩
    rw [List.getD_eq_getElem?_getD, List.getElem?_eq_getElem hj', Option.getD_some]
  rw [Layout.correct]
  cases hs : l.positions.idxOf? s with
  | none =>
    have hnone : ∀ j < w, l.positions.getD j 0 ≠ s := by
      intro j hj he
      obtain ⟨p, hp, hgetD⟩ := hget j hj
      rw [List.idxOf?_eq_none_iff] at hs
      exact hs (by rw [← he, hgetD]; exact List.mem_of_getElem? hp)
    have hsame : bs.mapIdx (fun j b => b ^^ decide (l.positions.getD j 0 = s)) = bs := by
      apply List.ext_getElem (List.length_mapIdx)
      intro j hj hj'
      rw [List.getElem_mapIdx, decide_eq_false (hnone j (hlen ▸ hj')), Bool.xor_false]
    rw [hsame]
  | some i =>
    obtain ⟨hi, hpi, -⟩ := List.idxOf?_eq_some_iff.1 hs
    have hiw : i < w := by rwa [hl.length_positions] at hi
    show toggle (ofBits bs : Int) i = _
    rw [toggle_natCast, Int.natCast_inj]
    apply Nat.eq_of_testBit_eq
    intro j
    rw [Nat.testBit_xor, testBit_ofBits, testBit_ofBits, Nat.testBit_two_pow, List.getElem?_mapIdx]
    by_cases hj : j < w
    · obtain ⟨p, hp, hgetD⟩ := hget j hj
      have hiff : i = j ↔ l.positions.getD j 0 = s := by
        constructor
        · rintro rfl
          rw [hgetD]
          exact Option.some.inj (hp.symm.trans ((List.getElem?_eq_getElem hi).trans (congrArg some hpi)))
        · intro he
          rw [← he, hgetD, idxOf?_positions hl hp] at hs
          exact (Option.some.inj hs).symm
      rw [List.getElem?_eq_getElem (hlen.symm ▸ hj), Option.map_some, Option.getD_some,
        Option.getD_some, decide_eq_decide.2 hiff]
    · rw [List.getElem?_eq_none (by omega), Option.map_none, decide_eq_false (by omega)]
      rfl

theorem decode_wordBits (hl : l.Extended w r) (code : Int) {bs : List Bool}
    (hbs : bs = wordBits (w + r + 1) code) :
    l.decode code =
      { data := (ofBits (correctList l w r bs) : Int)
        syndrome := ofBits (syndromeList l w r bs)
        correctable := xorAll bs
        uncorrectable := !xorAll bs && (syndromeList l w r bs).any id } := by
  have hlen : bs.length = w + r + 1 := by rw [hbs, length_wordBits]
  have hlow : lowBits ((w + r + 1 : Nat) : Int) code = (ofBits bs : Int) := by
    rw [hbs, ofBits_wordBits]
  have hlt : ofBits bs < 2 ^ (w + r + 1) := by
    rw [← hlen]
    exact ofBits_lt bs
  have hcut : l.decode code = l.decode (ofBits bs : Int) := by
    simp only [Layout.decode, codeBits_eq hl, hlow, lowBits_natCast, Nat.mod_eq_of_lt hlt]
  have htake : (bs.take w).length = w := by
    rw [List.length_take]
    omega
  have hsyn := syndrome_ofBits hl hlen
  have hsynlen := length_syndromeList hl hlen
  rw [hcut, decode_natCast hl hlt, parity_ofBits, hsyn, ofBits_ne_zero, ofBits_mod,
    correct_ofBits hl htake]
  have hdata : (if xorAll bs = true
        then (ofBits ((bs.take w).mapIdx fun j b =>
          b ^^ decide (l.positions.getD j 0 = ofBits (syndromeList l w r bs))) : Int)
        else (ofBits (bs.take w) : Int)) = (ofBits (correctList l w r bs) : Int) := by
    rw [correctList]
    cases xorAll bs
    · rw [if_neg Bool.false_ne_true]
      congr 2
      apply List.ext_getElem List.length_mapIdx.symm
      intro j hj hj'
      rw [List.getElem_mapIdx, Bool.false_and, Bool.xor_false]
    · rw [if_pos rfl, List.mapIdx_eq_mapIdx_iff.2]
      intro j hj
      have hlj : j < l.positions.length := by rw [hl.length_positions]; omega
      have hmem : l.positions.getD j 0 ∈ l.positions := by
        rw [List.getD_eq_getElem?_getD, List.getElem?_eq_getElem hlj]
        exact List.getElem_mem hlj
      have hiff := ofBits_eq_iff hsynlen (hl.position_lt _ hmem)
      rw [Bool.true_and, decide_eq_decide.2 (eq_comm.trans hiff)]
  rw [hdata]

end extended

end MemoryCompiler.Ecc
