import MemoryCompiler.Ecc.Layout
import MemoryCompiler.Proofs.Ecc.CheckBits

/-!
# Positions of the data bits

With the least number `r` of check bits, exactly `r` of the first `w + r` positions are powers of
two. So the data bits take all the others (`mem_positions`), and every position is a number of `r`
bits. `Layout.Extended` collects what the rest of the theory uses of a layout; `extended_ofWidth`
says that the layout of every width has it.
-/

namespace MemoryCompiler.Ecc

theorem isPowerOfTwo_iff {n : Nat} : isPowerOfTwo n = true ↔ ∃ k, n = 2 ^ k := by
  rw [isPowerOfTwo, beq_iff_eq]
  constructor
  · intro h
    exact ⟨_, h⟩
  · rintro ⟨k, rfl⟩
    rw [Nat.log2_two_pow]

theorem log2_succ {n : Nat} (hn : 1 ≤ n) :
    Nat.log2 (n + 1) = Nat.log2 n + (if isPowerOfTwo (n + 1) then 1 else 0) := by
  obtain ⟨hlow, hhigh⟩ := (Nat.log2_eq_iff (by omega : n ≠ 0)).1 rfl
  rw [Nat.log2_eq_iff (by omega)]
  split_ifs with hpow
  · obtain ⟨k, hk⟩ := isPowerOfTwo_iff.1 hpow
    have hlogk : Nat.log2 n < k :=
      (Nat.pow_lt_pow_iff_right (by decide : 1 < 2)).1 (by omega : 2 ^ Nat.log2 n < 2 ^ k)
    have hge : 2 ^ (Nat.log2 n + 1) ≤ 2 ^ k := Nat.pow_le_pow_right (by decide) hlogk
    rw [pow_succ 2 (Nat.log2 n + 1)]
    omega
  · have hne : n + 1 ≠ 2 ^ (Nat.log2 n + 1) := fun he => hpow (isPowerOfTwo_iff.2 ⟨_, he⟩)
    rw [Nat.add_zero]
    omega

theorem countP_isPowerOfTwo {n : Nat} (hn : 1 ≤ n) :
    (List.range' 1 n).countP isPowerOfTwo = Nat.log2 n + 1 := by
  induction n, hn using Nat.le_induction with
  | base => decide
  | succ n hn ih =>
    rw [List.range'_concat, List.countP_append, ih, log2_succ hn, Nat.one_mul, Nat.add_comm 1 n]
    simp only [List.countP_cons, List.countP_nil]
    omega

/-- The positions up to `n` that are no power of two, in ascending order. -/
def freePositions (n : Nat) : List Nat := (List.range' 1 n).filter fun p => !isPowerOfTwo p

theorem mem_freePositions {n p : Nat} :
    p ∈ freePositions n ↔ 1 ≤ p ∧ p ≤ n ∧ isPowerOfTwo p = false := by
  simp only [freePositions, List.mem_filter, List.mem_range'_1, Bool.not_eq_true']
  constructor
  · rintro ⟨⟨hlow, hhigh⟩, hfree⟩
    exact ⟨hlow, by omega, hfree⟩
  · rintro ⟨hlow, hhigh, hfree⟩
    exact ⟨⟨hlow, by omega⟩, hfree⟩

theorem length_freePositions {n : Nat} (hn : 1 ≤ n) :
    (freePositions n).length + (Nat.log2 n + 1) = n := by
  have hsplit := List.length_eq_countP_add_countP isPowerOfTwo (l := List.range' 1 n)
  have hfree : (freePositions n).length =
      (List.range' 1 n).countP fun p => decide (¬isPowerOfTwo p = true) := by
    rw [freePositions, ← List.countP_eq_length_filter]
    exact List.countP_congr fun p _ => by simp
  rw [List.length_range', countP_isPowerOfTwo hn, ← hfree] at hsplit
  omega

theorem sorted_freePositions (n : Nat) : (freePositions n).Pairwise (· < ·) :=
  List.Pairwise.filter _ List.pairwise_lt_range'

/-! ### What the theory uses of a layout -/

/-- A layout of `w` data bits and `r` check bits that is laid out as an extended Hamming code. -/
structure Layout.Extended (l : Layout) (w r : Nat) : Prop where
  dataBits : l.dataBits = w
  hammingBits : l.hammingBits = r
  coverage : l.coverage = (List.range r).map (coveredBy l.positions)
  length_positions : l.positions.length = w
  nodup_positions : l.positions.Nodup
  /-- A position is a number of `r` bits. -/
  position_lt : ∀ p ∈ l.positions, p < 2 ^ r
  position_pos : ∀ p ∈ l.positions, 0 < p
  /-- The powers of two are the positions of the check bits. -/
  position_ne_pow : ∀ p ∈ l.positions, ∀ k, p ≠ 2 ^ k
  hammingBits_pos : 0 < r
  /-- Every check bit has a data bit to cover. -/
  covered : ∀ i < r, ∃ p ∈ l.positions, p.testBit i = true

section ofWidth

variable {w : Nat}

theorem log2_positions (hpos : 1 ≤ w) (hw : w < 2 ^ 52) :
    Nat.log2 (w + hammingBits w) + 1 = hammingBits w := by
  have htwo := two_le_hammingBits hpos hw
  have hserves := serves_hammingBits hw
  have hlow := two_pow_lt_positions hpos hw
  have hlog : Nat.log2 (w + hammingBits w) = hammingBits w - 1 :=
    (Nat.log2_eq_iff (by omega)).2 ⟨by omega, by
      rw [Nat.sub_add_cancel (by omega)]
      omega⟩
  omega

theorem positions_ofWidth (hpos : 1 ≤ w) (hw : w < 2 ^ 52) :
    (Layout.ofWidth w).positions = freePositions (w + hammingBits w) := by
  have hlen := length_freePositions (by omega : 1 ≤ w + hammingBits w)
  have hlog := log2_positions hpos hw
  have hcut : (Layout.ofWidth w).positions = (freePositions (w + hammingBits w)).take w := by
    simp only [Layout.ofWidth, dataPositions, freePositions, Int.toNat_natCast]
  rw [hcut, List.take_of_length_le (by omega)]

theorem mem_positions {p : Nat} (hpos : 1 ≤ w) (hw : w < 2 ^ 52) :
    p ∈ (Layout.ofWidth w).positions ↔ 1 ≤ p ∧ p ≤ w + hammingBits w ∧ isPowerOfTwo p = false := by
  rw [positions_ofWidth hpos hw, mem_freePositions]

theorem isPowerOfTwo_two_pow_add_one {i : Nat} (hi : 1 ≤ i) :
    isPowerOfTwo (2 ^ i + 1) = false := by
  rw [Bool.eq_false_iff]
  intro h
  obtain ⟨k, hk⟩ := isPowerOfTwo_iff.1 h
  have heven : 2 ∣ 2 ^ i := dvd_pow_self 2 (by omega)
  have hone : 1 < 2 ^ i := Nat.one_lt_two_pow (by omega)
  by_cases hzero : k = 0
  · subst hzero
    omega
  · have hkeven : 2 ∣ 2 ^ k := dvd_pow_self 2 hzero
    omega

/-- Among the free positions is one with a given bit: 3, or the one above a power of two. -/
theorem exists_position_testBit (hpos : 1 ≤ w) (hw : w < 2 ^ 52) {i : Nat} (hi : i < hammingBits w) :
    ∃ p ∈ (Layout.ofWidth w).positions, p.testBit i = true := by
  have htwo := two_le_hammingBits hpos hw
  have hlow := two_pow_lt_positions hpos hw
  by_cases hzero : i = 0
  · subst hzero
    exact ⟨3, (mem_positions hpos hw).2 ⟨by omega, by omega, by decide⟩, by decide⟩
  · have hle : 2 ^ i ≤ 2 ^ (hammingBits w - 1) := Nat.pow_le_pow_right (by decide) (by omega)
    refine ⟨2 ^ i + 1, (mem_positions hpos hw).2
      ⟨Nat.le_add_left 1 _, by omega, isPowerOfTwo_two_pow_add_one (by omega)⟩, ?_⟩
    rw [Nat.testBit_two_pow_add_eq, Nat.testBit_lt_two_pow (Nat.one_lt_two_pow hzero)]
    rfl

theorem extended_ofWidth (hpos : 1 ≤ w) (hw : w < 2 ^ 52) :
    (Layout.ofWidth w).Extended w (hammingBits w) where
  dataBits := by simp only [Layout.ofWidth]
  hammingBits := by simp only [Layout.ofWidth]
  coverage := by simp only [Layout.ofWidth]
  length_positions := by
    have hlen := length_freePositions (by omega : 1 ≤ w + hammingBits w)
    have hlog := log2_positions hpos hw
    rw [positions_ofWidth hpos hw]
    omega
  nodup_positions := by
    rw [positions_ofWidth hpos hw]
    exact (sorted_freePositions _).imp fun h => Nat.ne_of_lt h
  position_lt := fun p hp => by
    have hle := ((mem_positions hpos hw).1 hp).2.1
    have hserves := serves_hammingBits hw
    omega
  position_pos := fun p hp => ((mem_positions hpos hw).1 hp).1
  position_ne_pow := fun p hp k he => by
    have hfree := ((mem_positions hpos hw).1 hp).2.2
    rw [isPowerOfTwo_iff.2 ⟨k, he⟩] at hfree
    exact Bool.noConfusion hfree
  hammingBits_pos := by
    have := two_le_hammingBits hpos hw
    omega
  covered := fun _ hi => exists_position_testBit hpos hw hi

end ofWidth

end MemoryCompiler.Ecc
