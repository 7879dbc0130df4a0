import MemoryCompiler.Proofs.Ecc.Positions
import MemoryCompiler.Proofs.Ecc.Words

/-!
# Syndromes

The syndrome of a word is what the stored check bits and the recomputed ones differ in. It is a sum
without carry (`syndrome_xor`), a code word has syndrome zero, and a word with a single one has as
its syndrome the place of that bit (`syndrome_two_pow`). Places of different bits differ
(`place_injective`): data bits sit at positions that are no power of two, check bits at the powers of
two, and the parity bit at zero.
-/

namespace MemoryCompiler.Ecc

/-! ### Check bits -/

theorem testBit_ofBits (bs : List Bool) (i : Nat) : (ofBits bs).testBit i = bs[i]?.getD false := by
  induction bs generalizing i with
  | nil => simp [ofBits]
  | cons b bs ih =>
    rw [ofBits]
    cases i with
    | zero =>
      rw [Nat.testBit_zero]
      cases b <;> simp [Nat.add_mod]
    | succ i =>
      have hhalf : (b.toNat + 2 * ofBits bs) / 2 = ofBits bs := by
        cases b <;> simp only [Bool.toNat_true, Bool.toNat_false] <;> omega
      rw [Nat.testBit_succ, hhalf, ih, List.getElem?_cons_succ]

theorem ofBits_lt (bs : List Bool) : ofBits bs < 2 ^ bs.length := by
  induction bs with
  | nil => simp [ofBits]
  | cons b bs ih =>
    rw [ofBits, List.length_cons, pow_succ]
    have := Bool.toNat_le b
    omega

theorem mem_coveredBy {ps : List Nat} {i j : Nat} :
    j ∈ coveredBy ps i ↔ ∃ p, ps[j]? = some p ∧ p.testBit i = true := by
  simp only [coveredBy, List.mem_map, List.mem_filter, Prod.exists, List.mk_mem_zipIdx_iff_getElem?]
  constructor
  · rintro ⟨p, k, ⟨hp, hbit⟩, rfl⟩
    exact ⟨p, hp, hbit⟩
  · rintro ⟨p, hp, hbit⟩
    exact ⟨p, j, ⟨hp, hbit⟩, rfl⟩

theorem sorted_coveredBy (ps : List Nat) (i : Nat) : (coveredBy ps i).Pairwise (· < ·) := by
  rw [coveredBy, List.pairwise_map]
  refine List.Pairwise.filter _ ?_
  have hsnd : (ps.zipIdx.map Prod.snd).Pairwise (· < ·) := by
    rw [List.zipIdx_map_snd]
    exact List.pairwise_lt_range'
  rwa [List.pairwise_map] at hsnd

section extended

variable {l : Layout} {w r : Nat}

theorem coverage_getElem? (hl : l.Extended w r) {i : Nat} {covered : List Nat}
    (h : l.coverage[i]? = some covered) : i < r ∧ covered = coveredBy l.positions i := by
  rw [hl.coverage, List.getElem?_map, Option.map_eq_some_iff] at h
  obtain ⟨k, hk, rfl⟩ := h
  obtain ⟨hi, rfl⟩ := List.getElem?_eq_some_iff.1 hk
  rw [List.length_range] at hi
  exact ⟨hi, by rw [List.getElem_range]⟩

theorem covered_ne_nil (hl : l.Extended w r) {i : Nat} {covered : List Nat}
    (h : l.coverage[i]? = some covered) : covered ≠ [] := by
  obtain ⟨hi, rfl⟩ := coverage_getElem? hl h
  obtain ⟨p, hp, hbit⟩ := hl.covered i hi
  obtain ⟨j, hj⟩ := List.mem_iff_getElem?.1 hp
  exact List.ne_nil_of_mem (mem_coveredBy.2 ⟨p, hj, hbit⟩)

theorem testBit_check (hl : l.Extended w r) (data : Int) (i : Nat) :
    (l.check data).testBit i =
      (decide (i < r) && oddCount (bit data) (coveredBy l.positions i)) := by
  rw [Layout.check, testBit_ofBits, hl.coverage, List.map_map, List.getElem?_map]
  by_cases hi : i < r
  · rw [List.getElem?_range hi]
    simp only [hi, decide_true, Bool.true_and]
    rfl
  · rw [List.getElem?_eq_none (by simpa using hi)]
    simp [hi]

theorem check_lt (hl : l.Extended w r) (data : Int) : l.check data < 2 ^ r := by
  have hlt := ofBits_lt (l.coverage.map (coverParity data))
  rwa [hl.coverage, List.length_map, List.length_map, List.length_range, ← hl.coverage] at hlt

theorem check_xor (hl : l.Extended w r) (x y : Nat) :
    l.check ((x ^^^ y : Nat) : Int) = l.check (x : Int) ^^^ l.check (y : Int) := by
  apply Nat.eq_of_testBit_eq
  intro i
  rw [Nat.testBit_xor, testBit_check hl, testBit_check hl, testBit_check hl]
  have hsum : oddCount (bit ((x ^^^ y : Nat) : Int)) (coveredBy l.positions i) =
      (oddCount (bit x) (coveredBy l.positions i) ^^ oddCount (bit y) (coveredBy l.positions i)) := by
    rw [← oddCount_xor]
    exact oddCount_congr fun j _ => by
      rw [bit_natCast, bit_natCast, bit_natCast, Nat.testBit_xor]
  rw [hsum]
  cases decide (i < r) <;> simp

theorem check_zero (hl : l.Extended w r) : l.check ((0 : Nat) : Int) = 0 := by
  apply Nat.eq_of_testBit_eq
  intro i
  rw [testBit_check hl, oddCount_eq_false fun j _ => by rw [bit_natCast, Nat.zero_testBit],
    Bool.and_false, Nat.zero_testBit]

/-- The check bits of a single data bit spell its position. -/
theorem check_two_pow (hl : l.Extended w r) {j p : Nat} (hp : l.positions[j]? = some p) :
    l.check ((2 ^ j : Nat) : Int) = p := by
  apply Nat.eq_of_testBit_eq
  intro i
  have hnodup : (coveredBy l.positions i).Nodup :=
    (sorted_coveredBy l.positions i).imp fun h => Nat.ne_of_lt h
  rw [testBit_check hl, oddCount_congr (g := fun k => decide (j = k)) fun k _ => by
    rw [bit_natCast, Nat.testBit_two_pow], oddCount_single hnodup]
  have hcovered : j ∈ coveredBy l.positions i ↔ p.testBit i = true := by
    rw [mem_coveredBy, hp]
    simp
  by_cases hi : i < r
  · rw [decide_eq_true hi, Bool.true_and, Bool.eq_iff_iff, decide_eq_true_eq, hcovered]
  · have hlt : p < 2 ^ i := lt_of_lt_of_le (hl.position_lt p (List.mem_of_getElem? hp))
      (Nat.pow_le_pow_right (by decide) (by omega))
    rw [decide_eq_false hi, Bool.false_and, Nat.testBit_lt_two_pow hlt]

/-! ### The syndrome of a word -/

/-- What the stored and the recomputed check bits of a word differ in. -/
def syndrome (l : Layout) (w r c : Nat) : Nat :=
  c / 2 ^ w % 2 ^ r ^^^ l.check ((c % 2 ^ w : Nat) : Int)

theorem syndrome_xor (hl : l.Extended w r) (x y : Nat) :
    syndrome l w r (x ^^^ y) = syndrome l w r x ^^^ syndrome l w r y := by
  simp only [syndrome, Nat.xor_div_two_pow, Nat.xor_mod_two_pow, check_xor hl]
  ac_rfl

/-- Where the code counts a bit: data bits at their positions, check bits at the powers of two. -/
def place (l : Layout) (w r i : Nat) : Nat :=
  if i < w then l.positions.getD i 0 else if i < w + r then 2 ^ (i - w) else 0

theorem place_data (hl : l.Extended w r) {i : Nat} (hi : i < w) :
    ∃ p, l.positions[i]? = some p ∧ place l w r i = p := by
  have hlt : i < l.positions.length := by
    rw [hl.length_positions]
    exact hi
  refine ⟨l.positions[i], List.getElem?_eq_getElem hlt, ?_⟩
  rw [place, if_pos hi, List.getD_eq_getElem?_getD, List.getElem?_eq_getElem hlt]
  rfl

theorem syndrome_two_pow (hl : l.Extended w r) {i : Nat} (hi : i ≤ w + r) :
    syndrome l w r (2 ^ i) = place l w r i := by
  rw [syndrome]
  by_cases hdata : i < w
  · obtain ⟨p, hp, hplace⟩ := place_data hl hdata
    have hlt : 2 ^ i < 2 ^ w := Nat.pow_lt_pow_right (by decide) hdata
    rw [Nat.div_eq_of_lt hlt, Nat.mod_eq_of_lt hlt, check_two_pow hl hp, hplace]
    simp
  · have hmod : 2 ^ i % 2 ^ w = 0 := Nat.mod_eq_zero_of_dvd (pow_dvd_pow 2 (by omega))
    rw [hmod, check_zero hl, Nat.xor_zero, Nat.pow_div (by omega) (by decide), place, if_neg hdata]
    by_cases hcheck : i < w + r
    · rw [if_pos hcheck, Nat.mod_eq_of_lt (Nat.pow_lt_pow_right (by decide) (by omega))]
    · have he : i - w = r := by omega
      rw [if_neg hcheck, he, Nat.mod_self]

theorem place_injective (hl : l.Extended w r) {i k : Nat} (hi : i ≤ w + r) (hk : k ≤ w + r)
    (h : place l w r i = place l w r k) : i = k := by
  have hpow : ∀ {j m : Nat}, j < w → ¬ m < w → m ≤ w + r → place l w r j ≠ place l w r m := by
    intro j m hj hm hmr he
    obtain ⟨p, hp, hplace⟩ := place_data hl hj
    have hmem := List.mem_of_getElem? hp
    rw [hplace, place, if_neg hm] at he
    split_ifs at he
    · exact hl.position_ne_pow p hmem _ he
    · have := hl.position_pos p hmem
      omega
  by_cases hiw : i < w
  · by_cases hkw : k < w
    · obtain ⟨p, hp, hplace⟩ := place_data hl hiw
      obtain ⟨q, hq, hplaceq⟩ := place_data hl hkw
      rw [hplace, hplaceq] at h
      subst h
      exact (List.getElem?_inj (by rw [hl.length_positions]; exact hiw) hl.nodup_positions).1
        (hp.trans hq.symm)
    · exact absurd h (hpow hiw hkw hk)
  · by_cases hkw : k < w
    · exact absurd h.symm (hpow hkw hiw hi)
    · rw [place, place, if_neg hiw, if_neg hkw] at h
      have hone : ∀ n : Nat, 2 ^ n ≠ 0 := fun n => Nat.pos_iff_ne_zero.1 (Nat.two_pow_pos n)
      split_ifs at h with hi' hk' hk'
      · have := Nat.pow_right_injective (le_refl 2) h
        omega
      · exact absurd h (hone _)
      · exact absurd h.symm (hone _)
      · omega

theorem idxOf?_positions (hl : l.Extended w r) {i p : Nat} (hp : l.positions[i]? = some p) :
    l.positions.idxOf? p = some i := by
  obtain ⟨hi, he⟩ := List.getElem?_eq_some_iff.1 hp
  rw [List.idxOf?_eq_some_iff]
  refine ⟨hi, he, fun j hj hej => ?_⟩
  have hjl : j < l.positions.length := lt_trans hj hi
  have hji : j = i := (List.getElem?_inj hjl hl.nodup_positions).1 (by
    rw [List.getElem?_eq_getElem hjl, List.getElem?_eq_getElem hi, hej, he])
  omega

end extended

end MemoryCompiler.Ecc
