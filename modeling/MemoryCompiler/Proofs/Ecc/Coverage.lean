import Mathlib.Data.List.Sort
import Mathlib.Data.Nat.Nth
import MemoryCompiler.Proofs.Ecc.Distance

/-!
# What check bits cover

A layout is exact when its data bits take the least free positions in ascending order and each check
bit covers the data bits whose position has its bit (`Layout.Exact`). A free position has at least two
ones, so every data bit is covered at least twice, and no two of them by the same check bits; and with
the least number of check bits none of them is left with nothing to cover. The main statement is
`exact_ofWidth`: the layout of every width is exact.
-/

namespace MemoryCompiler.Ecc

/-- A data bit may sit at any position that is no power of two. -/
def IsFree (p : Nat) : Prop := 0 < p ∧ ∀ k, p ≠ 2 ^ k

/-- A layout of `w` data bits that leaves no free position out and has no check bit too many. -/
structure Layout.Exact (l : Layout) (w : Nat) : Prop where
  /-- The data bits take the `w` least free positions, in ascending order. -/
  positions_eq : l.positions = (List.range w).map (Nat.nth IsFree)
  position_lt : ∀ p ∈ l.positions, p < 2 ^ l.hammingBits
  length_coverage : l.coverage.length = l.hammingBits
  mem_coverage : ∀ (i : Nat) (covered : List Nat), l.coverage[i]? = some covered →
    ∀ j, j ∈ covered ↔ ∃ p, l.positions[j]? = some p ∧ p.testBit i = true
  sorted_coverage : ∀ covered ∈ l.coverage, covered.Pairwise (· < ·)
  coverage_ne_nil : ∀ covered ∈ l.coverage, covered ≠ []
  two_le_covering : ∀ j < w, 2 ≤ l.coverage.countP fun covered => decide (j ∈ covered)
  /-- Two data bits differ in a check bit that covers one of them only. -/
  covering_injective : ∀ j < w, ∀ k < w, (∀ covered ∈ l.coverage, j ∈ covered ↔ k ∈ covered) → j = k
  codeBits_eq : l.codeBits = w + l.hammingBits + 1
  codeBits_eq_checkBits : l.codeBits = w + l.checkBits

/-! ### Free positions -/

theorem isFree_iff {p : Nat} : IsFree p ↔ 0 < p ∧ isPowerOfTwo p = false := by
  rw [IsFree, ← Bool.not_eq_true, isPowerOfTwo_iff, not_exists]

instance : DecidablePred IsFree := fun _ => decidable_of_iff _ isFree_iff.symm

theorem mem_freePositions_iff {n p : Nat} : p ∈ freePositions n ↔ IsFree p ∧ p < n + 1 := by
  rw [mem_freePositions, isFree_iff, Nat.lt_succ_iff]
  tauto

theorem infinite_isFree : (Set.ofPred IsFree).Infinite := by
  refine Set.infinite_of_forall_exists_gt fun n => ⟨2 ^ (n + 1) + 1, ?_, ?_⟩
  · exact isFree_iff.2 ⟨Nat.succ_pos _, isPowerOfTwo_two_pow_add_one (Nat.le_add_left 1 n)⟩
  · have hlt : n + 1 < 2 ^ (n + 1) := Nat.lt_two_pow_self
    omega

theorem count_isFree (n : Nat) : Nat.count IsFree (n + 1) = (freePositions n).length := by
  rw [Nat.count, List.range_eq_range', List.range'_succ, List.countP_cons_of_neg (by decide),
    freePositions, ← List.countP_eq_length_filter]
  refine List.countP_congr fun p hp => ?_
  rw [decide_eq_true_eq, isFree_iff, Bool.not_eq_true']
  exact and_iff_right (List.mem_range'_1.1 hp).1

theorem freePositions_eq (n : Nat) :
    freePositions n = (List.range (freePositions n).length).map (Nat.nth IsFree) := by
  have hsorted : ((List.range (freePositions n).length).map (Nat.nth IsFree)).Pairwise (· < ·) :=
    List.pairwise_lt_range.map _ fun _ _ h => Nat.nth_strictMono infinite_isFree h
  refine (sorted_freePositions n).eq_of_mem_iff hsorted fun p => ?_
  rw [mem_freePositions_iff, List.mem_map, ← count_isFree]
  constructor
  · rintro ⟨hp, hlt⟩
    exact ⟨_, List.mem_range.2 (Nat.count_strict_mono hp hlt), Nat.nth_count hp⟩
  · rintro ⟨j, hj, rfl⟩
    exact ⟨Nat.nth_mem_of_infinite infinite_isFree j, Nat.nth_lt_of_lt_count (List.mem_range.1 hj)⟩

theorem two_le_ones {r p : Nat} (hp : IsFree p) (hlt : p < 2 ^ r) : 2 ≤ ones r p := by
  by_contra hfew
  have hcases : ones r p = 0 ∨ ones r p = 1 := by omega
  rcases hcases with hzero | hone
  · exact hp.1.ne' (eq_zero_of_ones hlt hzero)
  · obtain ⟨k, -, hk⟩ := eq_two_pow_of_ones hlt hone
    exact hp.2 k hk

/-! ### Covering -/

section extended

variable {l : Layout} {w r : Nat} (hl : l.Extended w r)

include hl

theorem isFree_position {p : Nat} (hp : p ∈ l.positions) : IsFree p :=
  ⟨hl.position_pos p hp, hl.position_ne_pow p hp⟩

theorem exists_position {j : Nat} (hj : j < w) :
    ∃ p ∈ l.positions, l.positions[j]? = some p ∧ ∀ i, j ∈ coveredBy l.positions i ↔ p.testBit i = true := by
  have hlt : j < l.positions.length := hl.length_positions ▸ hj
  refine ⟨l.positions[j], List.getElem_mem hlt, List.getElem?_eq_getElem hlt, fun i => ?_⟩
  rw [mem_coveredBy, List.getElem?_eq_getElem hlt]
  simp

theorem countP_covering {j p : Nat} (h : ∀ i, j ∈ coveredBy l.positions i ↔ p.testBit i = true) :
    (l.coverage.countP fun covered => decide (j ∈ covered)) = ones r p := by
  rw [hl.coverage, List.countP_map, ones]
  refine List.countP_congr fun i _ => ?_
  rw [Function.comp_apply, decide_eq_true_eq, h]

theorem eq_of_covering {j k : Nat} (hj : j < w) (hk : k < w)
    (h : ∀ covered ∈ l.coverage, j ∈ covered ↔ k ∈ covered) : j = k := by
  obtain ⟨p, hp, hjp, hjcovered⟩ := exists_position hl hj
  obtain ⟨q, hq, hkq, hkcovered⟩ := exists_position hl hk
  have hpq : p = q := by
    refine Nat.eq_of_testBit_eq fun i => ?_
    by_cases hi : i < r
    · have hmem : coveredBy l.positions i ∈ l.coverage := by
        rw [hl.coverage]
        exact List.mem_map_of_mem (List.mem_range.2 hi)
      rw [Bool.eq_iff_iff, ← hjcovered, ← hkcovered]
      exact h _ hmem
    · have hhigh : 2 ^ r ≤ 2 ^ i := Nat.pow_le_pow_right (by decide) (Nat.not_lt.1 hi)
      rw [Nat.testBit_lt_two_pow ((hl.position_lt p hp).trans_le hhigh),
        Nat.testBit_lt_two_pow ((hl.position_lt q hq).trans_le hhigh)]
  exact (List.getElem?_inj (hl.length_positions ▸ hj) hl.nodup_positions).1
    (hjp.trans (hpq ▸ hkq.symm))

/-- Such a layout is exact when its positions are the first free ones. -/
theorem Layout.Extended.exact (h : l.positions = (List.range w).map (Nat.nth IsFree)) : l.Exact w where
  positions_eq := h
  position_lt := hl.hammingBits.symm ▸ hl.position_lt
  length_coverage := by rw [hl.coverage, List.length_map, List.length_range, hl.hammingBits]
  mem_coverage := fun i covered hcovered j => by
    rw [(coverage_getElem? hl hcovered).2, mem_coveredBy]
  sorted_coverage := fun covered hcovered => by
    obtain ⟨i, hi⟩ := List.mem_iff_getElem?.1 hcovered
    rw [(coverage_getElem? hl hi).2]
    exact sorted_coveredBy l.positions i
  coverage_ne_nil := fun covered hcovered => by
    obtain ⟨i, hi⟩ := List.mem_iff_getElem?.1 hcovered
    exact covered_ne_nil hl hi
  two_le_covering := fun j hj => by
    obtain ⟨p, hp, -, hcovered⟩ := exists_position hl hj
    rw [countP_covering hl hcovered]
    exact two_le_ones (isFree_position hl hp) (hl.position_lt p hp)
  covering_injective := fun _ hj _ hk => eq_of_covering hl hj hk
  codeBits_eq := by rw [Layout.codeBits, hl.dataBits]
  codeBits_eq_checkBits := by
    rw [Layout.codeBits, hl.dataBits, Layout.checkBits, Int.natCast_add, Int.add_assoc]
    rfl

end extended

/-- **The layout of every width is exact.** -/
theorem exact_ofWidth (w : Nat) (hpos : 1 ≤ w) (hw : w ≤ 2 ^ 30) : (Layout.ofWidth w).Exact w := by
  have hlt : w < 2 ^ 52 := lt_of_le_of_lt hw (by norm_num)
  have hl := extended_ofWidth hpos hlt
  refine hl.exact ?_
  have hfirst := freePositions_eq (w + hammingBits w)
  rwa [← positions_ofWidth hpos hlt, hl.length_positions] at hfirst

/-- Twelve data bits, one too many for four check bits: the fifth has the twelfth data bit alone. -/
theorem exact_ofWidth_twelve : (1 ≤ 12 ∧ 12 ≤ 2 ^ 30) ∧ (Layout.ofWidth 12).Exact 12 ∧
    (Layout.ofWidth 12).coverage[4]? = some [11] :=
  ⟨⟨by decide, by decide⟩, exact_ofWidth 12 (by decide) (by decide), by decide +kernel⟩

end MemoryCompiler.Ecc
