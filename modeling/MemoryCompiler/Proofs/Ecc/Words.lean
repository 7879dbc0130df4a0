import Mathlib.Data.Nat.Bitwise
import Mathlib.Tactic
import MemoryCompiler.Ecc.Word

/-!
# Code words as natural numbers

Cut to its bits, a word is a natural number, and on natural numbers `bit`, `toggle`, `setBit` and
`parity` are the usual operations on binary digits. Parities and check bits are sums without carry,
so they respect `^^^` (`parity_xor`, `check_xor`).
-/

namespace MemoryCompiler.Ecc

/-! ### Odd numbers of ones -/

/-- Whether `f` holds at an odd number of entries. -/
def oddCount (f : Nat → Bool) (l : List Nat) : Bool := l.foldl (fun p j => p != f j) false

theorem foldl_bne (f : Nat → Bool) (l : List Nat) (b : Bool) :
    l.foldl (fun p j => p != f j) b = (b ^^ oddCount f l) := by
  induction l generalizing b with
  | nil => simp [oddCount]
  | cons j l ih =>
    have hcons : oddCount f (j :: l) = ((false != f j) ^^ oddCount f l) := ih (false != f j)
    rw [List.foldl_cons, ih, hcons]
    cases b <;> cases f j <;> simp

@[simp] theorem oddCount_nil (f : Nat → Bool) : oddCount f [] = false := rfl

@[simp] theorem oddCount_cons (f : Nat → Bool) (j : Nat) (l : List Nat) :
    oddCount f (j :: l) = (f j ^^ oddCount f l) := by
  rw [oddCount, List.foldl_cons, foldl_bne]
  cases f j <;> rfl

theorem oddCount_append (f : Nat → Bool) (l m : List Nat) :
    oddCount f (l ++ m) = (oddCount f l ^^ oddCount f m) := by
  rw [oddCount, List.foldl_append, foldl_bne, ← oddCount]

theorem oddCount_congr {f g : Nat → Bool} {l : List Nat} (h : ∀ j ∈ l, f j = g j) :
    oddCount f l = oddCount g l := by
  induction l with
  | nil => rfl
  | cons j l ih =>
    rw [oddCount_cons, oddCount_cons, h j List.mem_cons_self,
      ih fun k hk => h k (List.mem_cons_of_mem j hk)]

theorem oddCount_xor (f g : Nat → Bool) (l : List Nat) :
    oddCount (fun j => f j ^^ g j) l = (oddCount f l ^^ oddCount g l) := by
  induction l with
  | nil => rfl
  | cons j l ih =>
    simp only [oddCount_cons, ih]
    cases f j <;> cases g j <;> simp

theorem oddCount_eq_false {f : Nat → Bool} {l : List Nat} (h : ∀ j ∈ l, f j = false) :
    oddCount f l = false := by
  induction l with
  | nil => rfl
  | cons j l ih =>
    rw [oddCount_cons, h j List.mem_cons_self, ih fun k hk => h k (List.mem_cons_of_mem j hk)]
    rfl

theorem oddCount_single {l : List Nat} (hl : l.Nodup) (i : Nat) :
    oddCount (fun j => decide (i = j)) l = decide (i ∈ l) := by
  induction l with
  | nil => simp
  | cons j l ih =>
    obtain ⟨hj, hl⟩ := List.nodup_cons.1 hl
    rw [oddCount_cons, ih hl]
    by_cases hij : i = j
    · subst hij
      simp [hj]
    · simp [hij]

/-! ### Integers as natural numbers -/

theorem bit_natCast (x i : Nat) : bit (x : Int) i = x.testBit i := by
  rw [bit, Nat.testBit_eq_decide_div_mod_eq]
  have hcast : (x : Int) / 2 ^ i % 2 = ((x / 2 ^ i % 2 : Nat) : Int) := by push_cast; rfl
  rw [hcast, Bool.eq_iff_iff, beq_iff_eq, decide_eq_true_eq]
  omega

theorem lowBits_natCast (n x : Nat) : lowBits (n : Int) (x : Int) = ((x % 2 ^ n : Nat) : Int) := by
  rw [lowBits, if_neg (by omega), Int.toNat_natCast]
  push_cast
  rfl

theorem exists_lowBits (n : Nat) (x : Int) :
    ∃ d : Nat, d < 2 ^ n ∧ lowBits (n : Int) x = d ∧ (d : Int) = x % 2 ^ n := by
  have hpos : (0 : Int) < 2 ^ n := by positivity
  refine ⟨(x % 2 ^ n).toNat, ?_, ?_, Int.toNat_of_nonneg (Int.emod_nonneg x (by omega))⟩
  · have hlt := Int.emod_lt_of_pos x hpos
    zify
    rw [Int.toNat_of_nonneg (Int.emod_nonneg x (by omega))]
    exact hlt
  · rw [lowBits, if_neg (by omega), Int.toNat_natCast,
      Int.toNat_of_nonneg (Int.emod_nonneg x (by omega))]

theorem add_two_pow_eq_xor {x i : Nat} (h : x.testBit i = false) : x + 2 ^ i = x ^^^ 2 ^ i := by
  rw [Nat.testBit_eq_decide_div_mod_eq, decide_eq_false_iff_not] at h
  have hpow : 2 ^ (i + 1) = 2 * 2 ^ i := by rw [pow_succ]; ring
  apply Nat.eq_of_testBit_eq
  intro k
  rw [Nat.testBit_xor, Nat.testBit_two_pow]
  rcases Nat.lt_trichotomy k i with hk | hk | hk
  · rw [Nat.add_comm, Nat.testBit_two_pow_add_gt hk]
    simp [Nat.ne_of_gt hk]
  · subst hk
    rw [Nat.add_comm, Nat.testBit_two_pow_add_eq]
    simp
  · -- above bit `i` nothing changes, since no carry leaves it
    have hsplit : ∀ y : Nat, y.testBit k = (y / 2 ^ (i + 1)).testBit (k - (i + 1)) := fun y => by
      rw [Nat.testBit_div_two_pow]
      congr 1
      omega
    have hquot : (x + 2 ^ i) / 2 ^ (i + 1) = x / 2 ^ (i + 1) := by
      rw [hpow, Nat.mul_comm 2, ← Nat.div_div_eq_div_mul, ← Nat.div_div_eq_div_mul,
        Nat.add_div_right _ (Nat.two_pow_pos i)]
      omega
    rw [hsplit, hquot, ← hsplit]
    simp [Nat.ne_of_lt hk]

theorem toggle_natCast (x i : Nat) : toggle (x : Int) i = ((x ^^^ 2 ^ i : Nat) : Int) := by
  rw [toggle, bit_natCast]
  by_cases h : x.testBit i = true
  · rw [if_pos h]
    have hclear : (x ^^^ 2 ^ i).testBit i = false := by simp [Nat.testBit_xor, h]
    have hback := add_two_pow_eq_xor hclear
    rw [Nat.xor_xor_cancel_right] at hback
    have hcast : ((x ^^^ 2 ^ i : Nat) : Int) + 2 ^ i = x := by exact_mod_cast hback
    rw [← hcast, Int.add_sub_cancel]
  · rw [Bool.not_eq_true] at h
    rw [if_neg (by rw [h]; exact Bool.false_ne_true), ← add_two_pow_eq_xor h]
    push_cast
    rfl

/-! ### Parity -/

/-- The parity looks at every bit of a natural number, however many places are counted. -/
theorem parity_natCast {x n : Nat} (h : x < 2 ^ n) :
    parity (x : Int) = oddCount x.testBit (List.range n) := by
  have hbits : ∀ m, Nat.log2 x + 1 ≤ m →
      oddCount x.testBit (List.range m) = parity (x : Int) := by
    intro m hm
    induction m, hm using Nat.le_induction with
    | base => rfl
    | succ m hm ih =>
      have hx : x < 2 ^ m :=
        lt_of_lt_of_le Nat.lt_log2_self (Nat.pow_le_pow_right (by decide) hm)
      rw [List.range_succ, oddCount_append, ih, oddCount_cons, Nat.testBit_lt_two_pow hx]
      simp
  have hlow : ∀ m k, x < 2 ^ m →
      oddCount x.testBit (List.range (m + k)) = oddCount x.testBit (List.range m) := by
    intro m k hx
    induction k with
    | zero => rfl
    | succ k ih =>
      have hk : x < 2 ^ (m + k) := lt_of_lt_of_le hx (Nat.pow_le_pow_right (by decide) (by omega))
      rw [← Nat.add_assoc, List.range_succ, oddCount_append, ih, oddCount_cons,
        Nat.testBit_lt_two_pow hk]
      simp
  rw [← hbits (n + (Nat.log2 x + 1)) (by omega), hlow n _ h]

theorem parity_xor (x y : Nat) :
    parity ((x ^^^ y : Nat) : Int) = (parity (x : Int) ^^ parity (y : Int)) := by
  obtain ⟨n, hx, hy⟩ : ∃ n, x < 2 ^ n ∧ y < 2 ^ n :=
    ⟨max x y, lt_of_lt_of_le Nat.lt_two_pow_self (Nat.pow_le_pow_right (by decide) (le_max_left x y)),
      lt_of_lt_of_le Nat.lt_two_pow_self (Nat.pow_le_pow_right (by decide) (le_max_right x y))⟩
  rw [parity_natCast (Nat.xor_lt_two_pow hx hy), parity_natCast hx, parity_natCast hy,
    ← oddCount_xor]
  exact oddCount_congr fun j _ => Nat.testBit_xor x y j

theorem parity_two_pow (i : Nat) : parity ((2 ^ i : Nat) : Int) = true := by
  have hlt : 2 ^ i < 2 ^ (i + 1) := Nat.pow_lt_pow_right (by decide) (Nat.lt_succ_self i)
  rw [parity_natCast hlt, oddCount_congr (g := fun j => decide (i = j)) fun j _ => Nat.testBit_two_pow,
    oddCount_single List.nodup_range]
  simp

end MemoryCompiler.Ecc
