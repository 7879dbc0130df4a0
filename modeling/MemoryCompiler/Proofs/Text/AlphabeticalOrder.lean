import MemoryCompiler.Text.Collation
import Mathlib

/-!
# The alphabetical order of identifiers

Identifiers of letters, digits, underscores and hyphens are compared in two rounds: first as if all letters
were small, then by the first letter whose case differs (`Alphabetical`). `comesBefore` does so through two
keys, and the pair of the keys belongs to one identifier only, so the order is a strict total one
(`comesBefore_iff_sortKey`, `sortKey_injective`).
-/

namespace MemoryCompiler.Text

/-! ### The order in words -/

/-- The characters of identifiers in their order; a small letter stands for its capital too. -/
def alphabet : List Char := "_-0123456789abcdefghijklmnopqrstuvwxyz".toList

/-- One character stands in front of another one in the alphabet. -/
def CharBefore (c d : Char) : Prop := [c, d].Sublist alphabet

/-- A letter, a digit, an underscore or a hyphen. -/
def inIdentifier (c : Char) : Bool := c.isAlphanum || c == '_' || c == '-'

def IsIdentifier (s : String) : Prop := ∀ c ∈ s.toList, inIdentifier c = true

def smallChars (s : String) : List Char := s.toList.map Char.toLower

/-- One text stands before another one: as texts of small letters, or else, if these are the same, because
the first letter whose case differs is the small one. -/
inductive Alphabetical (a b : String) : Prop
  | letters (h : List.Lex CharBefore (smallChars a) (smallChars b))
  | case (hsame : smallChars a = smallChars b)
      (h : List.Lex (fun c d => c.isLower = true ∧ d.isUpper = true) a.toList b.toList)

/-! ### Single characters -/

section characters

variable {c d : Char}

theorem sublist_pair_iff {α : Type} {f : α → ℕ} {l : List α} (hsorted : l.Pairwise fun x y => f x < f y) {x y : α}
    (hx : x ∈ l) (hy : y ∈ l) : [x, y].Sublist l ↔ f x < f y := by
  constructor
  · exact fun h => List.pairwise_iff_forall_sublist.1 hsorted h
  · intro hlt
    induction l with
    | nil => cases hx
    | cons z l ih =>
      obtain ⟨hhead, htail⟩ := List.pairwise_cons.1 hsorted
      rcases List.mem_cons.1 hx with rfl | hxl
      · rcases List.mem_cons.1 hy with rfl | hyl
        · exact absurd hlt (Nat.lt_irrefl _)
        · exact (List.singleton_sublist.2 hyl).cons_cons x
      · rcases List.mem_cons.1 hy with rfl | hyl
        · exact absurd hlt (Nat.lt_asymm (hhead x hxl))
        · exact (ih htail hxl hyl).cons z

theorem sorted_alphabet : alphabet.Pairwise fun c d => letterRank c < letterRank d := by
  decide +kernel

/-- What holds of all 128 characters holds of a character of identifiers. -/
theorem of_inIdentifier {p : Char → Bool} (hall : ∀ n < 128, inIdentifier (Char.ofNat n) = true →
    p (Char.ofNat n) = true) (hc : inIdentifier c = true) : p c = true := by
  have hlt : c.toNat < 128 := by
    simp only [inIdentifier, Char.isAlphanum, Char.isAlpha, Char.isUpper, Char.isLower, Char.isDigit,
      Bool.or_eq_true, Bool.and_eq_true, decide_eq_true_eq, beq_iff_eq] at hc
    rcases hc with (((⟨-, h⟩ | ⟨-, h⟩) | ⟨-, h⟩) | rfl) | rfl
    · exact lt_of_le_of_lt (UInt32.le_iff_toNat_le.1 h) (by decide)
    · exact lt_of_le_of_lt (UInt32.le_iff_toNat_le.1 h) (by decide)
    · exact lt_of_le_of_lt (UInt32.le_iff_toNat_le.1 h) (by decide)
    · decide
    · decide
  have h := hall c.toNat hlt
  rw [Char.ofNat_toNat] at h
  exact h hc

theorem toLower_mem_alphabet (hc : inIdentifier c = true) : c.toLower ∈ alphabet := by
  have h := of_inIdentifier (p := fun c => decide (c.toLower ∈ alphabet)) (by decide +kernel) hc
  exact of_decide_eq_true h

theorem letterRank_toLower (hc : inIdentifier c = true) : letterRank c.toLower = letterRank c := by
  have h := of_inIdentifier (p := fun c => decide (letterRank c.toLower = letterRank c)) (by decide +kernel) hc
  exact of_decide_eq_true h

theorem letterRank_lt_iff (hc : inIdentifier c = true) (hd : inIdentifier d = true) :
    letterRank c < letterRank d ↔ CharBefore c.toLower d.toLower := by
  rw [← letterRank_toLower hc, ← letterRank_toLower hd]
  exact (sublist_pair_iff sorted_alphabet (toLower_mem_alphabet hc) (toLower_mem_alphabet hd)).symm

theorem letterRank_eq_iff (hc : inIdentifier c = true) (hd : inIdentifier d = true) :
    letterRank c = letterRank d ↔ c.toLower = d.toLower := by
  rw [← letterRank_toLower hc, ← letterRank_toLower hd]
  constructor
  · have hnodup : (alphabet.map letterRank).Nodup := by
      rw [List.Nodup, List.pairwise_map]
      exact sorted_alphabet.imp Nat.ne_of_lt
    exact List.inj_on_of_nodup_map hnodup (toLower_mem_alphabet hc) (toLower_mem_alphabet hd)
  · exact fun h => congrArg letterRank h

theorem isUpper_iff : c.isUpper = true ↔ 65 ≤ c.toNat ∧ c.toNat ≤ 90 := by
  simp only [Char.isUpper, decide_eq_true_eq, ge_iff_le, UInt32.le_iff_toNat_le]
  rfl

theorem toNat_toLower (c : Char) : c.toLower.toNat = if c.isUpper then c.toNat + 32 else c.toNat := by
  by_cases h : c.isUpper = true
  · have hrange := isUpper_iff.1 h
    have hvalid : (c.toNat + 32).isValidChar := .inl (by omega)
    rw [if_pos h, Char.toLower_eq_of_isUpper h, Char.toNat_ofNat, if_pos hvalid]
  · rw [if_neg h, Char.toLower_eq_of_not_isUpper h]

theorem eq_of_toLower_eq (hlower : c.toLower = d.toLower) (hcase : c.isUpper = d.isUpper) : c = d := by
  have h := congrArg Char.toNat hlower
  rw [toNat_toLower, toNat_toLower, hcase] at h
  apply Char.toNat_inj.1
  split at h <;> omega

theorem isLower_of_toLower_eq (hlower : c.toLower = d.toLower) (hc : c.isUpper = false) (hd : d.isUpper = true) :
    c.isLower = true := by
  have hsmall : c.toLower = c := Char.toLower_eq_of_not_isUpper (by simp [hc])
  rw [← hsmall, hlower, Char.isLower_toLower_eq_isAlpha, Char.isAlpha, hd, Bool.true_or]

theorem not_isLower_and_isUpper (c : Char) : ¬ (c.isLower = true ∧ c.isUpper = true) :=
  fun h => Char.not_isLower_of_isUpper h.2 h.1

end characters

/-! ### Keys -/

theorem keyBefore_iff_lt (as bs : List ℕ) : keyBefore as bs = true ↔ as < bs := by
  induction as generalizing bs with
  | nil => cases bs <;> simp [keyBefore]
  | cons a as ih =>
    cases bs with
    | nil => simp [keyBefore]
    | cons b bs =>
      rw [keyBefore, List.cons_lt_cons_iff]
      rcases Nat.lt_trichotomy a b with hlt | rfl | hlt
      · simp [hlt]
      · simp [ih]
      · simp [hlt, Nat.lt_asymm hlt, hlt.ne']

/-- The two keys of a text, the second one for texts with the same first key. -/
def sortKey (s : String) : List ℕ ×ₗ List ℕ := toLex (letterKey s, caseKey s)

theorem comesBefore_iff_sortKey (a b : String) : comesBefore a b = true ↔ sortKey a < sortKey b := by
  rw [sortKey, sortKey, Prod.Lex.toLex_lt_toLex, comesBefore]
  split_ifs with h
  · simp [h, keyBefore_iff_lt]
  · simp [h, keyBefore_iff_lt]

section keys

variable {a b : String}

theorem letterKey_eq_iff (ha : IsIdentifier a) (hb : IsIdentifier b) :
    letterKey a = letterKey b ↔ smallChars a = smallChars b := by
  unfold letterKey smallChars
  unfold IsIdentifier at ha hb
  generalize a.toList = as at *
  generalize b.toList = bs at *
  induction as generalizing bs with
  | nil => simp
  | cons c as ih =>
    cases bs with
    | nil => simp
    | cons d bs =>
      rw [List.forall_mem_cons] at ha hb
      simp [letterRank_eq_iff ha.1 hb.1, ih ha.2 bs hb.2]

theorem letterKey_lt_iff (ha : IsIdentifier a) (hb : IsIdentifier b) :
    letterKey a < letterKey b ↔ List.Lex CharBefore (smallChars a) (smallChars b) := by
  unfold letterKey smallChars
  unfold IsIdentifier at ha hb
  generalize a.toList = as at *
  generalize b.toList = bs at *
  induction as generalizing bs with
  | nil => cases bs <;> simp
  | cons c as ih =>
    cases bs with
    | nil => simp
    | cons d bs =>
      rw [List.forall_mem_cons] at ha hb
      simp only [List.map_cons]
      rw [List.cons_lt_cons_iff, List.cons_lex_cons_iff, letterRank_lt_iff ha.1 hb.1, letterRank_eq_iff ha.1 hb.1,
        ih ha.2 bs hb.2]

theorem caseKey_lt_iff (hsame : smallChars a = smallChars b) : caseKey a < caseKey b ↔
    List.Lex (fun c d => c.isLower = true ∧ d.isUpper = true) a.toList b.toList := by
  unfold caseKey
  unfold smallChars at hsame
  generalize a.toList = as at *
  generalize b.toList = bs at *
  induction as generalizing bs with
  | nil =>
    obtain rfl := List.map_eq_nil_iff.1 hsame.symm
    simp
  | cons c as ih =>
    cases bs with
    | nil => cases hsame
    | cons d bs =>
      obtain ⟨hhead, htail⟩ := List.cons.inj hsame
      simp only [List.map_cons]
      rw [List.cons_lt_cons_iff, List.cons_lex_cons_iff, ih bs htail]
      by_cases hcase : c.isUpper = d.isUpper
      · obtain rfl := eq_of_toLower_eq hhead hcase
        simp [not_isLower_and_isUpper c]
      · have hne : c ≠ d := fun h => hcase (congrArg Char.isUpper h)
        cases hc : c.isUpper with
        | false =>
          have hd : d.isUpper = true := by simpa [hc] using hcase
          simp [hd, isLower_of_toLower_eq hhead hc hd]
        | true =>
          have hd : d.isUpper = false := by simpa [hc] using hcase
          simp [hd, hne]

/-- A text is known by its small letters and where its capitals stand. -/
theorem eq_of_smallChars_eq (hsame : smallChars a = smallChars b) (hcase : caseKey a = caseKey b) : a = b := by
  apply String.toList_injective
  unfold smallChars at hsame
  unfold caseKey at hcase
  generalize a.toList = as at *
  generalize b.toList = bs at *
  induction as generalizing bs with
  | nil => simpa using hsame.symm
  | cons c as ih =>
    cases bs with
    | nil => cases hsame
    | cons d bs =>
      obtain ⟨hhead, htail⟩ := List.cons.inj hsame
      obtain ⟨hcapital, hcapitals⟩ := List.cons.inj hcase
      have hupper : c.isUpper = d.isUpper := by
        cases hc : c.isUpper <;> cases hd : d.isUpper <;> simp [hc, hd] at hcapital ⊢
      rw [eq_of_toLower_eq hhead hupper, ih bs htail hcapitals]

theorem sortKey_injective (ha : IsIdentifier a) (hb : IsIdentifier b) (h : sortKey a = sortKey b) : a = b := by
  obtain ⟨hletters, hcases⟩ := Prod.mk.inj (toLex.injective h)
  exact eq_of_smallChars_eq ((letterKey_eq_iff ha hb).1 hletters) hcases

theorem comesBefore_iff (ha : IsIdentifier a) (hb : IsIdentifier b) :
    comesBefore a b = true ↔ Alphabetical a b := by
  rw [comesBefore_iff_sortKey, sortKey, sortKey, Prod.Lex.toLex_lt_toLex]
  constructor
  · rintro (h | ⟨hsame, h⟩)
    · exact .letters ((letterKey_lt_iff ha hb).1 h)
    · have hsmall := (letterKey_eq_iff ha hb).1 hsame
      exact .case hsmall ((caseKey_lt_iff hsmall).1 h)
  · rintro (h | ⟨hsame, h⟩)
    · exact .inl ((letterKey_lt_iff ha hb).2 h)
    · exact .inr ⟨(letterKey_eq_iff ha hb).2 hsame, (caseKey_lt_iff hsame).2 h⟩

end keys

end MemoryCompiler.Text
