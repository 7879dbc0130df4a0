import Mathlib
import MemoryCompiler.Decimal.Fixed
import MemoryCompiler.Decimal.Shortest
import MemoryCompiler.Text.Blank
import MemoryCompiler.Text.Width

/-!
# Characters of texts

A text that is put together holds the characters of its parts, and a trimmed one no others than before.
Whatever a double is, its text holds digits, signs, points, an `e` and the letters of `NaN` and
`Infinity` only (`inNumeral_of_mem_text`), so it stands unchanged in a comment or a tag.
-/

namespace MemoryCompiler.Text

variable {c : Char}

theorem toList_intercalate (sep l : String) (ls : List String) :
    (sep.intercalate (l :: ls)).toList = l.toList ++ ls.flatMap fun l => sep.toList ++ l.toList := by
  induction ls generalizing l with
  | nil => rw [String.intercalate_singleton, List.flatMap_nil, List.append_nil]
  | cons m ls ih =>
    rw [String.intercalate_cons_cons, String.toList_append, String.toList_append, ih, List.flatMap_cons,
      List.append_assoc, List.append_assoc]

theorem mem_or_mem_of_mem_intercalate {s : String} {ts : List String} (h : c ∈ (s.intercalate ts).toList) :
    c ∈ s.toList ∨ ∃ t ∈ ts, c ∈ t.toList := by
  cases ts with
  | nil => cases h
  | cons t ts =>
    rw [toList_intercalate, List.mem_append, List.mem_flatMap] at h
    rcases h with h | ⟨u, hu, h⟩
    · exact .inr ⟨t, List.mem_cons_self, h⟩
    · exact (List.mem_append.1 h).imp_right fun h => ⟨u, List.mem_cons_of_mem t hu, h⟩

theorem span_append {α : Type} {p : α → Bool} {cs rest : List α} (h : ∀ c ∈ cs, p c = true)
    (hrest : ∀ c ∈ rest.head?, p c = false) :
    (cs ++ rest).takeWhile p = cs ∧ (cs ++ rest).dropWhile p = rest := by
  cases rest with
  | nil =>
    rw [List.append_nil]
    exact ⟨List.takeWhile_eq_self_iff.2 h, List.dropWhile_eq_nil_iff.2 h⟩
  | cons d rest =>
    have hd : ¬ p d = true := by
      rw [hrest d rfl]
      exact Bool.false_ne_true
    rw [List.takeWhile_append_of_pos h, List.dropWhile_append_of_pos h,
      List.takeWhile_cons_of_neg hd, List.dropWhile_cons_of_neg hd, List.append_nil]
    exact ⟨rfl, rfl⟩

/-- Two lists that begin with items of a class agree in them, and in what stands behind them. -/
theorem append_inj_of_class {α : Type} {p : α → Bool} {as bs cs ds : List α} (ha : ∀ c ∈ as, p c = true)
    (hb : ∀ c ∈ bs, p c = true) (hc : ∀ c ∈ cs.head?, p c = false) (hd : ∀ c ∈ ds.head?, p c = false)
    (h : as ++ cs = bs ++ ds) : as = bs ∧ cs = ds := by
  obtain ⟨htake, hdrop⟩ := span_append ha hc
  obtain ⟨htake', hdrop'⟩ := span_append hb hd
  rw [h] at htake hdrop
  exact ⟨htake.symm.trans htake', hdrop.symm.trans hdrop'⟩

/-- No character of a class stands at the beginning of a text. -/
def StartsOutside (p : Char → Bool) (s : String) : Prop := ∀ c ∈ s.toList.head?, p c = false

section startsOutside

variable {p : Char → Bool} {s s' t t' : String}

theorem StartsOutside.append (hs : StartsOutside p s) (hne : s ≠ "") (t : String) : StartsOutside p (s ++ t) := by
  cases hcs : s.toList with
  | nil => exact absurd (String.toList_eq_nil_iff.1 hcs) hne
  | cons c cs =>
    rw [StartsOutside, hcs] at hs
    rw [StartsOutside, String.toList_append, hcs]
    exact hs

theorem StartsOutside.append_inj (ht : StartsOutside p t) (ht' : StartsOutside p t')
    (hs : ∀ c ∈ s.toList, p c = true) (hs' : ∀ c ∈ s'.toList, p c = true) (h : s ++ t = s' ++ t') :
    s = s' ∧ t = t' := by
  replace h := congrArg String.toList h
  rw [String.toList_append, String.toList_append] at h
  obtain ⟨hfront, hrest⟩ := append_inj_of_class hs hs' ht ht' h
  exact ⟨String.toList_injective hfront, String.toList_injective hrest⟩

end startsOutside

theorem eq_empty_of_units {s : String} (h : units s = 0) : s = "" := by
  cases hs : s.toList with
  | nil => exact String.toList_injective hs
  | cons d ds =>
    have hpos : 0 < charUnits d := by
      rw [charUnits]
      split_ifs <;> decide
    rw [units, hs, List.map_cons, List.sum_cons] at h
    omega

theorem units_le_widest {s : String} {ss : List String} (h : s ∈ ss) : units s ≤ widest ss := by
  have hfold : ∀ (ns : List Nat) (n : Nat), n ≤ ns.foldl max n ∧ ∀ m ∈ ns, m ≤ ns.foldl max n := by
    intro ns
    induction ns with
    | nil => exact fun n => ⟨le_refl n, fun m hm => absurd hm List.not_mem_nil⟩
    | cons k ns ih =>
      intro n
      obtain ⟨hstart, hall⟩ := ih (max n k)
      exact ⟨(le_max_left n k).trans hstart,
        List.forall_mem_cons.2 ⟨(le_max_right n k).trans hstart, hall⟩⟩
  exact (hfold (ss.map units) 0).2 _ (List.mem_map_of_mem h)

theorem mem_of_mem_trim {s : String} (h : c ∈ (trim s).toList) : c ∈ s.toList := by
  rw [trim, trimChars, String.toList_ofList, List.mem_reverse] at h
  have hreverse := (List.dropWhile_sublist _).subset h
  exact (List.dropWhile_sublist _).subset (List.mem_reverse.1 hreverse)

end MemoryCompiler.Text

namespace MemoryCompiler.Decimal

/-- A character of the text of a number. -/
def inNumeral (c : Char) : Bool := c.isDigit || "+-.eNaInfinity".toList.contains c

/-- A character of the text of a finite number. -/
def inConstant (c : Char) : Bool := c.isDigit || "+-.e".toList.contains c

variable {c : Char}

theorem inNumeral_of_inConstant (h : inConstant c = true) : inNumeral c = true := by
  have hmore : ("+-.e".toList.contains c) = true → ("+-.eNaInfinity".toList.contains c) = true := by
    simp only [List.contains_iff_mem]
    exact fun hc => (by decide : "+-.e".toList ⊆ "+-.eNaInfinity".toList) hc
  rw [inConstant, Bool.or_eq_true] at h
  rw [inNumeral, Bool.or_eq_true]
  exact h.imp_right hmore

theorem isDigit_of_mem_digitChars {n : Nat} (h : c ∈ digitChars n) : c.isDigit = true :=
  Nat.isDigit_of_mem_toDigits (by decide) (by decide) h

theorem inConstant_of_mem_digitChars {n : Nat} (h : c ∈ digitChars n) : inConstant c = true := by
  simp [inConstant, isDigit_of_mem_digitChars h]

theorem inConstant_of_mem_zeros {n : Nat} (h : c ∈ zeros n) : inConstant c = true := by
  rw [List.eq_of_mem_replicate h]
  decide

theorem inConstant_of_mem_exponentChars {e : Int} (h : c ∈ exponentChars e) : inConstant c = true := by
  rw [exponentChars] at h
  rcases List.mem_cons.1 h with rfl | h
  · decide
  rcases List.mem_cons.1 h with rfl | h
  · split_ifs <;> decide
  · exact inConstant_of_mem_digitChars h

theorem inConstant_of_mem_layOut {l : Layout} {d : Digits} (h : c ∈ d.layOut l) : inConstant c = true := by
  have hdigit : ∀ c ∈ digitChars d.digits, inConstant c = true := fun _ => inConstant_of_mem_digitChars
  have hpoint : inConstant '.' = true := by decide
  simp only [Digits.layOut] at h
  split_ifs at h
  · rcases List.mem_append.1 h with h | h
    · exact hdigit c h
    · exact inConstant_of_mem_zeros h
  · rcases List.mem_append.1 h with h | h
    · exact hdigit c (List.mem_of_mem_take h)
    · rcases List.mem_cons.1 h with rfl | h
      · exact hpoint
      · exact hdigit c (List.mem_of_mem_drop h)
  · simp only [List.cons_append, List.mem_cons, List.mem_append] at h
    rcases h with rfl | rfl | h | h
    · decide
    · exact hpoint
    · exact inConstant_of_mem_zeros h
    · exact hdigit c h
  · cases hds : digitChars d.digits with
    | nil =>
      rw [hds] at h
      cases h
    | cons a rest =>
      rw [hds] at h hdigit
      have ha := hdigit a List.mem_cons_self
      have hrest : ∀ c ∈ rest, inConstant c = true := fun c hc => hdigit c (List.mem_cons_of_mem a hc)
      cases rest with
      | nil =>
        rcases List.mem_cons.1 h with rfl | h
        · exact ha
        · exact inConstant_of_mem_exponentChars h
      | cons b rest =>
        rcases List.mem_append.1 h with h | h
        · rcases List.mem_cons.1 h with rfl | h
          · exact ha
          rcases List.mem_cons.1 h with rfl | h
          · exact hpoint
          · exact hrest c h
        · exact inConstant_of_mem_exponentChars h

theorem inNumeral_of_mem_digitChars {n : Nat} (h : c ∈ digitChars n) : inNumeral c = true :=
  inNumeral_of_inConstant (inConstant_of_mem_digitChars h)

theorem inNumeral_of_mem_natText {n : Nat} (h : c ∈ (natText n).toList) : inNumeral c = true := by
  rw [natText, String.toList_ofList] at h
  exact inNumeral_of_mem_digitChars h

theorem inNumeral_of_mem_text {x : Float} (h : c ∈ (text x).toList) : inNumeral c = true := by
  have hword : ∀ s : String, s.toList.all inNumeral = true → c ∈ s.toList → inNumeral c = true :=
    fun s hs hc => List.all_eq_true.1 hs c hc
  have hbody : ∀ d : Digits, c ∈ (String.ofList (d.layOut standardLayout)).toList → inNumeral c = true := by
    intro d hc
    rw [String.toList_ofList] at hc
    exact inNumeral_of_inConstant (inConstant_of_mem_layOut hc)
  rw [text] at h
  split at h
  · split_ifs at h
    · exact hword "NaN" (by decide) h
    · exact hword "-Infinity" (by decide) h
    · exact hword "Infinity" (by decide) h
  · split_ifs at h
    · exact hword "0" (by decide) h
    · rw [String.toList_append, List.mem_append] at h
      exact h.elim (hword "-" (by decide)) (hbody _)
    · exact hbody _ h

theorem inConstant_of_mem_pointed {places n : Nat} (h : c ∈ pointed places n) : inConstant c = true := by
  have hfull : ∀ d ∈ zeros (places + 1 - (digitChars n).length) ++ digitChars n, inConstant d = true := by
    intro d hd
    rcases List.mem_append.1 hd with hd | hd
    · exact inConstant_of_mem_zeros hd
    · exact inConstant_of_mem_digitChars hd
  simp only [pointed] at h
  split_ifs at h
  · exact hfull c h
  · rcases List.mem_append.1 h with h | h
    · exact hfull c (List.mem_of_mem_take h)
    · rcases List.mem_cons.1 h with rfl | h
      · decide
      · exact hfull c (List.mem_of_mem_drop h)

theorem inNumeral_of_mem_fixed {places : Nat} {x : Float} (h : c ∈ (fixed places x).toList) :
    inNumeral c = true := by
  have hbody : ∀ n, c ∈ (String.ofList (pointed places n)).toList → inNumeral c = true := by
    intro n hc
    rw [String.toList_ofList] at hc
    exact inNumeral_of_inConstant (inConstant_of_mem_pointed hc)
  rw [fixed] at h
  split at h
  · exact inNumeral_of_mem_text h
  · dsimp only at h
    split_ifs at h
    · exact inNumeral_of_mem_text h
    · rw [String.toList_append, List.mem_append] at h
      rcases h with h | h
      · have hminus : c = '-' := by simpa using h
        rw [hminus]
        decide
      · exact hbody _ h
    · exact hbody _ h

end MemoryCompiler.Decimal
