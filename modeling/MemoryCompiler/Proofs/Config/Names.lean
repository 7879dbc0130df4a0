import MemoryCompiler.Proofs.Verilog.Token
import MemoryCompiler.Rtl.Design

/-!
# Names of a configuration in a text

The base name of a configuration is an identifier (`isIdentifier_baseName`), and so is every name that
is made from it with a suffix. Label and fingerprint stay on one line (`oneLine_label`,
`oneLine_fingerprint`), whatever the numbers in them are, so a comment that holds them ends where its
line ends.
-/

namespace MemoryCompiler

open Rtl (inIdentifier)
open Verilog (isIdentifier isIdentifier_append)

/-- A text without line ends. -/
def OneLine (s : String) : Prop := '\n' ∉ s.toList

instance (s : String) : Decidable (OneLine s) := inferInstanceAs (Decidable ('\n' ∉ s.toList))

section oneLine

variable {s t : String}

theorem OneLine.append (hs : OneLine s) (ht : OneLine t) : OneLine (s ++ t) := by
  rw [OneLine, String.toList_append, List.mem_append, not_or]
  exact ⟨hs, ht⟩

theorem oneLine_ofList {cs : List Char} : OneLine (String.ofList cs) ↔ '\n' ∉ cs := by
  rw [OneLine, String.toList_ofList]

theorem oneLine_ite {p : Prop} [Decidable p] (hs : OneLine s) (ht : OneLine t) :
    OneLine (if p then s else t) := by
  split_ifs
  · exact hs
  · exact ht

theorem oneLine_intercalate (hs : OneLine s) {ts : List String} (h : ∀ t ∈ ts, OneLine t) :
    OneLine (s.intercalate ts) := by
  intro hmem
  rcases Text.mem_or_mem_of_mem_intercalate hmem with hmem | ⟨t, ht, hmem⟩
  · exact hs hmem
  · exact h t ht hmem

end oneLine

theorem notMem_of_isIdentifier {s : String} {c : Char} (h : isIdentifier s = true)
    (hstarts : Rtl.startsIdentifier c = false) (hin : inIdentifier c = false) :
    c ∉ s.toList := by
  rw [isIdentifier] at h
  cases hs : s.toList with
  | nil => exact List.not_mem_nil
  | cons a cs =>
    simp only [hs, Bool.and_eq_true, List.all_eq_true] at h
    rw [List.mem_cons, not_or]
    constructor
    · rintro rfl
      rw [hstarts] at h
      cases h.1
    · intro hmem
      have hc := h.2 c hmem
      rw [hin] at hc
      cases hc

theorem oneLine_of_isIdentifier {s : String} (h : isIdentifier s = true) : OneLine s :=
  notMem_of_isIdentifier h (by decide) (by decide)

/-! ### Numbers -/

namespace Decimal

theorem oneLine_natText (n : Nat) : OneLine (natText n) := fun h =>
  absurd (inNumeral_of_mem_natText h) (by decide)

theorem oneLine_text (x : Float) : OneLine (text x) := fun h =>
  absurd (inNumeral_of_mem_text h) (by decide)

end Decimal

/-! ### Label and fingerprint -/

namespace Config

variable (c : Config)

theorem oneLine_of_mem_featureTags {t : String} (h : t ∈ c.featureTags) : OneLine t := by
  have htag : ∀ (b : Bool) (tag : String), OneLine tag →
      t ∈ (if b = true then [tag] else []) → OneLine t := by
    intro b tag htag ht
    split_ifs at ht
    · rw [List.mem_singleton] at ht
      rwa [ht]
    · exact absurd ht List.not_mem_nil
  simp only [featureTags, List.mem_append] at h
  rcases h with ((h | h) | h) | h
  · exact htag _ _ (by decide) h
  · exact htag _ _ (by decide) h
  · exact htag _ _ (by decide) h
  · exact htag _ _ (by decide) h

theorem oneLine_label : OneLine c.label := by
  have hbanks : OneLine (Decimal.natText c.banks ++ if c.banks = 1 then " bank" else " banks") :=
    (Decimal.oneLine_natText _).append (oneLine_ite (by decide) (by decide))
  have htags : OneLine (if c.featureTags = [] then "none" else ", ".intercalate c.featureTags) :=
    oneLine_ite (by decide)
      (oneLine_intercalate (by decide) fun _ ht => c.oneLine_of_mem_featureTags ht)
  have hcomma : OneLine ", " := by decide
  have hsize : OneLine (Decimal.natText c.depth ++ "x" ++ Decimal.natText c.width) :=
    ((Decimal.oneLine_natText _).append (by decide)).append (Decimal.oneLine_natText _)
  have hnode : OneLine (Decimal.natText c.processNode ++ "nm, ") :=
    (Decimal.oneLine_natText _).append (by decide)
  have hvoltage : OneLine (Decimal.text c.voltage ++ "V [") :=
    (Decimal.oneLine_text _).append (by decide)
  simp only [label]
  have hall := (((hsize.append hcomma).append (hbanks.append hcomma)).append
    (hnode.append hvoltage)).append (htags.append (by decide : OneLine "]"))
  simpa only [String.append_assoc] using hall

theorem lineEnd_notMem_hexChars (width n : Nat) : '\n' ∉ Text.hexChars width n := by
  have hdigit : ∀ d < 16, '\n' ≠ Text.hexDigit d := by decide
  induction width generalizing n with
  | zero => exact List.not_mem_nil
  | succ width ih =>
    rw [Text.hexChars, List.mem_append, List.mem_singleton, not_or]
    exact ⟨ih _, hdigit _ (Nat.mod_lt _ (by decide))⟩

theorem oneLine_fingerprint : OneLine c.fingerprint := by
  rw [fingerprint, shortDigest, oneLine_ofList]
  intro h
  have hdigest := List.mem_of_mem_take h
  rw [Text.hexDigest, String.toList_ofList, List.mem_flatMap] at hdigest
  obtain ⟨w, -, hw⟩ := hdigest
  exact lineEnd_notMem_hexChars 8 w.toNat hw

/-! ### Identifiers -/

theorem all_inIdentifier_natText (n : Nat) : (Decimal.natText n).toList.all inIdentifier = true := by
  rw [Decimal.natText, String.toList_ofList, List.all_eq_true]
  intro d hd
  have hdigit := Decimal.isDigit_of_mem_digitChars hd
  rw [inIdentifier, Char.isAlphanum, hdigit, Bool.or_true, Bool.true_or]

theorem isIdentifier_baseName : isIdentifier c.baseName = true := by
  have hnumber := all_inIdentifier_natText
  have htag : ∀ (b : Bool) (tag : String), tag.toList.all inIdentifier = true →
      (if b = true then tag else "").toList.all inIdentifier = true := by
    intro b tag ht
    split_ifs
    · exact ht
    · rfl
  have hdepth := isIdentifier_append (x := "sram_") (by decide) (hnumber c.depth)
  have hwidth := isIdentifier_append (isIdentifier_append hdepth (by decide : "x".toList.all _ = true))
    (hnumber c.width)
  have hbase := isIdentifier_append (isIdentifier_append hwidth (by decide : "_b".toList.all _ = true))
    (hnumber c.banks)
  have htags : ((if c.powerGating then "pg" else "") ++ (if c.clockGating then "cg" else "") ++
      (if c.retentionMode then "rt" else "") ++
      (if c.eccEnable then "ec" else "")).toList.all inIdentifier = true := by
    simp only [String.toList_append, List.all_append, htag _ "pg" (by decide),
      htag _ "cg" (by decide), htag _ "rt" (by decide), htag _ "ec" (by decide), Bool.and_true]
  simp only [baseName]
  generalize (if c.powerGating then "pg" else "") ++ (if c.clockGating then "cg" else "") ++
    (if c.retentionMode then "rt" else "") ++ (if c.eccEnable then "ec" else "") = tags at htags ⊢
  by_cases hempty : tags = ""
  · rw [if_pos hempty]
    exact hbase
  rw [if_neg hempty]
  exact isIdentifier_append (isIdentifier_append hbase (by decide)) htags

end Config

end MemoryCompiler
