import MemoryCompiler.Proofs.Text.Characters

/-!
# Words and runs of blanks

A text is read as the words in it (`words`), or with one space in the place of each run of blanks
(`collapse`). Of a text that was put together from words with blanks in front of each (`Spaced`) both give
what it was put together from, however many blanks there are (`words_of_spaced`,
`collapse_trim_of_spaced`).
-/

namespace MemoryCompiler.Text

/-- Some characters, none of them blank. -/
def IsWord (s : String) : Prop := s ≠ "" ∧ ∀ c ∈ s.toList, isBlank c = false

instance (s : String) : Decidable (IsWord s) :=
  decidable_of_iff (s ≠ "" ∧ (s.toList.all fun c => !isBlank c) = true) (by simp [IsWord])

/-- The words of a text, of which the first has begun. -/
def wordsFrom (word : List Char) : List Char → List String
  | [] => if word = [] then [] else [String.ofList word]
  | c :: cs =>
    if isBlank c then
      if word = [] then wordsFrom [] cs else String.ofList word :: wordsFrom [] cs
    else wordsFrom (word ++ [c]) cs

/-- The longest runs of characters that are not blank. -/
def words (s : String) : List String := wordsFrom [] s.toList

/-- Replaces runs of blanks by one space; `inRun` tells of a run just replaced. -/
def collapseFrom (inRun : Bool) : List Char → List Char
  | [] => []
  | c :: cs =>
    if isBlank c then if inRun then collapseFrom true cs else ' ' :: collapseFrom true cs
    else c :: collapseFrom false cs

/-- A text with one space in the place of each run of blanks. -/
def collapse (s : String) : String := String.ofList (collapseFrom false s.toList)

/-- The words, each after at least one blank. -/
inductive Spaced : List String → List Char → Prop
  | nil : Spaced [] []
  | cons {gap cs : List Char} {w : String} {ws : List String} (gap_ne_nil : gap ≠ [])
      (blank : ∀ c ∈ gap, isBlank c = true) (word : IsWord w) (rest : Spaced ws cs) :
      Spaced (w :: ws) (gap ++ (w.toList ++ cs))

section spaced

variable {gap word rest cs ds : List Char} {w : String} {ws vs : List String}

theorem IsWord.toList_ne_nil (h : IsWord w) : w.toList ≠ [] := fun hnil =>
  h.1 (String.toList_injective hnil)

theorem Spaced.append (h : Spaced ws cs) (h' : Spaced vs ds) : Spaced (ws ++ vs) (cs ++ ds) := by
  induction h with
  | nil => exact h'
  | cons hgap hblank hw _ ih =>
    rw [List.append_assoc, List.append_assoc, List.cons_append]
    exact .cons hgap hblank hw ih

theorem Spaced.single (h : IsWord w) : Spaced [w] (' ' :: w.toList) := by
  have hword := Spaced.cons (List.cons_ne_nil ' ' []) (List.forall_mem_singleton.2 rfl) h .nil
  rwa [List.append_nil] at hword

theorem Spaced.of_blanks {sep : List Char} (hsep : ∀ c ∈ sep, isBlank c = true) (hgap : gap ≠ [])
    (hblank : ∀ c ∈ gap, isBlank c = true) (hw : IsWord w) (h : Spaced ws cs) :
    Spaced (w :: ws) (sep ++ (gap ++ (w.toList ++ cs))) := by
  rw [← List.append_assoc]
  refine .cons (fun hnil => hgap (List.append_eq_nil_iff.1 hnil).2) (fun c hc => ?_) hw h
  exact (List.mem_append.1 hc).elim (hsep c) (hblank c)

/-! ### Reading words -/

theorem wordsFrom_append (h : ∀ c ∈ cs, isBlank c = false) :
    wordsFrom word (cs ++ rest) = wordsFrom (word ++ cs) rest := by
  induction cs generalizing word with
  | nil => rw [List.nil_append, List.append_nil]
  | cons c cs ih =>
    obtain ⟨hc, hcs⟩ := List.forall_mem_cons.1 h
    rw [List.cons_append, wordsFrom, if_neg (ne_true_of_eq_false hc), ih hcs, List.append_assoc]
    rfl

theorem wordsFrom_nil_append (h : ∀ c ∈ gap, isBlank c = true) :
    wordsFrom [] (gap ++ rest) = wordsFrom [] rest := by
  induction gap with
  | nil => rfl
  | cons c gap ih =>
    obtain ⟨hc, hgap⟩ := List.forall_mem_cons.1 h
    rw [List.cons_append, wordsFrom, if_pos hc, if_pos rfl, ih hgap]

theorem wordsFrom_gap (hword : word ≠ []) (hgap : gap ≠ []) (h : ∀ c ∈ gap, isBlank c = true) :
    wordsFrom word (gap ++ rest) = String.ofList word :: wordsFrom [] rest := by
  cases gap with
  | nil => exact absurd rfl hgap
  | cons c gap =>
    obtain ⟨hc, hgap⟩ := List.forall_mem_cons.1 h
    rw [List.cons_append, wordsFrom, if_pos hc, if_neg hword, wordsFrom_nil_append hgap]

theorem wordsFrom_of_spaced (h : Spaced ws cs) (hword : word ≠ []) :
    wordsFrom word cs = String.ofList word :: ws := by
  induction h generalizing word with
  | nil => rw [wordsFrom, if_neg hword]
  | cons hgap hblank hw _ ih =>
    rw [wordsFrom_gap hword hgap hblank, wordsFrom_append hw.2, List.nil_append, ih hw.toList_ne_nil,
      String.ofList_toList]

theorem words_of_spaced (h : Spaced ws cs) : words (String.ofList cs) = ws := by
  rw [words, String.toList_ofList]
  cases h with
  | nil => rfl
  | cons _ hblank hw hrest =>
    rw [wordsFrom_nil_append hblank, wordsFrom_append hw.2, List.nil_append,
      wordsFrom_of_spaced hrest hw.toList_ne_nil, String.ofList_toList]

/-! ### Collapsing blanks -/

theorem collapseFrom_append (inRun : Bool) (hcs : cs ≠ []) (h : ∀ c ∈ cs, isBlank c = false) :
    collapseFrom inRun (cs ++ rest) = cs ++ collapseFrom false rest := by
  induction cs generalizing inRun with
  | nil => exact absurd rfl hcs
  | cons c cs ih =>
    obtain ⟨hc, hrest⟩ := List.forall_mem_cons.1 h
    rw [List.cons_append, collapseFrom, if_neg (ne_true_of_eq_false hc), List.cons_append]
    cases cs with
    | nil => rfl
    | cons d cs => rw [ih false (List.cons_ne_nil d cs) hrest]

theorem collapseFrom_true_append (h : ∀ c ∈ gap, isBlank c = true) :
    collapseFrom true (gap ++ rest) = collapseFrom true rest := by
  induction gap with
  | nil => rfl
  | cons c gap ih =>
    obtain ⟨hc, hgap⟩ := List.forall_mem_cons.1 h
    rw [List.cons_append, collapseFrom, if_pos hc, if_pos rfl, ih hgap]

theorem collapseFrom_gap (hgap : gap ≠ []) (h : ∀ c ∈ gap, isBlank c = true) :
    collapseFrom false (gap ++ rest) = ' ' :: collapseFrom true rest := by
  cases gap with
  | nil => exact absurd rfl hgap
  | cons c gap =>
    obtain ⟨hc, hgap⟩ := List.forall_mem_cons.1 h
    rw [List.cons_append, collapseFrom, if_pos hc, if_neg Bool.false_ne_true, collapseFrom_true_append hgap]

theorem collapseFrom_of_spaced (h : Spaced ws cs) :
    collapseFrom false (cs ++ rest) = (ws.flatMap fun w => ' ' :: w.toList) ++ collapseFrom false rest := by
  induction h with
  | nil => rfl
  | cons hgap hblank hw _ ih =>
    rw [List.append_assoc, List.append_assoc, collapseFrom_gap hgap hblank,
      collapseFrom_append true hw.toList_ne_nil hw.2, ih, List.flatMap_cons, List.cons_append,
      List.cons_append, List.append_assoc]

/-- Spaced words before a last character, without the blanks in front and with single spaces. -/
theorem collapse_trim_of_spaced {last : Char} (h : Spaced (w :: ws) cs) (hlast : isBlank last = false) :
    collapse (trim (String.ofList (cs ++ [last]))) =
      String.ofList (w.toList ++ (ws.flatMap fun w => ' ' :: w.toList) ++ [last]) := by
  cases h with
  | @cons gap cs _ _ _ hblank hw hrest =>
    have hfront : (gap ++ (w.toList ++ cs ++ [last])).dropWhile isBlank = w.toList ++ cs ++ [last] := by
      refine (span_append hblank fun c hc => ?_).2
      obtain ⟨d, ds, hd⟩ := List.exists_cons_of_ne_nil hw.toList_ne_nil
      rw [hd] at hc
      cases hc
      exact hw.2 _ (by rw [hd]; exact List.mem_cons_self)
    have hback : (w.toList ++ cs ++ [last]).reverse.dropWhile isBlank = (w.toList ++ cs ++ [last]).reverse := by
      rw [List.reverse_append, List.reverse_singleton, List.singleton_append,
        List.dropWhile_cons_of_neg (ne_true_of_eq_false hlast)]
    have htail : collapseFrom false [last] = [last] := by
      rw [collapseFrom, if_neg (ne_true_of_eq_false hlast), collapseFrom]
    rw [collapse, trim, trimChars, String.toList_ofList, String.toList_ofList, List.append_assoc gap, hfront,
      hback, List.reverse_reverse, List.append_assoc, collapseFrom_append false hw.toList_ne_nil hw.2,
      collapseFrom_of_spaced hrest, htail, List.append_assoc]

end spaced

end MemoryCompiler.Text
