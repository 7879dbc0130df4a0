import MemoryCompiler.Proofs.Files.Operations

/-!
# Where paths lead

A path leads to a place from the directory where it starts (`placeFrom`). Cleaning it does not change that
(`placeFrom_clean`), so a name that is joined to a path is found below the place of the path, and a file
that is written is put at the place of its path (`write_spec`). But a directory that is made along a
path is made with all that the path comes by as it was written (`makeDirectories_passed`).
-/

namespace MemoryCompiler.Files

namespace Path

/-- Where a path starts. -/
def origin (directory : Place) (p : Path) : Place := if p.rooted then [] else directory

/-- The place that a path leads to from a directory. -/
def placeFrom (directory : Place) (p : Path) : Place := follow (p.origin directory) p.parts

/-! ### Cleaning -/

section clean

variable {rooted : Bool} {here : Place} {done rest parts : List String} {part last : String}

theorem pushPart_dot : pushPart rooted done "." = done := rfl

theorem pushPart_name (hdot : part ≠ ".") (hdots : part ≠ "..") :
    pushPart rooted done part = part :: done := by
  unfold pushPart
  rw [if_neg hdot, if_neg hdots]

theorem pushPart_dots_nil : pushPart rooted [] ".." = if rooted then [] else [".."] := rfl

theorem pushPart_dots_cons :
    pushPart rooted (last :: rest) ".." = if last = ".." then ".." :: last :: rest else rest := rfl

theorem pushPart_subset : pushPart rooted done part ⊆ part :: done := by
  by_cases hdot : part = "."
  · rw [hdot, pushPart_dot]
    exact List.subset_cons_self _ _
  by_cases hdots : part = ".."
  · rw [hdots]
    cases done with
    | nil => rw [pushPart_dots_nil]; split_ifs <;> simp
    | cons last rest =>
      rw [pushPart_dots_cons]
      split_ifs
      · exact List.Subset.refl _
      · exact fun n hn => List.mem_cons_of_mem _ (List.mem_cons_of_mem last hn)
  · rw [pushPart_name hdot hdots]
    exact List.Subset.refl _

theorem dot_notMem_pushPart (h : "." ∉ done) : "." ∉ pushPart rooted done part := by
  by_cases hdot : part = "."
  · rw [hdot, pushPart_dot]
    exact h
  · exact fun hn => (List.mem_cons.1 (pushPart_subset hn)).elim (fun he => hdot he.symm) h

/-- What a part takes back of the cleaned parts, it goes back on the way. -/
theorem follow_pushPart (hrooted : rooted = true → here = []) (hdone : "." ∉ done) :
    follow here (pushPart rooted done part).reverse = step (follow here done.reverse) part := by
  by_cases hdot : part = "."
  · rw [hdot, pushPart_dot, step_dot]
  by_cases hdots : part = ".."
  · rw [hdots, step_dots]
    cases done with
    | nil =>
      rw [pushPart_dots_nil]
      split_ifs with hr
      · rw [hrooted hr]
        rfl
      · rfl
    | cons last rest =>
      have hlast : last ≠ "." := fun he => hdone (he ▸ List.mem_cons_self)
      rw [pushPart_dots_cons]
      split_ifs with hup
      · rw [List.reverse_cons, follow_concat, step_dots]
      · rw [List.reverse_cons, follow_concat, step_name hlast hup, List.dropLast_concat]
  · rw [pushPart_name hdot hdots, List.reverse_cons, follow_concat]

theorem follow_cleanParts (hrooted : rooted = true → here = []) :
    follow here (cleanParts rooted parts) = follow here parts := by
  have hfold : ∀ done : List String, "." ∉ done →
      follow here (parts.foldl (pushPart rooted) done).reverse =
        follow (follow here done.reverse) parts := by
    induction parts with
    | nil => exact fun done _ => rfl
    | cons part parts ih =>
      intro done hdone
      rw [List.foldl_cons, ih _ (dot_notMem_pushPart hdone), follow_pushPart hrooted hdone, follow_cons]
  exact hfold [] List.not_mem_nil

theorem cleanParts_subset : cleanParts rooted parts ⊆ parts := by
  have hfold : ∀ done : List String, parts.foldl (pushPart rooted) done ⊆ parts ++ done := by
    induction parts with
    | nil => exact fun done => List.Subset.refl done
    | cons part parts ih =>
      intro done n hn
      rw [List.cons_append]
      rcases List.mem_append.1 (ih (pushPart rooted done part) hn) with hrest | hpushed
      · exact List.mem_cons_of_mem part (List.mem_append_left done hrest)
      · rcases List.mem_cons.1 (pushPart_subset hpushed) with rfl | hdone
        · exact List.mem_cons_self
        · exact List.mem_cons_of_mem part (List.mem_append_right parts hdone)
  intro n hn
  have := hfold [] (List.mem_reverse.1 hn)
  rwa [List.append_nil] at this

theorem clean_spec (p : Path) : p.clean.rooted = p.rooted ∧ p.clean.isEmpty = false ∧
    (∀ n ∈ p.clean.parts, n = "." ∨ n ∈ p.parts) ∧
    ∀ here, (p.rooted = true → here = []) → follow here p.clean.parts = follow here p.parts := by
  have hfollow : ∀ here, (p.rooted = true → here = []) →
      follow here (cleanParts p.rooted p.parts) = follow here p.parts := fun _ h => follow_cleanParts h
  by_cases hnil : cleanParts p.rooted p.parts = []
  · rw [hnil] at hfollow
    have hdot : ∀ here : Place, follow here ["."] = follow here [] := fun _ => rfl
    cases hrooted : p.rooted with
    | true =>
      have hclean : p.clean = ⟨true, [], false⟩ := by
        rw [clean, hnil, hrooted]
        simp
      rw [hclean]
      exact ⟨rfl, rfl, fun n hn => absurd hn List.not_mem_nil, by rwa [hrooted] at hfollow⟩
    | false =>
      have hclean : p.clean = ⟨false, ["."], p.slashed⟩ := by
        rw [clean, hnil, hrooted]
        simp
      rw [hclean]
      exact ⟨rfl, rfl, fun n hn => .inl (List.mem_singleton.1 hn), fun here h =>
        (hdot here).trans (hfollow here fun he => h (hrooted.symm.trans he))⟩
  · have hclean : p.clean = ⟨p.rooted, cleanParts p.rooted p.parts, p.slashed⟩ := by
      simp [clean, hnil]
    rw [hclean]
    exact ⟨rfl, by simp [isEmpty, hnil], fun n hn => .inr (cleanParts_subset hn), hfollow⟩

theorem placeFrom_clean (directory : Place) (p : Path) :
    p.clean.placeFrom directory = p.placeFrom directory := by
  obtain ⟨hrooted, -, -, hfollow⟩ := clean_spec p
  rw [placeFrom, placeFrom, origin, hrooted, ← origin]
  exact hfollow _ fun h => by rw [origin, if_pos h]

theorem isEmpty_join (p : Path) (name : String) : (p.join name).isEmpty = false := by
  rw [join]
  split_ifs <;> exact (clean_spec _).2.1

theorem placeFrom_join (directory : Place) {p : Path} (h : p.isEmpty = false) (name : String) :
    (p.join name).placeFrom directory = follow (p.placeFrom directory) (ofText name).parts := by
  rw [join, h, if_neg Bool.false_ne_true, placeFrom_clean, placeFrom, follow_append]
  rfl

theorem placeFrom_join_of_isName (directory : Place) {p : Path} (h : p.isEmpty = false) {n : String}
    (hn : IsName n) : (p.join n).placeFrom directory = p.placeFrom directory ++ [n] := by
  rw [placeFrom_join directory h, ofText_of_isName hn,
    follow_named _ (List.forall_mem_singleton.2 hn)]

theorem parts_resolve {directory : Place} (hd : Named directory) {p : Path}
    (hp : ∀ n ∈ p.parts, IsPart n) :
    ((⟨true, directory, false⟩ : Path).resolve p).parts = p.placeFrom directory := by
  have hnamed : Named ((⟨true, directory, false⟩ : Path).resolve p).parts :=
    named_resolve (fun n hn => ⟨(hd n hn).1, (hd n hn).2.1⟩) hp
  have hclean := follow_named [] hnamed
  rw [List.nil_append] at hclean
  rw [← hclean, resolve, follow_cleanParts fun _ => rfl, placeFrom, origin]
  split_ifs
  · rfl
  · rw [follow_append, follow_named [] hd, List.nil_append]

theorem named_placeFrom {directory : Place} (hd : Named directory) {p : Path}
    (hp : ∀ n ∈ p.parts, IsPart n) : Named (p.placeFrom directory) := by
  rw [← parts_resolve hd hp]
  exact named_resolve (fun n hn => ⟨(hd n hn).1, (hd n hn).2.1⟩) hp

theorem isPart_of_mem_join {p : Path} (hp : ∀ n ∈ p.parts, IsPart n) {name n : String}
    (hn : n ∈ (p.join name).parts) : IsPart n := by
  have hclean : ∀ q : Path, (∀ m ∈ q.parts, IsPart m) → n ∈ q.clean.parts → IsPart n := by
    intro q hq hn
    rcases (clean_spec q).2.2.1 n hn with rfl | hn
    · exact ⟨by decide, by decide⟩
    · exact hq n hn
  rw [join] at hn
  by_cases hempty : p.isEmpty
  · rw [if_pos hempty] at hn
    exact hclean _ (fun m => isPart_of_mem_ofText) hn
  · rw [if_neg hempty] at hn
    exact hclean _ (fun m hm => (List.mem_append.1 hm).elim (hp m) isPart_of_mem_ofText) hn

end clean

/-! ### Last letters -/

section lastLetter

variable {c : Char}

/-- The last letter of the last name of a place. -/
def lastLetter? (x : Place) : Option Char := x.getLast?.bind fun n => n.toList.getLast?

theorem isName_of_getLast? {s : String} (hslash : '/' ∉ s.toList) (hlast : s.toList.getLast? = some c)
    (hdot : c ≠ '.') : IsName s := by
  refine ⟨?_, hslash, ?_, ?_⟩
  · rintro rfl
    cases hlast
  · rintro rfl
    exact hdot (Option.some.inj hlast).symm
  · rintro rfl
    exact hdot (Option.some.inj hlast).symm

theorem exists_splitOn_last {cs : List Char} (hlast : cs.getLast? = some c) (hslash : c ≠ '/') :
    ∃ init last, cs.splitOn '/' = init ++ [last] ∧ last.getLast? = some c := by
  induction cs with
  | nil => cases hlast
  | cons d cs ih =>
    rw [List.splitOn_cons_eq_if_modifyHead]
    cases cs with
    | nil =>
      rw [List.getLast?_singleton, Option.some.injEq] at hlast
      rw [hlast, if_neg (by simpa using hslash), List.splitOn_nil]
      exact ⟨[], [c], rfl, rfl⟩
    | cons d' cs =>
      rw [List.getLast?_cons_cons] at hlast
      obtain ⟨init, last, hsplit, hc⟩ := ih hlast
      rw [hsplit]
      split_ifs
      · exact ⟨[] :: init, last, rfl, hc⟩
      · cases init with
        | nil =>
          refine ⟨[], d :: last, rfl, ?_⟩
          rw [List.getLast?_cons, hc]
          rfl
        | cons first init => exact ⟨(d :: first) :: init, last, rfl, hc⟩

theorem lastLetter?_placeFrom_join (directory : Place) {p : Path} (h : p.isEmpty = false) {name : String}
    (hlast : name.toList.getLast? = some c) (hslash : c ≠ '/') (hdot : c ≠ '.') :
    lastLetter? ((p.join name).placeFrom directory) = some c := by
  obtain ⟨init, last, hsplit, hc⟩ := exists_splitOn_last hlast hslash
  have hne : String.ofList last ≠ "" := fun he => by
    rw [String.ofList_eq_empty_iff.1 he] at hc
    cases hc
  have hparts : (ofText name).parts =
      (init.map String.ofList).filter (· ≠ "") ++ [String.ofList last] := by
    show splitParts name = _
    rw [splitParts, hsplit, List.map_append, List.filter_append, List.map_singleton,
      List.filter_singleton, decide_eq_true hne, cond_true]
  have hname : IsName (String.ofList last) := by
    have hmem : last ∈ name.toList.splitOn '/' := by rw [hsplit]; simp
    refine isName_of_getLast? ?_ ?_ hdot <;> rw [String.toList_ofList]
    · exact notMem_of_mem_splitOn hmem
    · exact hc
  rw [placeFrom_join directory h, hparts, follow_concat, step_name hname.2.2.1 hname.2.2.2, lastLetter?,
    List.getLast?_concat, Option.bind_some, String.toList_ofList, hc]

end lastLetter

end Path

/-! ### Trees -/

namespace Tree

open Files.Path (follow placeFrom origin)

variable {t t' : Tree} {here place : Place} {rest : List String} {directory : Place} {p : Path}

theorem eq_follow_of_walk (h : t.walk here rest = .ok place) : place = follow here rest := by
  induction rest generalizing here with
  | nil =>
    rw [walk, Except.ok.injEq] at h
    exact h.symm
  | cons name rest ih =>
    unfold walk at h
    rw [Path.follow_cons]
    by_cases hdot : name = "."
    · rw [if_pos hdot] at h
      rw [hdot]
      exact ih h
    rw [if_neg hdot] at h
    by_cases hdots : name = ".."
    · rw [if_pos hdots] at h
      rw [hdots]
      exact ih h
    rw [if_neg hdots] at h
    rw [Path.step_name hdot hdots]
    have hlast : rest = [] → (Except.ok (here ++ [name]) : Except Fault Place) = .ok place →
        place = follow (here ++ [name]) rest := by
      rintro rfl he
      rw [Except.ok.injEq] at he
      exact he.symm
    cases hget : t.get? (here ++ [name]) with
    | none =>
      rw [hget] at h
      cases rest with
      | nil => exact hlast rfl h
      | cons _ _ => cases h
    | some e =>
      rw [hget] at h
      cases e with
      | directory => exact ih h
      | file text =>
        cases rest with
        | nil => exact hlast rfl h
        | cons _ _ => cases h

theorem write_spec {text : String} (h : t.write directory p text = .ok t') :
    t' = t.put (p.placeFrom directory) (.file text) ∧
      t.get? (p.placeFrom directory) ≠ some .directory := by
  rw [write, locate] at h
  by_cases hempty : p.isEmpty
  · rw [if_pos hempty] at h
    cases h
  rw [if_neg hempty] at h
  cases hwalk : t.walk (p.origin directory) p.parts with
  | error f =>
    rw [← origin, hwalk] at h
    cases h
  | ok place =>
    rw [← origin, hwalk, eq_follow_of_walk hwalk] at h
    change (if p.slashed || decide (t.get? (p.placeFrom directory) = some .directory) then _ else _) = _
      at h
    split_ifs at h with hbad
    rw [Bool.or_eq_true, not_or, decide_eq_true_eq] at hbad
    rw [Except.ok.injEq] at h
    exact ⟨h.symm, hbad.2⟩

theorem origin_directory (hdir : t.get? directory = some .directory) (p : Path) :
    t.get? (p.origin directory) = some .directory := by
  rw [origin]
  split_ifs
  · rfl
  · exact hdir

/-- Directories made along a path are made where the path comes by, and the last one is its place. -/
theorem makeDirectories_passed (ht : t.WellFormed) (hdir : t.get? directory = some .directory)
    (h : (t.makeDirectories directory p).1 = .ok ()) :
    p.isEmpty = false ∧ (t.makeDirectories directory p).2.WellFormed ∧
      WithPassed t (p.origin directory) p.parts (t.makeDirectories directory p).2 ∧
      (t.makeDirectories directory p).2.get? (p.placeFrom directory) = some .directory := by
  rw [makeDirectories] at h ⊢
  by_cases hempty : p.isEmpty
  · rw [if_pos hempty] at h
    cases h
  · rw [if_neg hempty] at h ⊢
    obtain ⟨hwf, hway, hmade⟩ := makeWay_passed p.slashed p.parts ht (origin_directory hdir p)
    exact ⟨Bool.eq_false_iff.2 hempty, hwf, hway, hmade h⟩

end Tree

end MemoryCompiler.Files
