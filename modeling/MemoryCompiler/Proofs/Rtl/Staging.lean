import MemoryCompiler.Proofs.Files.Hosts
import MemoryCompiler.Rtl.Publication

/-!
# Staging

The directories that a publication works in lie beside its destination: the staged one under a fresh
name and the retired one under that name with an ending. No two of them share anything, nor do they
share anything with the destination.
-/

namespace MemoryCompiler.Rtl

open Files

/-! ### Destinations -/

/-- The place that the text of a destination names on a host. -/
def placeOf (h : Host) (destination : String) : Place :=
  ((⟨true, h.directory, false⟩ : Path).resolve (.ofText destination)).parts

theorem named_placeOf {h : Host} (hcwd : ∀ n ∈ h.directory, IsPart n) (destination : String) :
    Named (placeOf h destination) :=
  Path.named_resolve hcwd fun _ hn => Path.isPart_of_mem_ofText hn

namespace Publication

/-! ### Places beside a destination -/

/-- What the names beside a destination start with. -/
def stem (d : Place) : String := "." ++ (Path.ofPlace d).name ++ ".staging-"

/-- The place beside a destination whose name ends in a text. -/
def beside (d : Place) (ending : String) : Place := d.dropLast ++ [stem d ++ ending]

/-- Where the n-th fresh directory is staged. -/
def stagedPlace (d : Place) (n : Nat) : Place := beside d (Host.freshSuffix n)

/-- Where the destination is set aside while the n-th fresh directory takes its place. -/
def retiredPlace (d : Place) (n : Nat) : Place := beside d (Host.freshSuffix n ++ ".retired")

section places

variable {d : Place} {ending : String} {m n : Nat}

theorem toList_stem (d : Place) :
    (stem d).toList = '.' :: (Path.ofPlace d).name.toList ++ ".staging-".toList := by
  rw [stem, String.toList_append, String.toList_append]
  rfl

theorem slash_notMem_name (hd : Named d) : '/' ∉ (Path.ofPlace d).name.toList := by
  rw [Path.name, Path.ofPlace_parts]
  cases hlast : d.getLast? with
  | none => simp
  | some n => exact (hd n (List.mem_of_getLast? hlast)).2.1

theorem isName_stem_append (hd : Named d) (h : '/' ∉ ending.toList) : IsName (stem d ++ ending) := by
  have hlist : (stem d ++ ending).toList =
      '.' :: (Path.ofPlace d).name.toList ++ ".staging-".toList ++ ending.toList := by
    rw [String.toList_append, toList_stem]
  have hlength : 2 < (stem d ++ ending).toList.length := by
    rw [hlist]
    simp
    omega
  refine ⟨?_, ?_, ?_, ?_⟩
  · intro he
    rw [he] at hlength
    exact absurd hlength (by decide)
  · rw [hlist]
    simp [slash_notMem_name hd, h]
  · intro he
    rw [he] at hlength
    exact absurd hlength (by decide)
  · intro he
    rw [he] at hlength
    exact absurd hlength (by decide)

theorem slash_notMem_freshSuffix (n : Nat) : '/' ∉ (Host.freshSuffix n).toList := fun h => by
  have := Host.isDigit_of_mem_freshSuffix h
  exact absurd this (by decide)

theorem named_beside (hd : Named d) (h : '/' ∉ ending.toList) : Named (beside d ending) :=
  hd.dropLast.concat (isName_stem_append hd h)

theorem named_stagedPlace (hd : Named d) (n : Nat) : Named (stagedPlace d n) :=
  named_beside hd (slash_notMem_freshSuffix n)

theorem named_retiredPlace (hd : Named d) (n : Nat) : Named (retiredPlace d n) := by
  refine named_beside hd ?_
  rw [String.toList_append, List.mem_append, not_or]
  exact ⟨slash_notMem_freshSuffix n, by decide⟩

theorem stagedPlace_ne_nil (d : Place) (n : Nat) : stagedPlace d n ≠ [] := List.concat_ne_nil _ _

theorem retiredPlace_ne_nil (d : Place) (n : Nat) : retiredPlace d n ≠ [] := List.concat_ne_nil _ _

theorem dropLast_stagedPlace (d : Place) (n : Nat) : (stagedPlace d n).dropLast = d.dropLast :=
  List.dropLast_concat

theorem dropLast_retiredPlace (d : Place) (n : Nat) : (retiredPlace d n).dropLast = d.dropLast :=
  List.dropLast_concat

/-! ### What is apart -/

theorem apart_beside_beside {other : String} (h : ending ≠ other) :
    Apart (beside d ending) (beside d other) :=
  apart_beside fun he => h (String.append_right_inj _ |>.1 he)

theorem apart_beside_destination (hd : d ≠ []) (ending : String) : Apart (beside d ending) d := by
  have hname : d.dropLast ++ [(Path.ofPlace d).name] = d := by
    rw [Path.name, Path.ofPlace_parts, List.getLast?_eq_some_getLast hd]
    exact List.dropLast_append_getLast hd
  have hne : stem d ++ ending ≠ (Path.ofPlace d).name := fun he => by
    have := congrArg (fun s => s.toList.length) he
    simp only [String.toList_append, toList_stem, List.length_append, List.length_cons] at this
    omega
  have hapart := apart_beside (d := d.dropLast) hne
  rw [hname] at hapart
  exact hapart

theorem apart_staged_destination (hd : d ≠ []) (n : Nat) : Apart (stagedPlace d n) d :=
  apart_beside_destination hd _

theorem apart_retired_destination (hd : d ≠ []) (n : Nat) : Apart (retiredPlace d n) d :=
  apart_beside_destination hd _

theorem freshSuffix_ne_retired (m n : Nat) : Host.freshSuffix m ≠ Host.freshSuffix n ++ ".retired" := by
  intro he
  have hmem : 'd' ∈ (Host.freshSuffix m).toList := by
    rw [he, String.toList_append]
    exact List.mem_append_right _ (by decide)
  exact absurd (Host.isDigit_of_mem_freshSuffix hmem) (by decide)

theorem apart_staged_retired (d : Place) (m n : Nat) : Apart (stagedPlace d m) (retiredPlace d n) :=
  apart_beside_beside (freshSuffix_ne_retired m n)

theorem apart_staged_staged (d : Place) (h : m ≠ n) : Apart (stagedPlace d m) (stagedPlace d n) :=
  apart_beside_beside fun he => h (Host.freshSuffix_injective he)

theorem apart_retired_retired (d : Place) (h : m ≠ n) : Apart (retiredPlace d m) (retiredPlace d n) :=
  apart_beside_beside fun he => h (Host.freshSuffix_injective (String.append_left_inj _ |>.1 he))

/-! ### Their paths -/

theorem stagingPath_ofPlace (hd : Named d) :
    stagingPath (Path.ofPlace d) = Path.ofPlace (d.dropLast ++ [stem d]) := by
  have hname : IsName (stem d) := by
    have := @isName_stem_append d "" hd (by decide)
    rwa [String.append_empty] at this
  rw [stagingPath, Path.parent_ofPlace]
  exact Path.join_ofPlace hd.dropLast hname

theorem retiredPath_stagedPlace (d : Place) (n : Nat) :
    retiredPath (Path.ofPlace (stagedPlace d n)) = Path.ofPlace (retiredPlace d n) := by
  rw [retiredPath, stagedPlace, beside, Path.extend_ofPlace_concat, String.append_assoc]
  rfl

end places

/-! ### Writing the artifacts -/

/-- An artifact as a file. -/
def fileOf (a : Artifact) : String × String := (a.name, a.text)

/-- The name of an artifact: that of a file, or of a file in a directory. -/
def IsArtifactName (s : String) : Prop :=
  IsName s ∨ ∃ m n, IsName m ∧ IsName n ∧ s = m ++ "/" ++ n

section runs

variable {h : Host}

/-- A directory of files has no place for a file in a directory of its own. -/
theorem write_pair_error {t : Tree} {p : Place} {files : List (String × String)} {m n : String}
    (directory : Place) (ht : t.WellFormed) (hp : Named p) (hm : IsName m) (hn : IsName n)
    (hbelow : t.below p = flat files) (text : String) :
    ∃ f, t.write directory ((Path.ofPlace p).join (m ++ "/" ++ n)) text = .error f := by
  have hnamed : Named (p ++ [m, n]) := hp.append (by simp [Named, hm, hn])
  have hparent : t.get? (p ++ [m, n]).dropLast ≠ some .directory := by
    have hdrop : (p ++ [m, n]).dropLast = p ++ [m] := by
      rw [List.dropLast_append_of_ne_nil (List.cons_ne_nil m [n])]
      rfl
    have hget : t.get? (p ++ [m]) = flat files [m] := congrFun hbelow [m]
    rw [hdrop, hget, flat]
    cases files.reverse.lookup m <;> simp
  rw [Path.join_ofPlace_pair hp hm hn, Tree.write]
  cases hlocate : t.locate directory (Path.ofPlace (p ++ [m, n])) with
  | error f => exact ⟨f, rfl⟩
  | ok q => exact absurd ((Tree.locate_eq_ok_iff ht hnamed).1 hlocate).2 hparent

/-- Files are written into a directory of files up to the first name that asks for a directory. -/
theorem run_writeAll (disturbed : Nat → Option Disturbance) {p : Place} {artifacts : List Artifact}
    {files : List (String × String)} (ht : h.tree.WellFormed) (hp : Named p)
    (hnames : ∀ a ∈ artifacts, IsArtifactName a.name) (hbelow : h.tree.below p = flat files) :
    ∃ result t, h.run disturbed (writeAll (Path.ofPlace p) artifacts) = (result, { h with tree := t }) ∧
      t.WellFormed ∧ (∀ x, ¬ p <+: x → t.get? x = h.tree.get? x) ∧
      (result = .ok () → t.below p = flat (files ++ artifacts.map fileOf)) := by
  induction artifacts generalizing h files with
  | nil =>
    refine ⟨_, h.tree, rfl, ht, fun x _ => rfl, fun _ => ?_⟩
    rw [hbelow, List.map_nil, List.append_nil]
  | cons a artifacts ih =>
    rw [writeAll, Host.run_bind, Host.run_ask, Host.answer]
    obtain hname | ⟨m, n, hm, hn, heq⟩ := hnames a List.mem_cons_self
    · obtain ⟨t₁, hwrite, ht₁, hbelow₁, hframe₁⟩ :=
        Tree.write_flat h.directory ht hp hname hbelow a.text
      obtain ⟨result, t₂, hrun, ht₂, hframe₂, hbelow₂⟩ :=
        ih (h := { h with tree := t₁ }) ht₁ (fun b hb => hnames b (List.mem_cons_of_mem a hb)) hbelow₁
      rw [hwrite]
      refine ⟨result, t₂, hrun, ht₂, fun x hx => (hframe₂ x hx).trans (hframe₁ x hx), fun hok => ?_⟩
      rw [hbelow₂ hok, List.append_assoc]
      rfl
    · obtain ⟨f, hwrite⟩ := write_pair_error h.directory ht hp hm hn hbelow a.text
      rw [heq, hwrite]
      exact ⟨.error f, h.tree, rfl, ht, fun x _ => rfl, fun hok => by cases hok⟩

theorem run_remove (disturbed : Nat → Option Disturbance) {r : Place} (ht : h.tree.WellFormed)
    (hr : Named r) (hne : r ≠ []) :
    ∃ t, h.run disturbed (Program.ask (.remove (Path.ofPlace r))) = ((), { h with tree := t }) ∧
      t.WellFormed ∧ ∀ x, t.get? x = if r <+: x then none else h.tree.get? x :=
  ⟨_, rfl, Tree.remove_spec h.directory ht hr hne⟩

theorem run_log (disturbed : Nat → Option Disturbance) (log : Log.Threshold) (name : String)
    (level : Log.Level) (words : List String) :
    ∃ lines, h.run disturbed (Program.log log name level words) = ((), { h with printed := lines }) := by
  rw [Program.log]
  cases Log.line? log name level words with
  | none => exact ⟨h.printed, rfl⟩
  | some line => exact ⟨line :: h.printed, rfl⟩

/-- A fresh directory is made under a number that was not used, where nothing was. -/
theorem makeFresh_staging {d : Place} (ht : h.tree.WellFormed) (hd : Named d)
    (hdir : h.tree.get? d.dropLast = some .directory) :
    ∃ n, h.made ≤ n ∧
      h.makeFresh (stagingPath (Path.ofPlace d)) = (.ok (Path.ofPlace (stagedPlace d n)),
        { h with tree := h.tree.put (stagedPlace d n) .directory, made := n + 1 }) ∧
      (h.tree.put (stagedPlace d n) .directory).WellFormed ∧
      (h.tree.put (stagedPlace d n) .directory).below (stagedPlace d n) = flat [] ∧
      (∀ x, h.tree.below (stagedPlace d n) x = none) ∧
      ∀ x, h.tree.below (retiredPlace d n) x = none := by
  have hname : ∀ n, IsName (stem d ++ Host.freshSuffix n) := fun n =>
    isName_stem_append hd (slash_notMem_freshSuffix n)
  rw [stagingPath_ofPlace hd]
  obtain ⟨n, hmade, hfresh, hmake⟩ := Host.makeFresh_spec ht hd.dropLast hname hdir
  have hfree : ∀ x, h.tree.below (stagedPlace d n) x = none := fun x => by
    have := Host.get?_of_isFresh d.dropLast hfresh "" x
    rwa [String.append_empty] at this
  have hretired : ∀ x, h.tree.below (retiredPlace d n) x = none := fun x => by
    have := Host.get?_of_isFresh d.dropLast hfresh ".retired" x
    rwa [String.append_assoc] at this
  have hnone : h.tree.get? (stagedPlace d n) = none := by
    rw [← Tree.below_nil]
    exact hfree []
  have hput : (h.tree.put (stagedPlace d n) .directory).WellFormed :=
    ht.put (stagedPlace_ne_nil d n) (by rwa [dropLast_stagedPlace]) (by rw [hnone]; simp) .directory
  exact ⟨n, hmade, hmake, hput,
    Tree.below_put_directory ht (stagedPlace_ne_nil d n) hnone, hfree, hretired⟩

/-- Artifacts are staged: their directory is all that is new, and nothing is where the destination
would be set aside. -/
structure IsStaged (h h' : Host) (d : Place) (n : Nat) (artifacts : List Artifact) : Prop where
  made : h.made ≤ n
  renames : h'.renames = h.renames
  wellFormed : h'.tree.WellFormed
  staged : h'.tree.below (stagedPlace d n) = flat (artifacts.map fileOf)
  frame : ∀ x, ¬ stagedPlace d n <+: x → h'.tree.get? x = h.tree.get? x
  staged_free : ∀ r, h.tree.below (stagedPlace d n) r = none
  retired_free : ∀ r, h.tree.below (retiredPlace d n) r = none

theorem IsStaged.retired {h₁ : Host} {d : Place} {n : Nat} {artifacts : List Artifact}
    (hs : IsStaged h h₁ d n artifacts) (x : Place) : h₁.tree.below (retiredPlace d n) x = none := by
  rw [Tree.below, hs.frame _ ((apart_staged_retired d n n).not_below x)]
  exact hs.retired_free x

/-- Artifacts are staged, or nothing of them is left. -/
theorem run_stage (disturbed : Nat → Option Disturbance) (log : Log.Threshold) {d : Place}
    {artifacts : List Artifact} (ht : h.tree.WellFormed) (hd : Named d)
    (hdir : h.tree.get? d.dropLast = some .directory)
    (hnames : ∀ a ∈ artifacts, IsArtifactName a.name) :
    ∃ result h', h.run disturbed (stage log (Path.ofPlace d) artifacts) = (result, h') ∧
      ((∃ n, result = .ok (Path.ofPlace (stagedPlace d n)) ∧ IsStaged h h' d n artifacts) ∨
        (∃ e, result = .error e) ∧ h'.renames = h.renames ∧ ∀ x, h'.tree.get? x = h.tree.get? x) := by
  have hanswer : h.answer disturbed (.makeFresh (stagingPath (Path.ofPlace d))) =
      h.makeFresh (stagingPath (Path.ofPlace d)) := rfl
  rw [stage, Host.run_bind, Host.run_ask, hanswer]
  obtain ⟨n, hmade, hmake, hput, hempty, hfree, hretired⟩ := makeFresh_staging ht hd hdir
  obtain ⟨result, t, hwrite, hwf, hframe, hbelow⟩ :=
    run_writeAll disturbed
      (h := { h with tree := h.tree.put (stagedPlace d n) .directory, made := n + 1 })
      hput (named_stagedPlace hd n) hnames hempty
  have hsame : ∀ x, ¬ stagedPlace d n <+: x → t.get? x = h.tree.get? x := fun x hx => by
    rw [hframe x hx]
    exact Tree.get?_put_of_ne _ _ fun he => hx (by rw [he])
  rw [hmake]
  show ∃ answer h', Host.run disturbed
    { h with tree := h.tree.put (stagedPlace d n) .directory, made := n + 1 }
    (writeAll (Path.ofPlace (stagedPlace d n)) artifacts >>= _) = (answer, h') ∧ _
  rw [Host.run_bind, hwrite]
  cases result with
  | ok =>
    obtain ⟨lines, hlog⟩ :=
      run_log disturbed (h := { h with tree := t, made := n + 1 }) log logName .debug
        ["staged " ++ countText artifacts ++ " in " ++ (Path.ofPlace (stagedPlace d n)).text]
    refine ⟨_, { h with tree := t, made := n + 1, printed := lines }, ?_,
      .inl ⟨n, rfl, hmade, rfl, hwf, hbelow rfl, hsame, hfree, hretired⟩⟩
    show Host.run disturbed { h with tree := t, made := n + 1 } (Program.log log logName .debug
      ["staged " ++ countText artifacts ++ " in " ++ (Path.ofPlace (stagedPlace d n)).text] >>= _) = _
    rw [Host.run_bind, hlog]
    rfl
  | error f =>
    obtain ⟨t', hremove, -, hget⟩ :=
      run_remove (h := { h with tree := t, made := n + 1 }) disturbed hwf (named_stagedPlace hd n)
        (stagedPlace_ne_nil d n)
    refine ⟨_, { h with tree := t', made := n + 1 }, ?_,
      .inr ⟨⟨⟨Path.ofPlace d, .stagedArtifact, some f⟩, rfl⟩, rfl, fun x => ?_⟩⟩
    · show Host.run disturbed { h with tree := t, made := n + 1 }
        (Program.ask (.remove (Path.ofPlace (stagedPlace d n))) >>= _) = _
      rw [Host.run_bind, hremove]
      rfl
    · rw [hget]
      split_ifs with hunder
      · obtain ⟨z, rfl⟩ := hunder
        exact (hfree z).symm
      · exact hsame x hunder

end runs

end Publication

end MemoryCompiler.Rtl
