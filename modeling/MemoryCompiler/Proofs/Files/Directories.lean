import MemoryCompiler.Proofs.Files.Operations

/-!
# Directories of files

`flat files` is what a directory holds after files were written into it in order: the last text of
each name and nothing below. A directory starts as `flat []` (`below_put_directory`), and each file that
is written adds one at the end of the list (`write_flat`).
-/

namespace MemoryCompiler.Files

/-- What a directory holds into which files were written in order. -/
def flat (files : List (String × String)) : Place → Option Entry
  | [] => some .directory
  | [n] => (files.reverse.lookup n).map .file
  | _ :: _ :: _ => none

theorem flat_of_mem {files : List (String × String)} (hnames : (files.map Prod.fst).Nodup)
    {f : String × String} (hf : f ∈ files) : flat files [f.1] = some (.file f.2) := by
  obtain ⟨before, after, rfl⟩ := List.append_of_mem hf
  have hother : ∀ g ∈ after.reverse, f.1 ≠ g.1 := by
    rw [List.map_append, List.map_cons] at hnames
    intro g hg he
    have hnotMem := (List.nodup_cons.1 (List.nodup_append.1 hnames).2.1).1
    exact hnotMem (he ▸ List.mem_map_of_mem (List.mem_reverse.1 hg))
  have hlookup : (before ++ f :: after).reverse.lookup f.1 = some f.2 := by
    rw [List.reverse_append, List.reverse_cons, List.append_assoc]
    exact List.lookup_eq_some_iff.2 ⟨_, _, rfl, fun g hg => by simpa using hother g hg⟩
  rw [flat, hlookup]
  rfl

theorem exists_mem_of_flat {files : List (String × String)} {r : Place} (hr : r ≠ [])
    (h : (flat files r).isSome) : ∃ f ∈ files, r = [f.1] := by
  match r with
  | [] => exact absurd rfl hr
  | [n] =>
    rw [flat, Option.isSome_map, List.lookup_isSome_iff] at h
    obtain ⟨f, hf, hn⟩ := h
    rw [beq_iff_eq] at hn
    exact ⟨f, List.mem_reverse.1 hf, by rw [hn]⟩
  | _ :: _ :: _ => cases h

namespace Tree

section directories

variable {t : Tree} {p : Place} {files : List (String × String)} {n : String}

theorem get?_of_below_flat (h : t.below p = flat files) : t.get? p = some .directory := by
  rw [← below_nil, h]
  rfl

theorem below_put_directory (ht : t.WellFormed) (hp : p ≠ []) (h : t.get? p = none) :
    (t.put p .directory).below p = flat [] := by
  have hfree : ∀ r, r ≠ [] → t.get? (p ++ r) = none := fun r hr =>
    ht.get?_eq_none (by rw [h]; simp) (List.prefix_append p r) fun he =>
      hr (List.append_right_eq_self.1 he.symm)
  funext r
  rw [below]
  by_cases hr : r = []
  · rw [hr, List.append_nil, get?_put t .directory hp]
    rfl
  · rw [get?_put_of_ne t .directory fun he => hr (List.append_right_eq_self.1 he), hfree r hr]
    cases r with
    | nil => exact absurd rfl hr
    | cons m rest => cases rest <;> rfl

theorem below_put_file (h : t.below p = flat files) (text : String) :
    (t.put (p ++ [n]) (.file text)).below p = flat (files ++ [(n, text)]) := by
  funext r
  have hold : t.get? (p ++ r) = flat files r := congrFun h r
  rw [below]
  by_cases hr : r = [n]
  · rw [hr, get?_put t _ (List.concat_ne_nil n p)]
    show _ = Option.map Entry.file ((files ++ [(n, text)]).reverse.lookup n)
    rw [List.reverse_append]
    simp
  · rw [get?_put_of_ne t _ fun he => hr (List.append_cancel_left he), hold]
    cases r with
    | nil => rfl
    | cons m rest =>
      cases rest with
      | nil =>
        have hm : m ≠ n := fun he => hr (by rw [he])
        show Option.map Entry.file (files.reverse.lookup m) = Option.map Entry.file _
        rw [List.reverse_append, List.reverse_singleton, List.singleton_append,
          lookup_cons_of_ne hm]
      | cons m' rest => rfl

theorem write_flat (directory : Place) (ht : t.WellFormed) (hp : Named p) (hn : IsName n)
    (h : t.below p = flat files) (text : String) :
    ∃ t', t.write directory ((Path.ofPlace p).join n) text = .ok t' ∧ t'.WellFormed ∧
      t'.below p = flat (files ++ [(n, text)]) ∧ ∀ x, ¬ p <+: x → t'.get? x = t.get? x := by
  have hne : p ++ [n] ≠ [] := List.concat_ne_nil n p
  have hparent : t.get? (p ++ [n]).dropLast = some .directory := by
    rw [List.dropLast_concat]
    exact get?_of_below_flat h
  have hfree : t.get? (p ++ [n]) ≠ some .directory := by
    have hold : t.get? (p ++ [n]) = flat files [n] := congrFun h [n]
    rw [hold, flat]
    cases files.reverse.lookup n <;> simp
  refine ⟨t.put (p ++ [n]) (.file text), ?_, ht.put hne hparent hfree _, below_put_file h text, ?_⟩
  · rw [Path.join_ofPlace hp hn]
    exact write_eq_ok ht (hp.concat hn) hparent hfree text
  · intro x hx
    exact get?_put_of_ne t _ fun he => hx (by rw [he]; exact List.prefix_append p _)

end directories

end Tree

end MemoryCompiler.Files
