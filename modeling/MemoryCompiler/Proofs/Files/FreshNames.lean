import MemoryCompiler.Files.Host
import MemoryCompiler.Proofs.Files.Operations

/-!
# Fresh names

A host numbers the directories it makes, and six or more digits give a number back
(`freshSuffix_injective`). Where a fresh name leads nothing is (`get?_of_isFresh`), and the directory made
there is all that `makeFresh` changes.
-/

namespace MemoryCompiler.Files

namespace Host

/-! ### The digits of a number -/

theorem toList_freshSuffix (n : Nat) :
    (freshSuffix n).toList =
      List.replicate (6 - (Nat.toDigits 10 n).length) '0' ++ Nat.toDigits 10 n := by
  rw [freshSuffix, String.toList_ofList]

theorem isDigit_of_mem_freshSuffix {n : Nat} {c : Char} (h : c ∈ (freshSuffix n).toList) :
    c.isDigit = true := by
  rw [toList_freshSuffix] at h
  rcases List.mem_append.1 h with h | h
  · rw [(List.mem_replicate.1 h).2]
    rfl
  · exact Nat.isDigit_of_mem_toDigits (by omega) (by omega) h

theorem freshSuffix_injective {m n : Nat} (h : freshSuffix m = freshSuffix n) : m = n := by
  have hvalue : ∀ k, Nat.ofDigitChars 10 (freshSuffix k).toList 0 = k := fun k => by
    rw [toList_freshSuffix, Nat.ofDigitChars_append, Nat.ofDigitChars_replicate_zero, Nat.mul_zero,
      Nat.ofDigitChars_ten_toDigits]
  rw [← hvalue m, h, hvalue n]

/-! ### Where fresh names lead -/

section fresh

variable {t : Tree} {name : String}

theorem get?_of_isFresh (p : Place) (h : isFresh t name = true) (more : String) (r : Place) :
    t.below (p ++ [name ++ more]) r = none := by
  rw [Tree.below]
  by_contra hsome
  have hne : p ++ [name ++ more] ++ r ≠ [] :=
    List.append_ne_nil_of_left_ne_nil (List.concat_ne_nil _ p) r
  obtain ⟨e, he⟩ := Tree.exists_mem_of_isSome hne (Option.isSome_iff_ne_none.2 hsome)
  have hpart : name ++ more ∈ p ++ [name ++ more] ++ r :=
    List.mem_append_left r (List.mem_append_right p List.mem_cons_self)
  have hall := List.all_eq_true.1 (List.all_eq_true.1 h _ he) _ hpart
  have hunder : name.toList <+: (name ++ more).toList := by
    rw [String.toList_append]
    exact List.prefix_append _ _
  rw [List.isPrefixOf_iff_prefix.2 hunder] at hall
  cases hall

/-- What the names in a tree start with. -/
def starts (t : Tree) : List (List Char) :=
  t.entries.flatMap fun x => x.1.flatMap fun part => part.toList.inits.tail

theorem length_starts (t : Tree) : (starts t).length = letters t := by
  have hparts : ∀ p : Place, (p.flatMap fun part => part.toList.inits.tail).length =
      (p.map String.length).sum := fun p => by
    rw [List.length_flatMap]
    refine congrArg List.sum (List.map_congr_left fun part _ => ?_)
    rw [List.length_tail, List.length_inits, Nat.add_sub_cancel, String.length_toList]
  rw [starts, List.length_flatMap, letters]
  exact congrArg List.sum (List.map_congr_left fun x _ => hparts x.1)

theorem mem_starts (hname : name ≠ "") (h : isFresh t name = false) : name.toList ∈ starts t := by
  rw [isFresh, List.all_eq_false] at h
  obtain ⟨x, hx, hparts⟩ := h
  rw [Bool.not_eq_true, List.all_eq_false] at hparts
  obtain ⟨part, hpart, hstart⟩ := hparts
  rw [Bool.not_eq_true, Bool.not_eq_false', List.isPrefixOf_iff_prefix] at hstart
  refine List.mem_flatMap.2 ⟨x, hx, List.mem_flatMap.2 ⟨part, hpart, ?_⟩⟩
  have hmem : name.toList ∈ part.toList.inits := (List.mem_inits _ _).2 hstart
  have hinits : part.toList.inits = [] :: part.toList.inits.tail := by
    cases part.toList <;> rfl
  rw [hinits] at hmem
  rcases List.mem_cons.1 hmem with hnil | hmem
  · exact absurd (String.toList_eq_nil_iff.1 hnil) hname
  · exact hmem

/-- Among as many numbers as there are letters in a tree and one more, one makes a fresh name. -/
theorem exists_isFresh (t : Tree) {stem : String} (hname : ∀ n, IsName (stem ++ freshSuffix n))
    (m : Nat) : ∃ n, m ≤ n ∧ n < m + (letters t + 1) ∧ isFresh t (stem ++ freshSuffix n) = true := by
  by_contra hnone
  push Not at hnone
  have hnodup : ((List.range' m (letters t + 1)).map fun n => (stem ++ freshSuffix n).toList).Nodup := by
    refine (List.nodup_range').map fun a b hab => ?_
    exact freshSuffix_injective (String.append_right_inj _ |>.1 (String.toList_injective hab))
  have hsub : (List.range' m (letters t + 1)).map (fun n => (stem ++ freshSuffix n).toList) ⊆
      starts t := by
    intro cs hcs
    obtain ⟨n, hn, rfl⟩ := List.mem_map.1 hcs
    rw [List.mem_range'_1] at hn
    exact mem_starts (hname n).1 (Bool.eq_false_iff.2 (hnone n hn.1 hn.2))
  have hlength := (List.subperm_of_subset hnodup hsub).length_le
  rw [List.length_map, List.length_range', length_starts] at hlength
  omega

theorem freshNumber?_spec {stem : String} {tries m n : Nat}
    (h : freshNumber? t stem tries m = some n) : m ≤ n ∧ isFresh t (stem ++ freshSuffix n) = true := by
  induction tries generalizing m with
  | zero => cases h
  | succ tries ih =>
    rw [freshNumber?] at h
    split_ifs at h with hfresh
    · rw [Option.some.injEq] at h
      rw [← h]
      exact ⟨le_refl m, hfresh⟩
    · obtain ⟨hle, hn⟩ := ih h
      exact ⟨by omega, hn⟩

theorem freshNumber?_isSome {stem : String} {tries m n : Nat} (hmn : m ≤ n) (hn : n < m + tries)
    (hfresh : isFresh t (stem ++ freshSuffix n) = true) : (freshNumber? t stem tries m).isSome := by
  induction tries generalizing m with
  | zero => omega
  | succ tries ih =>
    rw [freshNumber?]
    split_ifs with hm
    · rfl
    · have hne : m ≠ n := fun he => hm (by rwa [he])
      exact ih (by omega) (by omega)

end fresh

theorem makeFresh_spec {h : Host} {p : Place} {stem : String} (ht : h.tree.WellFormed) (hp : Named p)
    (hname : ∀ n, IsName (stem ++ freshSuffix n)) (hdir : h.tree.get? p = some .directory) :
    ∃ n, h.made ≤ n ∧ isFresh h.tree (stem ++ freshSuffix n) = true ∧
      h.makeFresh (Path.ofPlace (p ++ [stem])) =
        (.ok (Path.ofPlace (p ++ [stem ++ freshSuffix n])),
          { h with tree := h.tree.put (p ++ [stem ++ freshSuffix n]) .directory, made := n + 1 }) := by
  obtain ⟨m, hm, hlt, hmfresh⟩ := exists_isFresh h.tree hname h.made
  obtain ⟨n, hn⟩ := Option.isSome_iff_exists.1 (freshNumber?_isSome hm hlt hmfresh)
  obtain ⟨hle, hfresh⟩ := freshNumber?_spec hn
  have hnone : h.tree.get? (p ++ [stem ++ freshSuffix n]) = none := by
    have := get?_of_isFresh p hfresh "" []
    rwa [String.append_empty, Tree.below_nil] at this
  refine ⟨n, hle, hfresh, ?_⟩
  rw [makeFresh, Path.name_ofPlace_concat, hn]
  simp only [Path.extend_ofPlace_concat]
  rw [Tree.makeDirectory_eq_ok ht (hp.concat (hname n)) (by rwa [List.dropLast_concat]) hnone]

end Host

end MemoryCompiler.Files
