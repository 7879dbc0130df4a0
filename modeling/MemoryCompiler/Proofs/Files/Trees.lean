import MemoryCompiler.Proofs.Files.Places

/-!
# Well-formed trees

In a well-formed tree everything lies in a directory. A path of names then leads to its place exactly
if the place's directory is there (`locate_eq_ok_iff`, `find_eq_ok_iff`), and what a tree holds is known
from what is at each place. `Moved t p q t'` says that `t'` is `t` with `p` and all below it at `q`.
-/

namespace MemoryCompiler.Files

namespace Tree

/-- Everything in a tree lies in a directory. -/
structure WellFormed (t : Tree) : Prop where
  ne_nil : ∀ x ∈ t.entries, x.1 ≠ []
  parent : ∀ p, (t.get? p).isSome → t.get? p.dropLast = some .directory

/-- What is at a place and below it. -/
def below (t : Tree) (p : Place) : Place → Option Entry := fun r => t.get? (p ++ r)

section wellFormed

variable {t : Tree} {p q : Place} {e : Entry}

theorem below_nil (t : Tree) (p : Place) : t.below p [] = t.get? p := by
  rw [below, List.append_nil]

theorem isSome_get?_of_mem {x : Place × Entry} (h : x ∈ t.entries) : (t.get? x.1).isSome := by
  rw [get?]
  split_ifs
  · rfl
  · rw [List.lookup_isSome_iff]
    exact ⟨x, h, by simp⟩

theorem exists_mem_of_isSome (hp : p ≠ []) (h : (t.get? p).isSome) : ∃ e, (p, e) ∈ t.entries := by
  rw [get?, if_neg hp, List.lookup_isSome_iff] at h
  obtain ⟨x, hx, he⟩ := h
  rw [beq_iff_eq] at he
  exact ⟨x.2, by rw [he]; exact hx⟩

theorem wellFormed_iff :
    t.WellFormed ↔ ∀ x ∈ t.entries, x.1 ≠ [] ∧ t.get? x.1.dropLast = some .directory := by
  constructor
  · exact fun ht x hx => ⟨ht.ne_nil x hx, ht.parent _ (isSome_get?_of_mem hx)⟩
  · refine fun h => ⟨fun x hx => (h x hx).1, fun p hp => ?_⟩
    by_cases hroot : p = []
    · rw [hroot]
      rfl
    · obtain ⟨e, he⟩ := exists_mem_of_isSome hroot hp
      exact (h _ he).2

instance : Decidable t.WellFormed := decidable_of_iff _ wellFormed_iff.symm

theorem WellFormed.ancestor (ht : t.WellFormed) (h : (t.get? p).isSome) (hq : q <+: p) (hne : q ≠ p) :
    t.get? q = some .directory := by
  obtain ⟨r, rfl⟩ := hq
  induction r using List.reverseRecOn with
  | nil => exact absurd (List.append_nil q).symm hne
  | append_singleton r n ih =>
    have hparent := ht.parent _ h
    rw [← List.append_assoc, List.dropLast_concat] at hparent
    by_cases hr : r = []
    · rwa [hr, List.append_nil] at hparent
    · refine ih (by rw [hparent]; rfl) fun he => hr ?_
      exact List.append_right_eq_self.1 he.symm

theorem WellFormed.get?_eq_none (ht : t.WellFormed) (h : t.get? q ≠ some .directory) (hq : q <+: p)
    (hne : q ≠ p) : t.get? p = none := by
  by_contra hp
  exact h (ht.ancestor (Option.isSome_iff_ne_none.2 hp) hq hne)

theorem WellFormed.isSome_of_below (ht : t.WellFormed) (h : (t.below p q).isSome) :
    (t.get? p).isSome := by
  by_cases hq : q = []
  · rwa [hq, below_nil] at h
  · rw [ht.ancestor h (List.prefix_append p q) fun he => hq (List.append_right_eq_self.1 he.symm)]
    rfl

theorem isInhabited_iff :
    t.isInhabited p = true ↔ ∃ q, p <+: q ∧ q ≠ p ∧ (t.get? q).isSome := by
  rw [isInhabited, List.any_eq_true]
  constructor
  · rintro ⟨x, hx, hunder⟩
    rw [Bool.and_eq_true, List.isPrefixOf_iff_prefix, decide_eq_true_eq] at hunder
    exact ⟨x.1, hunder.1, hunder.2, isSome_get?_of_mem hx⟩
  · rintro ⟨q, hunder, hne, hq⟩
    have hq' : q ≠ [] := by
      rintro rfl
      exact hne (List.prefix_nil.1 hunder).symm
    obtain ⟨e, he⟩ := exists_mem_of_isSome hq' hq
    refine ⟨(q, e), he, ?_⟩
    rw [Bool.and_eq_true, List.isPrefixOf_iff_prefix, decide_eq_true_eq]
    exact ⟨hunder, hne⟩

/-! ### Following a path -/

section walk

variable {here rest : Place} {n : String}

theorem walk_directory (hn : IsName n) (h : t.get? (here ++ [n]) = some .directory) :
    t.walk here (n :: rest) = t.walk (here ++ [n]) rest := by
  rw [walk, if_neg hn.2.2.1, if_neg hn.2.2.2]
  exact h

theorem walk_last (hn : IsName n) : t.walk here [n] = .ok (here ++ [n]) := by
  by_cases hdir : t.get? (here ++ [n]) = some .directory
  · rw [walk_directory hn hdir, walk]
  · unfold walk
    rw [if_neg hn.2.2.1, if_neg hn.2.2.2]
    cases hget : t.get? (here ++ [n]) with
    | none => rfl
    | some e =>
      cases e with
      | file text => rfl
      | directory => exact absurd hget hdir

theorem walk_stopped (hn : IsName n) (h : t.get? (here ++ [n]) ≠ some .directory) (hrest : rest ≠ []) :
    ∃ f, t.walk here (n :: rest) = .error f := by
  unfold walk
  rw [if_neg hn.2.2.1, if_neg hn.2.2.2]
  cases rest with
  | nil => exact absurd rfl hrest
  | cons m rest =>
    cases hget : t.get? (here ++ [n]) with
    | none => exact ⟨.missing, rfl⟩
    | some e =>
      cases e with
      | file text => exact ⟨.notDirectory, rfl⟩
      | directory => exact absurd hget h

theorem walk_ok (ht : t.WellFormed) (hrest : Named rest)
    (h : t.get? (here ++ rest).dropLast = some .directory) :
    t.walk here rest = .ok (here ++ rest) := by
  induction rest generalizing here with
  | nil => rw [walk, List.append_nil]
  | cons n rest ih =>
    have hn := hrest n List.mem_cons_self
    have hassoc : here ++ n :: rest = here ++ [n] ++ rest := by rw [List.append_assoc]; rfl
    rw [hassoc] at h ⊢
    by_cases hlast : rest = []
    · subst hlast
      rw [walk_last hn, List.append_nil]
    · have hunder : here ++ [n] <+: (here ++ [n] ++ rest).dropLast :=
        prefix_dropLast_of_ne (List.prefix_append _ _) fun he =>
          hlast (List.append_right_eq_self.1 he.symm)
      have hdir : t.get? (here ++ [n]) = some .directory := by
        by_cases he : here ++ [n] = (here ++ [n] ++ rest).dropLast
        · rw [he]
          exact h
        · exact ht.ancestor (by rw [h]; rfl) hunder he
      rw [walk_directory hn hdir]
      exact ih (fun m hm => hrest m (List.mem_cons_of_mem n hm)) h

theorem walk_error (hrest : Named rest) (hne : rest ≠ [])
    (h : t.get? (here ++ rest).dropLast ≠ some .directory) (hhere : t.get? here = some .directory) :
    ∃ f, t.walk here rest = .error f := by
  induction rest generalizing here with
  | nil => exact absurd rfl hne
  | cons n rest ih =>
    have hn := hrest n List.mem_cons_self
    have hassoc : here ++ n :: rest = here ++ [n] ++ rest := by rw [List.append_assoc]; rfl
    by_cases hlast : rest = []
    · subst hlast
      rw [List.dropLast_concat] at h
      exact absurd hhere h
    · by_cases hdir : t.get? (here ++ [n]) = some .directory
      · rw [hassoc] at h
        rw [walk_directory hn hdir]
        exact ih (fun m hm => hrest m (List.mem_cons_of_mem n hm)) hlast h hdir
      · exact walk_stopped hn hdir hlast

end walk

section paths

variable {directory : Place}

theorem locate_eq_ok_iff (ht : t.WellFormed) (hp : Named p) :
    t.locate directory (Path.ofPlace p) = .ok q ↔ q = p ∧ t.get? p.dropLast = some .directory := by
  rw [locate, Path.isEmpty_ofPlace]
  show t.walk [] p = .ok q ↔ _
  by_cases hparent : t.get? p.dropLast = some .directory
  · have hwalk : t.walk [] p = .ok p := walk_ok ht hp hparent
    rw [hwalk, Except.ok.injEq, eq_comm, and_iff_left hparent]
  · have hne : p ≠ [] := by
      rintro rfl
      exact hparent t.get?_root
    obtain ⟨f, hf⟩ := walk_error hp hne hparent t.get?_root
    rw [hf]
    constructor
    · intro h
      cases h
    · exact fun h => absurd h.2 hparent

theorem locate_of_parent (ht : t.WellFormed) (hp : Named p)
    (h : t.get? p.dropLast = some .directory) : t.locate directory (Path.ofPlace p) = .ok p :=
  (locate_eq_ok_iff ht hp).2 ⟨rfl, h⟩

theorem find_eq_ok_iff (ht : t.WellFormed) (hp : Named p) {x : Place × Entry} :
    t.find directory (Path.ofPlace p) = .ok x ↔ x.1 = p ∧ t.get? p = some x.2 := by
  rw [find]
  cases hlocate : t.locate directory (Path.ofPlace p) with
  | error f =>
    constructor
    · intro h
      cases h
    · rintro ⟨-, h⟩
      rw [locate_of_parent ht hp (ht.parent p (by rw [h]; rfl))] at hlocate
      cases hlocate
  | ok q =>
    obtain ⟨rfl, -⟩ := (locate_eq_ok_iff ht hp).1 hlocate
    obtain ⟨y, e⟩ := x
    simp only [bind, Except.bind]
    cases hget : t.get? q with
    | none => simp
    | some e' =>
      cases e' <;> simp [Path.ofPlace, Prod.ext_iff, eq_comm]

theorem find_of_get? (ht : t.WellFormed) (hp : Named p) (h : t.get? p = some e) :
    t.find directory (Path.ofPlace p) = .ok (p, e) :=
  (find_eq_ok_iff ht hp).2 ⟨rfl, h⟩

theorem find_of_none (directory : Place) (ht : t.WellFormed) (hp : Named p) (h : t.get? p = none) :
    ∃ f, t.find directory (Path.ofPlace p) = .error f := by
  cases hfind : t.find directory (Path.ofPlace p) with
  | error f => exact ⟨f, rfl⟩
  | ok x =>
    have := ((find_eq_ok_iff ht hp).1 hfind).2
    rw [h] at this
    cases this

theorem isOk_find (ht : t.WellFormed) (hp : Named p) :
    (t.find directory (Path.ofPlace p)).isOk = (t.get? p).isSome := by
  cases h : t.get? p with
  | none =>
    obtain ⟨f, hf⟩ := find_of_none directory ht hp h
    rw [hf]
    rfl
  | some e =>
    rw [find_of_get? ht hp h]
    rfl

end paths

end wellFormed

end Tree

end MemoryCompiler.Files
