import MemoryCompiler.Proofs.Files.Directories
import MemoryCompiler.Proofs.Files.FreshNames

/-!
# Renames on a host

What the rename of a directory can come to on a host whose renames may be disturbed: it is done, it is
refused and leaves the tree alone, or another writer's directory of files comes first (`renamed_rename`).
-/

namespace MemoryCompiler.Files

namespace Host

variable {disturbed : Nat → Option Disturbance} {h : Host} {p q : Place}

/-! ### Other writers -/

theorem foldlM_write_flat (directory : Place) {t : Tree} (ht : t.WellFormed) (hq : Named q)
    {before files : List (String × String)} (hfiles : ∀ f ∈ files, IsName f.1)
    (h : t.below q = flat before) :
    ∃ t', (files.foldlM (fun t f => t.write directory ((Path.ofPlace q).join f.1) f.2) t :
        Except Fault Tree) = .ok t' ∧ t'.WellFormed ∧
      t'.below q = flat (before ++ files) ∧ ∀ x, ¬ q <+: x → t'.get? x = t.get? x := by
  induction files generalizing t before with
  | nil => exact ⟨t, rfl, ht, by rw [h, List.append_nil], fun x _ => rfl⟩
  | cons f files ih =>
    obtain ⟨t₁, hwrite, ht₁, hbelow₁, hframe₁⟩ :=
      Tree.write_flat directory ht hq (hfiles f List.mem_cons_self) h f.2
    obtain ⟨t₂, hfold, ht₂, hbelow₂, hframe₂⟩ :=
      ih ht₁ (fun g hg => hfiles g (List.mem_cons_of_mem f hg)) hbelow₁
    refine ⟨t₂, ?_, ht₂, ?_, fun x hx => (hframe₂ x hx).trans (hframe₁ x hx)⟩
    · rw [List.foldlM_cons, hwrite]
      exact hfold
    · rw [hbelow₂, List.append_assoc]
      rfl

theorem overtake_spec (ht : h.tree.WellFormed) (hq : Named q) (hne : q ≠ [])
    (hparent : h.tree.get? q.dropLast = some .directory) (hfree : h.tree.get? q = none)
    {files : List (String × String)} (hfiles : ∀ f ∈ files, IsName f.1) :
    ∃ t, h.overtake (Path.ofPlace q) files = .ok t ∧ t.WellFormed ∧ t.below q = flat files ∧
      ∀ x, ¬ q <+: x → t.get? x = h.tree.get? x := by
  have hput : (h.tree.put q .directory).WellFormed :=
    ht.put hne hparent (by rw [hfree]; simp) .directory
  obtain ⟨t, hfold, hwf, hbelow, hframe⟩ :=
    foldlM_write_flat h.directory hput hq hfiles (Tree.below_put_directory ht hne hfree)
  refine ⟨t, ?_, hwf, hbelow, fun x hx => ?_⟩
  · rw [overtake, Tree.makeDirectory_eq_ok ht hq hparent hfree]
    exact hfold
  · rw [hframe x hx]
    exact Tree.get?_put_of_ne _ _ fun he => hx (by rw [he])

theorem overtake_taken (ht : h.tree.WellFormed) (hq : Named q) (htaken : (h.tree.get? q).isSome)
    (files : List (String × String)) : h.overtake (Path.ofPlace q) files = .error .taken := by
  rw [overtake, Tree.makeDirectory_taken ht hq htaken]
  rfl

/-! ### Renames -/

/-- What renaming the directory at `p` to `q` can come to. -/
inductive Renamed (disturbed : Nat → Option Disturbance) (h : Host) (p q : Place) :
    Except Fault Unit × Host → Prop
  | done {t : Tree} (calm : disturbed (h.renames + 1) = none) (outside : ¬ p <+: q)
      (free : ∀ r, r ≠ [] → h.tree.below q r = none) (moved : Tree.Moved h.tree p q t)
      (wellFormed : t.WellFormed) :
      Renamed disturbed h p q (.ok (), { h with tree := t, renames := h.renames + 1 })
  | refused (f : Fault)
      (why : (h.tree.get? q).isSome ∨ p <+: q ∨
        ∃ reason, disturbed (h.renames + 1) = some (.fails reason)) :
      Renamed disturbed h p q (.error f, { h with renames := h.renames + 1 })
  | overtaken {t : Tree} {files : List (String × String)} (reason : String)
      (disturbance : disturbed (h.renames + 1) = some (.overtaken reason files))
      (free : h.tree.get? q = none) (flat_target : t.below q = flat files)
      (frame : ∀ x, ¬ q <+: x → t.get? x = h.tree.get? x) (wellFormed : t.WellFormed) :
      Renamed disturbed h p q
        (.error (.other reason), { h with tree := t, renames := h.renames + 1 })

/-- The names of the files that other writers put into their directories. -/
def PlainOthers (disturbed : Nat → Option Disturbance) : Prop :=
  ∀ n reason files, disturbed n = some (.overtaken reason files) → ∀ f ∈ files, IsName f.1

theorem renamed_rename (ht : h.tree.WellFormed) (hothers : PlainOthers disturbed) (hp : Named p)
    (hq : Named q) (hsource : h.tree.get? p = some .directory)
    (hparent : h.tree.get? q.dropLast = some .directory) (hqp : ¬ q <+: p)
    (hfile : ∀ text, h.tree.get? q ≠ some (.file text)) :
    Renamed disturbed h p q (h.rename disturbed (Path.ofPlace p) (Path.ofPlace q)) := by
  have hne : q ≠ [] := fun he => hqp (by rw [he]; exact List.nil_prefix)
  rw [rename]
  cases hd : disturbed (h.renames + 1) with
  | none =>
    simp only
    by_cases hpq : p <+: q
    · obtain ⟨f, hf⟩ := Tree.rename_inside h.directory ht hp hq hsource hpq
        fun he => hqp (by rw [he])
      rw [hf]
      exact .refused f (.inr (.inl hpq))
    · obtain ⟨hfree, t, hrename, hmoved, hwf⟩ | ⟨⟨r, -, hsome⟩, f, hf⟩ :=
        Tree.rename_directory h.directory ht hp hq hsource hparent ⟨hpq, hqp⟩ hfile
      · rw [hrename]
        exact .done hd hpq hfree hmoved hwf
      · rw [hf]
        exact .refused f (.inl (ht.isSome_of_below hsome))
  | some d =>
    cases d with
    | fails reason =>
      simp only
      exact .refused _ (.inr (.inr ⟨reason, hd⟩))
    | overtaken reason files =>
      simp only
      cases hget : h.tree.get? q with
      | some e =>
        have htaken : (h.tree.get? q).isSome := by rw [hget]; rfl
        have herror := overtake_taken (h := { h with renames := h.renames + 1 }) ht hq htaken files
        rw [herror]
        exact .refused _ (.inl htaken)
      | none =>
        obtain ⟨t, hok, hwf, hbelow, hframe⟩ :=
          overtake_spec (h := { h with renames := h.renames + 1 }) ht hq hne hparent hget
            (hothers _ _ _ hd)
        rw [hok]
        exact .overtaken reason hd hget hbelow hframe hwf

end Host

end MemoryCompiler.Files
