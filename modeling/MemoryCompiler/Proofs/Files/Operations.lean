import MemoryCompiler.Proofs.Files.Trees

/-!
# What the operations do

One statement an operation on a well-formed tree: when it succeeds, what the tree holds afterwards, and
that it is well-formed again. `Moved t p q t'` says that `t'` is `t` with `p` and all below it at `q`.
-/

namespace MemoryCompiler.Files

/-- Neither of two places lies below the other. -/
def Apart (p q : Place) : Prop := ¬ p <+: q ∧ ¬ q <+: p

section apart

variable {d p q z : Place} {x y : String}

theorem Apart.symm (h : Apart p q) : Apart q p := ⟨h.2, h.1⟩

theorem Apart.not_below (h : Apart p q) (r : Place) : ¬ p <+: q ++ r := fun hp =>
  (List.prefix_or_prefix_of_prefix hp (List.prefix_append q r)).elim h.1 h.2

theorem apart_beside (h : x ≠ y) : Apart (d ++ [x]) (d ++ [y]) :=
  ⟨not_below_beside h [], not_below_beside (Ne.symm h) []⟩

end apart

namespace Tree

section operations

variable {t t' : Tree} {p q z : Place} {e : Entry} {directory : Place}

/-! ### Putting and taking away -/

theorem WellFormed.put (ht : t.WellFormed) (hne : p ≠ []) (hparent : t.get? p.dropLast = some .directory)
    (hfree : t.get? p ≠ some .directory) (e : Entry) : (t.put p e).WellFormed where
  ne_nil := fun x hx => by
    rcases List.mem_append.1 hx with hx | hx
    · exact ht.ne_nil x (List.mem_filter.1 hx).1
    · rw [List.mem_singleton] at hx
      rwa [hx]
  parent := fun q hq => by
    have hup : ∀ q : Place, q ≠ [] → t.get? q.dropLast = some .directory →
        (t.put p e).get? q.dropLast = some .directory := by
      intro q _ hdir
      rw [get?_put_of_ne t e, hdir]
      rintro rfl
      exact hfree hdir
    by_cases hqp : q = p
    · rw [hqp]
      exact hup p hne hparent
    · rw [get?_put_of_ne t e hqp] at hq
      by_cases hroot : q = []
      · rw [hroot]
        rfl
      · exact hup q hroot (ht.parent q hq)

theorem get?_erase_of_below (t : Tree) (hp : p ≠ []) (h : p <+: q) : (t.erase p).get? q = none := by
  have hq : q ≠ [] := by
    rintro rfl
    exact hp (List.prefix_nil.1 h)
  rw [get?_erase t hq, if_pos (List.isPrefixOf_iff_prefix.2 h)]

theorem get?_erase_of_not_below (t : Tree) (h : ¬ p <+: q) : (t.erase p).get? q = t.get? q := by
  by_cases hq : q = []
  · rw [hq]
    rfl
  · rw [get?_erase t hq, if_neg (mt List.isPrefixOf_iff_prefix.1 h)]

theorem WellFormed.erase (ht : t.WellFormed) (hp : p ≠ []) : (t.erase p).WellFormed where
  ne_nil := fun x hx => ht.ne_nil x (List.mem_filter.1 hx).1
  parent := fun q hq => by
    by_cases hpq : p <+: q
    · rw [get?_erase_of_below t hp hpq] at hq
      cases hq
    · have hup : ¬ p <+: q.dropLast := fun h => hpq (h.trans (List.dropLast_prefix q))
      rw [get?_erase_of_not_below t hpq] at hq
      rw [get?_erase_of_not_below t hup]
      exact ht.parent q hq

/-! ### Moving -/

/-- The tree `t'` is `t` with `p` and all below it at `q`, where nothing else is. -/
def Moved (t : Tree) (p q : Place) (t' : Tree) : Prop :=
  ∀ x, t'.get? x =
    if q <+: x then t.get? (p ++ x.drop q.length) else if p <+: x then none else t.get? x

theorem lookup_cons_of_ne {α β : Type} [BEq α] [LawfulBEq α] {a k : α} (h : a ≠ k) (b : β)
    (entries : List (α × β)) : ((k, b) :: entries).lookup a = entries.lookup a := by
  rw [List.lookup_cons, beq_eq_false_iff_ne.2 h]

theorem lookup_graft {entries : List (Place × Entry)} (hfree : ∀ y ∈ entries, ¬ q <+: y.1) (x : Place) :
    (entries.map fun y => if p.isPrefixOf y.1 then (q ++ y.1.drop p.length, y.2) else y).lookup x =
      if q <+: x then entries.lookup (p ++ x.drop q.length)
      else if p <+: x then none else entries.lookup x := by
  induction entries with
  | nil => simp
  | cons y entries ih =>
    obtain ⟨y, e⟩ := y
    have hy : ¬ q <+: y := hfree (y, e) List.mem_cons_self
    have hrest := ih fun z hz => hfree z (List.mem_cons_of_mem _ hz)
    rw [List.map_cons]
    by_cases hpy : p <+: y
    · rw [if_pos (List.isPrefixOf_iff_prefix.2 hpy)]
      obtain ⟨u, rfl⟩ := hpy
      rw [List.drop_left]
      by_cases hx : x = q ++ u
      · rw [hx, List.lookup_cons_self, if_pos (List.prefix_append q u), List.drop_left,
          List.lookup_cons_self]
      · rw [lookup_cons_of_ne hx, hrest]
        split_ifs with hqx hpx
        · obtain ⟨s, rfl⟩ := hqx
          rw [List.drop_left, lookup_cons_of_ne fun he => hx (by rw [List.append_cancel_left he])]
        · rfl
        · rw [lookup_cons_of_ne fun he => hpx (by rw [he]; exact List.prefix_append p u)]
    · rw [if_neg (mt List.isPrefixOf_iff_prefix.1 hpy)]
      by_cases hx : x = y
      · rw [hx, List.lookup_cons_self, if_neg hy, if_neg hpy, List.lookup_cons_self]
      · rw [lookup_cons_of_ne hx, hrest]
        split_ifs with hqx hpx
        · rw [lookup_cons_of_ne fun he => hpy (by rw [← he]; exact List.prefix_append p _)]
        · rfl
        · rw [lookup_cons_of_ne hx]

theorem moved_graft (hp : p ≠ []) (hq : q ≠ []) (hfree : ∀ r, t.below q r = none) :
    Moved t p q (t.graft p q) := by
  have hnone : ∀ y ∈ t.entries, ¬ q <+: y.1 := by
    rintro y hy ⟨r, hr⟩
    have hsome := isSome_get?_of_mem hy
    rw [← hr, ← below, hfree r] at hsome
    cases hsome
  intro x
  by_cases hx : x = []
  · subst hx
    rw [if_neg (mt List.prefix_nil.1 hq), if_neg (mt List.prefix_nil.1 hp)]
    rfl
  · have hne : p ++ x.drop q.length ≠ [] := List.append_ne_nil_of_left_ne_nil hp _
    rw [get?, if_neg hx, graft, lookup_graft hnone, get?, get?, if_neg hx, if_neg hne]

theorem Moved.below_target (h : Moved t p q t') : t'.below q = t.below p := by
  funext r
  rw [below, h, if_pos (List.prefix_append q r), List.drop_left]
  rfl

theorem Moved.below_source (h : Moved t p q t') (hpq : Apart p q) (r : Place) : t'.below p r = none := by
  rw [below, h, if_neg (hpq.symm.not_below r), if_pos (List.prefix_append p r)]

theorem Moved.below_other (h : Moved t p q t') (hp : Apart p z) (hq : Apart q z) :
    t'.below z = t.below z := by
  funext r
  rw [below, h, if_neg (hq.not_below r), if_neg (hp.not_below r)]
  rfl

theorem Moved.get?_of_apart (h : Moved t p q t') (hp : ¬ p <+: z) (hq : ¬ q <+: z) :
    t'.get? z = t.get? z := by
  rw [h, if_neg hq, if_neg hp]

theorem mem_graft {x : Place × Entry} (h : x ∈ (t.graft p q).entries) :
    ∃ y ∈ t.entries, x.1 = y.1 ∨ ∃ r, x.1 = q ++ r := by
  obtain ⟨y, hy, rfl⟩ := List.mem_map.1 h
  refine ⟨y, hy, ?_⟩
  split_ifs
  · exact .inr ⟨_, rfl⟩
  · exact .inl rfl

theorem WellFormed.graft (ht : t.WellFormed) (hp : p ≠ []) (hq : q ≠ []) (hpq : ¬ p <+: q)
    (hparent : t.get? q.dropLast = some .directory) (hfree : ∀ r, t.below q r = none) :
    (t.graft p q).WellFormed where
  ne_nil := fun x hx => by
    obtain ⟨y, hy, he | ⟨r, he⟩⟩ := mem_graft hx
    · rw [he]
      exact ht.ne_nil y hy
    · rw [he]
      exact List.append_ne_nil_of_left_ne_nil hq r
  parent := fun x hx => by
    have hmoved := moved_graft hp hq hfree
    -- The directory of the target is neither below the target nor below what is moved.
    have hqup : ¬ q <+: q.dropLast := not_below_dropLast hq rfl
    have hpup : ¬ p <+: q.dropLast := fun h => hpq (h.trans (List.dropLast_prefix q))
    by_cases hqx : q <+: x
    · obtain ⟨r, rfl⟩ := hqx
      by_cases hr : r = []
      · rw [hr, List.append_nil, hmoved.get?_of_apart hpup hqup]
        exact hparent
      · rw [hmoved, if_pos (List.prefix_append q r), List.drop_left] at hx
        have hup := ht.parent _ hx
        rw [List.dropLast_append_of_ne_nil hr] at hup ⊢
        rw [hmoved, if_pos (List.prefix_append q _), List.drop_left]
        exact hup
    · rw [hmoved, if_neg hqx] at hx
      split_ifs at hx with hpx
      · cases hx
      · have hup := ht.parent x hx
        rw [hmoved.get?_of_apart (fun h => hpx (h.trans (List.dropLast_prefix x)))
          fun h => hqx (h.trans (List.dropLast_prefix x))]
        exact hup

/-! ### Writing and making -/

theorem write_eq_ok (ht : t.WellFormed) (hp : Named p) (hparent : t.get? p.dropLast = some .directory)
    (hfree : t.get? p ≠ some .directory) (text : String) :
    t.write directory (Path.ofPlace p) text = .ok (t.put p (.file text)) := by
  rw [write, locate_of_parent ht hp hparent]
  show (if (false || decide (t.get? p = some .directory)) = true then _ else _) = _
  rw [decide_eq_false hfree]
  rfl

theorem makeDirectory_eq_ok (ht : t.WellFormed) (hp : Named p)
    (hparent : t.get? p.dropLast = some .directory) (hfree : t.get? p = none) :
    t.makeDirectory directory (Path.ofPlace p) = .ok (t.put p .directory) := by
  rw [makeDirectory, locate_of_parent ht hp hparent]
  simp only [bind, Except.bind, hfree]

theorem makeDirectory_taken (ht : t.WellFormed) (hp : Named p) (h : (t.get? p).isSome) :
    t.makeDirectory directory (Path.ofPlace p) = .error .taken := by
  obtain ⟨e, he⟩ := Option.isSome_iff_exists.1 h
  rw [makeDirectory, locate_of_parent ht hp (ht.parent p h)]
  simp only [bind, Except.bind, he]

/-- The tree `t'` is `t` with directories on the way to `p` that were missing. -/
def WithWay (t : Tree) (p : Place) (t' : Tree) : Prop :=
  ∀ x, t'.get? x = t.get? x ∨ t.get? x = none ∧ x <+: p ∧ t'.get? x = some .directory

theorem WithWay.below_eq (h : WithWay t p t') (hz : ¬ z <+: p) : t'.below z = t.below z := by
  funext r
  rcases h (z ++ r) with h | ⟨-, hunder, -⟩
  · exact h
  · exact absurd ((List.prefix_append z r).trans hunder) hz

theorem WellFormed.step (ht : t.WellFormed) {here : Place} (h : t.get? here = some .directory) :
    t.get? here.dropLast = some .directory :=
  ht.parent here (by rw [h]; rfl)

/-- The tree `t'` is `t` with directories that were missing where a path comes by. -/
def WithPassed (t : Tree) (here : Place) (parts : List String) (t' : Tree) : Prop :=
  ∀ x, t'.get? x = t.get? x ∨ t.get? x = none ∧ Path.Passes here parts x ∧ t'.get? x = some .directory

theorem WithPassed.cons {name : String} {rest : List String} {here there : Place}
    (hstep : Path.step here name = there) (h : WithPassed t there rest t') :
    WithPassed t here (name :: rest) t' := fun x =>
  (h x).imp_right fun hnew => ⟨hnew.1, hnew.2.1.cons hstep, hnew.2.2⟩

/-- Directories are made where a path comes by; where none is refused, the last one is its place. -/
theorem makeWay_passed (slashed : Bool) (rest : List String) {here : Place} (ht : t.WellFormed)
    (hhere : t.get? here = some .directory) :
    (makeWay slashed t here rest).2.WellFormed ∧
      WithPassed t here rest (makeWay slashed t here rest).2 ∧
      ((makeWay slashed t here rest).1 = .ok () →
        (makeWay slashed t here rest).2.get? (Path.follow here rest) = some .directory) := by
  induction rest generalizing t here with
  | nil => exact ⟨ht, fun x => .inl rfl, fun _ => hhere⟩
  | cons name rest ih =>
    unfold makeWay
    rw [Path.follow_cons]
    by_cases hdot : name = "."
    · rw [if_pos hdot, hdot]
      obtain ⟨hwf, hway, hmade⟩ := ih ht hhere
      exact ⟨hwf, hway.cons rfl, hmade⟩
    rw [if_neg hdot]
    by_cases hdots : name = ".."
    · rw [if_pos hdots, hdots]
      obtain ⟨hwf, hway, hmade⟩ := ih ht (ht.step hhere)
      exact ⟨hwf, hway.cons rfl, hmade⟩
    have hstep : Path.step here name = here ++ [name] := Path.step_name hdot hdots
    rw [if_neg hdots, hstep]
    cases hget : t.get? (here ++ [name]) with
    | some e =>
      cases e with
      | file text => exact ⟨ht, fun x => .inl rfl, fun h => by cases h⟩
      | directory =>
        obtain ⟨hwf, hway, hmade⟩ := ih ht hget
        exact ⟨hwf, hway.cons hstep, hmade⟩
    | none =>
      have hne : here ++ [name] ≠ [] := List.concat_ne_nil name here
      have hput : (t.put (here ++ [name]) .directory).WellFormed :=
        ht.put hne (by rw [List.dropLast_concat]; exact hhere) (by rw [hget]; simp) .directory
      have hnew := get?_put t .directory hne
      obtain ⟨hwf, hway, hmade⟩ := ih hput hnew
      refine ⟨hwf, fun x => ?_, hmade⟩
      by_cases hx : x = here ++ [name]
      · subst hx
        -- What was put on the way is a directory and stays one.
        have hstays := (hway (here ++ [name])).elim (fun hsame => hsame.trans hnew) fun h => h.2.2
        exact .inr ⟨hget, (Path.passes_self _ rest).cons hstep, hstays⟩
      · have hlater := hway x
        rw [get?_put_of_ne t .directory hx] at hlater
        exact hlater.imp_right fun hnew => ⟨hnew.1, hnew.2.1.cons hstep, hnew.2.2⟩

theorem makeWay_spec (slashed : Bool) {rest here : Place} (ht : t.WellFormed) (hrest : Named rest)
    (hhere : t.get? here = some .directory) :
    (makeWay slashed t here rest).2.WellFormed ∧
      WithWay t (here ++ rest) (makeWay slashed t here rest).2 ∧
      ((makeWay slashed t here rest).1 = .ok () →
        (makeWay slashed t here rest).2.get? (here ++ rest) = some .directory) := by
  obtain ⟨hwf, hpassed, hmade⟩ := makeWay_passed slashed rest ht hhere
  rw [Path.follow_named here hrest] at hmade
  refine ⟨hwf, fun x => (hpassed x).imp_right fun hnew => ⟨hnew.1, ?_, hnew.2.2⟩, hmade⟩
  obtain ⟨way, hway, rfl⟩ := hnew.2.1
  rw [Path.follow_named here fun n hn => hrest n (hway.subset hn)]
  exact (List.prefix_append_right_inj here).2 hway

theorem makeWay_blocked (slashed : Bool) {rest here : Place} (hrest : Named rest) {f : Fault}
    (h : (makeWay slashed t here rest).1 = .error f) :
    ∃ q text, q <+: here ++ rest ∧ t.get? q = some (.file text) := by
  induction rest generalizing t here with
  | nil =>
    rw [makeWay] at h
    cases h
  | cons n rest ih =>
    have hn := hrest n List.mem_cons_self
    have hnext := fun (t : Tree) (h : (makeWay slashed t (here ++ [n]) rest).1 = .error f) =>
      ih (fun m hm => hrest m (List.mem_cons_of_mem n hm)) h
    have hassoc : here ++ n :: rest = here ++ [n] ++ rest := by rw [List.append_assoc]; rfl
    rw [hassoc]
    unfold makeWay at h
    rw [if_neg hn.2.2.1, if_neg hn.2.2.2] at h
    cases hget : t.get? (here ++ [n]) with
    | some e =>
      rw [hget] at h
      cases e with
      | file text => exact ⟨here ++ [n], text, List.prefix_append _ _, hget⟩
      | directory => exact hnext t h
    | none =>
      rw [hget] at h
      obtain ⟨q, text, hq, hfile⟩ := hnext _ h
      -- What was put on the way is no file.
      have hne : q ≠ here ++ [n] := fun he => by
        rw [he, get?_put t .directory (List.concat_ne_nil n here)] at hfile
        cases hfile
      rw [get?_put_of_ne t .directory hne] at hfile
      exact ⟨q, text, hq, hfile⟩

theorem makeDirectories_spec (directory : Place) (ht : t.WellFormed) (hp : Named p) :
    (t.makeDirectories directory (Path.ofPlace p)).2.WellFormed ∧
      WithWay t p (t.makeDirectories directory (Path.ofPlace p)).2 ∧
      ((t.makeDirectories directory (Path.ofPlace p)).1 = .ok () →
        (t.makeDirectories directory (Path.ofPlace p)).2.get? p = some .directory) :=
  makeWay_spec false ht hp t.get?_root

theorem makeDirectories_blocked (directory : Place) (hp : Named p) {f : Fault}
    (h : (t.makeDirectories directory (Path.ofPlace p)).1 = .error f) :
    ∃ q text, q <+: p ∧ t.get? q = some (.file text) :=
  makeWay_blocked false hp h

/-! ### Removing -/

theorem remove_spec (directory : Place) (ht : t.WellFormed) (hp : Named p) (hne : p ≠ []) :
    (t.remove directory (Path.ofPlace p)).WellFormed ∧
      ∀ x, (t.remove directory (Path.ofPlace p)).get? x = if p <+: x then none else t.get? x := by
  cases hget : t.get? p with
  | some e =>
    rw [remove, find_of_get? ht hp hget]
    refine ⟨ht.erase hne, fun x => ?_⟩
    split_ifs with hx
    · exact get?_erase_of_below t hne hx
    · exact get?_erase_of_not_below t hx
  | none =>
    obtain ⟨f, hf⟩ := find_of_none directory ht hp hget
    rw [remove, hf]
    refine ⟨ht, fun x => ?_⟩
    split_ifs with hx
    · by_cases he : p = x
      · rw [← he]
        exact hget
      · exact ht.get?_eq_none (by rw [hget]; simp) hx he
    · rfl

theorem below_of_removed (hpz : Apart p z) (h : ∀ x, t'.get? x = if p <+: x then none else t.get? x) :
    t'.below z = t.below z := by
  funext x
  rw [below, h, if_neg (hpz.not_below x)]
  rfl

/-! ### Renaming -/

theorem rename_missing (directory : Place) (ht : t.WellFormed) (hp : Named p) (h : t.get? p = none)
    (target : Path) :
    ∃ f, t.rename directory (Path.ofPlace p) target = .error f := by
  obtain ⟨f, hf⟩ := find_of_none directory ht hp h
  exact ⟨f, by rw [rename, hf]; rfl⟩

theorem rename_inside (directory : Place) (ht : t.WellFormed) (hp : Named p) (hq : Named q)
    (h : t.get? p = some e) (hpq : p <+: q) (hne : p ≠ q) :
    ∃ f, t.rename directory (Path.ofPlace p) (Path.ofPlace q) = .error f := by
  rw [rename, find_of_get? ht hp h]
  cases hlocate : t.locate directory (Path.ofPlace q) with
  | error f => exact ⟨f, rfl⟩
  | ok q' =>
    obtain ⟨rfl, -⟩ := (locate_eq_ok_iff ht hq).1 hlocate
    refine ⟨.insideItself, ?_⟩
    show (if p = q' then _ else if p.isPrefixOf q' then _ else _) = _
    rw [if_neg hne, if_pos (List.isPrefixOf_iff_prefix.2 hpq)]

theorem rename_apart (directory : Place) (ht : t.WellFormed) (hp : Named p) (hq : Named q)
    (hsource : t.get? p = some .directory) (hparent : t.get? q.dropLast = some .directory)
    (hpq : Apart p q) :
    t.rename directory (Path.ofPlace p) (Path.ofPlace q) =
      match t.get? q with
      | some (.file _) => .error .notDirectory
      | some .directory => if t.isInhabited q then .error .notEmpty else .ok ((t.erase q).graft p q)
      | none => .ok (t.graft p q) := by
  have hne : p ≠ q := fun he => hpq.1 (by rw [he])
  rw [rename, find_of_get? ht hp hsource]
  show (t.locate directory (Path.ofPlace q)).bind _ = _
  rw [locate_of_parent ht hq hparent]
  show (if p = q then _ else if p.isPrefixOf q then _ else _) = _
  rw [if_neg hne, if_neg (mt List.isPrefixOf_iff_prefix.1 hpq.1)]
  cases t.get? q with
  | none => rfl
  | some e => cases e <;> rfl

/-- A directory is moved to a place where nothing is or over an empty directory, and nowhere else. -/
theorem rename_directory (directory : Place) (ht : t.WellFormed) (hp : Named p) (hq : Named q)
    (hsource : t.get? p = some .directory) (hparent : t.get? q.dropLast = some .directory)
    (hpq : Apart p q) (hfile : ∀ text, t.get? q ≠ some (.file text)) :
    ((∀ r, r ≠ [] → t.below q r = none) ∧
        ∃ t', t.rename directory (Path.ofPlace p) (Path.ofPlace q) = .ok t' ∧ Moved t p q t' ∧
          t'.WellFormed) ∨
      ((∃ r, r ≠ [] ∧ (t.below q r).isSome) ∧
        ∃ f, t.rename directory (Path.ofPlace p) (Path.ofPlace q) = .error f) := by
  have hp0 : p ≠ [] := fun he => hpq.1 (by rw [he]; exact List.nil_prefix)
  have hq0 : q ≠ [] := fun he => hpq.2 (by rw [he]; exact List.nil_prefix)
  have hrename := rename_apart directory ht hp hq hsource hparent hpq
  cases hget : t.get? q with
  | none =>
    have hfree : ∀ r, t.below q r = none := fun r => by
      by_cases hr : r = []
      · rw [hr, below_nil, hget]
      · exact ht.get?_eq_none (by rw [hget]; simp) (List.prefix_append q r) fun he =>
          hr (List.append_right_eq_self.1 he.symm)
    rw [hrename, hget]
    exact .inl ⟨fun r _ => hfree r, _, rfl, moved_graft hp0 hq0 hfree,
      ht.graft hp0 hq0 hpq.1 hparent hfree⟩
  | some e =>
    cases e with
    | file text => exact absurd hget (hfile text)
    | directory =>
      rw [hrename, hget]
      by_cases hin : t.isInhabited q = true
      · obtain ⟨x, ⟨r, rfl⟩, hx, hsome⟩ := isInhabited_iff.1 hin
        refine .inr ⟨⟨r, fun hr => hx (by rw [hr, List.append_nil]), hsome⟩, .notEmpty, ?_⟩
        show (if t.isInhabited q then _ else _) = _
        rw [if_pos hin]
      · have hempty : ∀ r, r ≠ [] → t.below q r = none := fun r hr => by
          by_contra hsome
          exact hin (isInhabited_iff.2 ⟨q ++ r, List.prefix_append q r, fun he =>
            hr (List.append_right_eq_self.1 he), Option.isSome_iff_ne_none.2 hsome⟩)
        have hfree : ∀ r, (t.erase q).below q r = none := fun r =>
          get?_erase_of_below t hq0 (List.prefix_append q r)
        have hup : ¬ q <+: q.dropLast := not_below_dropLast hq0 rfl
        refine .inl ⟨hempty, (t.erase q).graft p q, ?_, ?_, ?_⟩
        · show (if t.isInhabited q then _ else _) = _
          rw [if_neg hin]
        · intro x
          rw [moved_graft hp0 hq0 hfree x]
          split_ifs with hqx hpx
          · exact get?_erase_of_not_below t (hpq.symm.not_below _)
          · rfl
          · exact get?_erase_of_not_below t hqx
        · exact (ht.erase hq0).graft hp0 hq0 hpq.1
            ((get?_erase_of_not_below t hup).trans hparent) hfree

end operations

end Tree

end MemoryCompiler.Files
