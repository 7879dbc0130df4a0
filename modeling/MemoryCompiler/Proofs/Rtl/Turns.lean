import MemoryCompiler.Proofs.Rtl.Protocol

/-!
# The turns of a publication

What one request of a publication does to the tree, phase by phase. `Has` is what a phase relies on, and
`Moves` lists all that a turn can do (`Follows.advance`); what holds of concurrent publications is proved
from that list alone.
-/

namespace MemoryCompiler.Rtl

open Files Publication

/-- What a publication relies on in a phase. -/
def Has (t : Tree) (d : Place) (c : Writer) : Phase → Prop
  | .entering => t.get? d.dropLast = some .directory
  | .staging n files => t.get? d.dropLast = some .directory ∧
      t.below (stagedPlace d n) = flat files ∧ ∀ x, t.below (retiredPlace d n) x = none
  | .arriving n | .replacing n => t.get? d.dropLast = some .directory ∧
      t.below (stagedPlace d n) = flat c.files ∧ ∀ x, t.below (retiredPlace d n) x = none
  | .swapping n => d ≠ [] ∧ t.get? d.dropLast = some .directory ∧
      t.below (stagedPlace d n) = flat c.files ∧ t.get? (retiredPlace d n) = some .directory
  | .restoring n => d ≠ [] ∧ t.get? d.dropLast = some .directory ∧
      t.get? (retiredPlace d n) = some .directory
  | .clearing n => ∀ x, t.below (stagedPlace d n) x = none
  | .cleaning n => ∀ x, t.below (retiredPlace d n) x = none
  | .waiting | .dropping _ | .returned | .failed => True

/-- A place that only the publication with the m-th fresh directory works at. -/
def Private (d : Place) (m : Nat) (z : Place) : Prop := z = stagedPlace d m ∨ z = retiredPlace d m

/-- What one request of a publication does: the tree before and after, the phase before and after, and
the rename that was carried out. -/
inductive Moves (c : Writer) (d : Place) (h h' : Host) : Phase → Phase → Option (Path × Path) → Prop
  | rests {phase : Phase} (tree : h'.tree = h.tree) (made : h'.made = h.made) :
      Moves c d h h' phase phase none
  | finds {n : Nat} (tree : h'.tree = h.tree) (made : h'.made = h.made)
      (there : (h.tree.get? d).isSome) :
      Moves c d h h' (.staging n c.files) (.replacing n) none
  | misses {n : Nat} (tree : h'.tree = h.tree) (made : h'.made = h.made) :
      Moves c d h h' (.staging n c.files) (.arriving n) none
  | givesUp {n : Nat} (tree : h'.tree = h.tree) (made : h'.made = h.made) :
      Moves c d h h' (.replacing n) (.cleaning n) none
  | turnsBack {n : Nat} (tree : h'.tree = h.tree) (made : h'.made = h.made)
      (taken : (h.tree.get? d).isSome) : Moves c d h h' (.arriving n) (.cleaning n) none
  | blocked {n : Nat} (tree : h'.tree = h.tree) (made : h'.made = h.made)
      (taken : (h.tree.get? d).isSome) : Moves c d h h' (.swapping n) (.restoring n) none
  | stuck {n : Nat} (tree : h'.tree = h.tree) (made : h'.made = h.made)
      (taken : (h.tree.get? d).isSome) : Moves c d h h' (.restoring n) (.dropping n) none
  | way (made : h'.made = h.made) (way : Tree.WithWay h.tree d.dropLast h'.tree)
      (parent : h'.tree.get? d.dropLast = some .directory) : Moves c d h h' .waiting .entering none
  | noWay (made : h'.made = h.made) (way : Tree.WithWay h.tree d.dropLast h'.tree)
      (file : ∃ q text, q <+: d.dropLast ∧ h.tree.get? q = some (.file text)) :
      Moves c d h h' .waiting .failed none
  | fresh {n : Nat} (least : h.made ≤ n) (made : h'.made = n + 1)
      (unused : ∀ z, Private d n z → ∀ x, h.tree.below z x = none)
      (staged : h'.tree.below (stagedPlace d n) = flat [])
      (frame : ∀ x, ¬ stagedPlace d n <+: x → h'.tree.get? x = h.tree.get? x) :
      Moves c d h h' .entering (.staging n []) none
  | write {n : Nat} {files : List (String × String)} {a : Artifact} (made : h'.made = h.made)
      (staged : h'.tree.below (stagedPlace d n) = flat (files ++ [fileOf a]))
      (frame : ∀ x, ¬ stagedPlace d n <+: x → h'.tree.get? x = h.tree.get? x) :
      Moves c d h h' (.staging n files) (.staging n (files ++ [fileOf a])) none
  | retire {n : Nat} (made : h'.made = h.made) (root : d ≠ [])
      (target : h.tree.get? d = some .directory)
      (moved : Tree.Moved h.tree d (retiredPlace d n) h'.tree) :
      Moves c d h h' (.replacing n) (.swapping n)
        (some (.ofPlace d, .ofPlace (retiredPlace d n)))
  | enter {n : Nat} (made : h'.made = h.made) (root : d ≠ [])
      (free : ∀ x, x ≠ [] → h.tree.below d x = none)
      (moved : Tree.Moved h.tree (stagedPlace d n) d h'.tree) :
      Moves c d h h' (.arriving n) .returned
        (some (.ofPlace (stagedPlace d n), .ofPlace d))
  | swap {n : Nat} (made : h'.made = h.made) (root : d ≠ [])
      (free : ∀ x, x ≠ [] → h.tree.below d x = none)
      (moved : Tree.Moved h.tree (stagedPlace d n) d h'.tree) :
      Moves c d h h' (.swapping n) (.clearing n) (some (.ofPlace (stagedPlace d n), .ofPlace d))
  | putBack {n : Nat} (made : h'.made = h.made) (root : d ≠ [])
      (free : ∀ x, x ≠ [] → h.tree.below d x = none)
      (moved : Tree.Moved h.tree (retiredPlace d n) d h'.tree) :
      Moves c d h h' (.restoring n) (.cleaning n) (some (.ofPlace (retiredPlace d n), .ofPlace d))
  | drop {n : Nat} (made : h'.made = h.made)
      (removed : ∀ x, h'.tree.get? x = if retiredPlace d n <+: x then none else h.tree.get? x) :
      Moves c d h h' (.dropping n) (.cleaning n) none
  | clear {n : Nat} (made : h'.made = h.made)
      (removed : ∀ x, h'.tree.get? x = if retiredPlace d n <+: x then none else h.tree.get? x) :
      Moves c d h h' (.clearing n) .returned none
  | clean {n : Nat} (made : h'.made = h.made)
      (removed : ∀ x, h'.tree.get? x = if stagedPlace d n <+: x then none else h.tree.get? x) :
      Moves c d h h' (.cleaning n) .failed none

/-- A turn of a program leads to a phase that the program then follows. -/
structure Turn (c : Writer) (d : Place) (h : Host) (phase phase' : Phase) (x : Program Outcome × Host)
    (renamed : Option (Path × Path)) : Prop where
  follows : Follows c h.directory d phase' x.1
  wellFormed : x.2.tree.WellFormed
  directory : x.2.directory = h.directory
  moves : Moves c d h x.2 phase phase' renamed

section turns

variable {c : Writer} {h : Host} {d : Place} {n : Nat}

theorem turn_fresh {next : Except Fault Path → Program Outcome} (ht : h.tree.WellFormed)
    (hd : Named d) (hparent : h.tree.get? d.dropLast = some .directory)
    (hok : ∀ n, Follows c h.directory d (.staging n []) (next (.ok (.ofPlace (stagedPlace d n))))) :
    ∃ phase', Turn c d h .entering phase'
      (h.advance (.call (.makeFresh (stagingPath (.ofPlace d))) next)) none := by
  have hadvance : h.advance (.call (.makeFresh (stagingPath (.ofPlace d))) next) =
      (next (h.makeFresh (stagingPath (.ofPlace d))).1,
        (h.makeFresh (stagingPath (.ofPlace d))).2) := rfl
  obtain ⟨n, hmade, hmake, hput, hempty, hfree, hretired⟩ := makeFresh_staging ht hd hparent
  rw [hadvance, hmake]
  refine ⟨.staging n [], hok n, hput, rfl, .fresh hmade rfl ?_ hempty fun x hx => ?_⟩
  · rintro z (rfl | rfl)
    · exact hfree
    · exact hretired
  · exact Tree.get?_put_of_ne _ _ fun he => hx (by rw [he])

theorem turn_way {next : Except Fault Unit → Program Outcome} (ht : h.tree.WellFormed)
    (hd : Named d) (hok : Follows c h.directory d .entering (next (.ok ())))
    (herror : ∀ f, Follows c h.directory d .failed (next (.error f))) :
    ∃ phase', Turn c d h .waiting phase'
      (h.advance (.call (.makeDirectories (.ofPlace d.dropLast)) next)) none := by
  obtain ⟨hwf, hway, hmade⟩ := Tree.makeDirectories_spec h.directory ht hd.dropLast
  have hblocked := fun f => Tree.makeDirectories_blocked (t := h.tree) (f := f) h.directory hd.dropLast
  have hadvance : h.advance (.call (.makeDirectories (.ofPlace d.dropLast)) next) =
      (next (h.tree.makeDirectories h.directory (.ofPlace d.dropLast)).1,
        { h with tree := (h.tree.makeDirectories h.directory (.ofPlace d.dropLast)).2 }) := rfl
  rw [hadvance]
  generalize h.tree.makeDirectories h.directory (Path.ofPlace d.dropLast) = way at hwf hway hmade hblocked ⊢
  obtain ⟨result, t⟩ := way
  cases result with
  | error f => exact ⟨.failed, herror f, hwf, rfl, .noWay rfl hway (hblocked f rfl)⟩
  | ok => exact ⟨.entering, hok, hwf, rfl, .way rfl hway (hmade rfl)⟩

theorem turn_write {next : Except Fault Unit → Program Outcome} {files : List (String × String)}
    {a : Artifact} (ht : h.tree.WellFormed) (hd : Named d) (hname : IsName a.name)
    (hstaged : h.tree.below (stagedPlace d n) = flat files)
    (hok : Follows c h.directory d (.staging n (files ++ [fileOf a])) (next (.ok ()))) :
    Turn c d h (.staging n files) (.staging n (files ++ [fileOf a]))
      (h.advance (.call (.write ((Path.ofPlace (stagedPlace d n)).join a.name) a.text) next)) none := by
  obtain ⟨t, hwrite, hwf, hbelow, hframe⟩ :=
    Tree.write_flat h.directory ht (named_stagedPlace hd n) hname hstaged a.text
  have hadvance : h.advance (.call (.write ((Path.ofPlace (stagedPlace d n)).join a.name) a.text) next) =
      (next (.ok ()), { h with tree := t }) := by
    rw [Host.advance.eq_def]
    simp only [Host.answer, hwrite]
  rw [hadvance]
  exact ⟨hok, hwf, rfl, .write rfl hbelow hframe⟩

/-! ### Renames -/

/-- A directory beside the destination is moved there unless something is in the way. -/
theorem advance_to_destination {s : Place} (next : Except Fault Unit → Program Outcome)
    (ht : h.tree.WellFormed) (hd : Named d) (hs : Named s)
    (hsource : h.tree.get? s = some .directory) (hparent : h.tree.get? d.dropLast = some .directory)
    (hfile : ∀ text, h.tree.get? d ≠ some (.file text)) (hsd : Apart s d) :
    (∃ t, (h.advance (.call (.rename (.ofPlace s) (.ofPlace d)) next) =
          (next (.ok ()), { h with tree := t, renames := h.renames + 1 }) ∧
        h.renaming? (.call (.rename (.ofPlace s) (.ofPlace d)) next) =
          some (.ofPlace s, .ofPlace d)) ∧
        t.WellFormed ∧ (∀ x, x ≠ [] → h.tree.below d x = none) ∧ Tree.Moved h.tree s d t) ∨
      (∃ f, h.advance (.call (.rename (.ofPlace s) (.ofPlace d)) next) =
          (next (.error f), { h with renames := h.renames + 1 }) ∧
        h.renaming? (.call (.rename (.ofPlace s) (.ofPlace d)) next) = none) ∧
        (h.tree.get? d).isSome := by
  obtain ⟨hfree, t, hrename, hmoved, hwf⟩ | ⟨⟨x, -, hsome⟩, f, hf⟩ :=
    Tree.rename_directory h.directory ht hs hd hsource hparent hsd hfile
  · exact .inl ⟨t, Host.advance_rename_ok next hrename, hwf, hfree, hmoved⟩
  · exact .inr ⟨⟨f, Host.advance_rename_error next hf⟩, ht.isSome_of_below hsome⟩

theorem turn_retire {next : Except Fault Unit → Program Outcome} (ht : h.tree.WellFormed)
    (hd : Named d) (hfile : ∀ text, h.tree.get? d ≠ some (.file text))
    (hparent : h.tree.get? d.dropLast = some .directory)
    (hfree : ∀ x, h.tree.below (retiredPlace d n) x = none)
    (hok : Follows c h.directory d (.swapping n) (next (.ok ())))
    (herror : ∀ f, Follows c h.directory d (.cleaning n) (next (.error f))) :
    ∃ phase', Turn c d h (.replacing n) phase'
      (h.advance (.call (.rename (.ofPlace d) (.ofPlace (retiredPlace d n))) next))
      (h.renaming? (.call (.rename (.ofPlace d) (.ofPlace (retiredPlace d n))) next)) := by
  have hr := named_retiredPlace hd n
  -- However the rename fails, nothing has changed.
  have hfailed : (∃ f, h.tree.rename h.directory (.ofPlace d) (.ofPlace (retiredPlace d n)) = .error f) →
      ∃ phase', Turn c d h (.replacing n) phase'
        (h.advance (.call (.rename (.ofPlace d) (.ofPlace (retiredPlace d n))) next))
        (h.renaming? (.call (.rename (.ofPlace d) (.ofPlace (retiredPlace d n))) next)) := by
    rintro ⟨f, hf⟩
    obtain ⟨hadvance, hrenaming⟩ := Host.advance_rename_error next hf
    rw [hadvance, hrenaming]
    exact ⟨.cleaning n, herror f, ht, rfl, .givesUp rfl rfl⟩
  cases hget : h.tree.get? d with
  | none => exact hfailed (Tree.rename_missing h.directory ht hd hget _)
  | some e =>
    cases e with
    | file text => exact absurd hget (hfile text)
    | directory =>
      by_cases hroot : d = []
      · subst hroot
        exact hfailed (Tree.rename_inside h.directory ht hd hr hget List.nil_prefix
          (retiredPlace_ne_nil [] n).symm)
      · have hrd := apart_retired_destination hroot n
        obtain ⟨-, t, hrename, hmoved, hwf⟩ | ⟨⟨r, -, hsome⟩, -⟩ :=
          Tree.rename_directory h.directory ht hd hr hget (by rw [dropLast_retiredPlace]; exact hparent)
            hrd.symm (fun text he => by rw [← Tree.below_nil, hfree] at he; cases he)
        · obtain ⟨hadvance, hrenaming⟩ := Host.advance_rename_ok next hrename
          rw [hadvance, hrenaming]
          exact ⟨.swapping n, hok, hwf, rfl, .retire rfl hroot hget hmoved⟩
        · rw [hfree] at hsome
          cases hsome

theorem Follows.turn {phase : Phase} {p : Program Outcome} (hf : Follows c h.directory d phase p)
    (ht : h.tree.WellFormed) (hd : Named d) (hfile : ∀ text, h.tree.get? d ≠ some (.file text))
    (hhas : Has h.tree d c phase) :
    ∃ phase', Turn c d h phase phase' (h.advance p) (h.renaming? p) := by
  cases hf with
  | print rest => exact ⟨_, rest, ht, rfl, .rests rfl rfl⟩
  | start rest => exact ⟨_, rest, ht, rfl, .rests rfl rfl⟩
  | returned => exact ⟨_, .returned, ht, rfl, .rests rfl rfl⟩
  | failed destination => exact ⟨_, .failed destination, ht, rfl, .rests rfl rfl⟩
  | way ok error => exact turn_way ht hd ok error
  | fresh ok error => exact turn_fresh ht hd hhas ok
  | write name ok => exact ⟨_, turn_write ht hd name hhas.2.1 ok⟩
  | @look n next there missing =>
    have hadvance : h.advance (.call (.present (.ofPlace d)) next) =
        (next (h.tree.get? d).isSome, h) := by
      rw [Host.advance.eq_def]
      simp only [Host.answer, Tree.isOk_find ht hd]
    rw [hadvance]
    cases hget : h.tree.get? d with
    | none =>
      refine ⟨.arriving n, missing fun hroot => ?_, ht, rfl, .misses rfl rfl⟩
      rw [hroot] at hget
      cases hget
    | some e => exact ⟨.replacing n, there, ht, rfl, .finds rfl rfl (by rw [hget]; rfl)⟩
  | @check n next directory file error =>
    have hadvance : h.advance (.call (.isDirectory (.ofPlace d)) next) =
        (next ((h.tree.find h.directory (.ofPlace d)).map fun x => x.2 = .directory), h) := rfl
    rw [hadvance]
    cases hget : h.tree.get? d with
    | none =>
      obtain ⟨f, hf⟩ := Tree.find_of_none h.directory ht hd hget
      rw [hf]
      exact ⟨.cleaning n, error f, ht, rfl, .givesUp rfl rfl⟩
    | some e =>
      rw [Tree.find_of_get? ht hd hget]
      cases e with
      | file text => exact ⟨.cleaning n, file, ht, rfl, .givesUp rfl rfl⟩
      | directory => exact ⟨.replacing n, directory, ht, rfl, .rests rfl rfl⟩
  | @enter n next root ok error =>
    obtain ⟨hparent, hstaged, -⟩ := hhas
    obtain ⟨t, ⟨hadvance, hrenaming⟩, hwf, hfree, hmoved⟩ | ⟨⟨f, hadvance, hrenaming⟩, htaken⟩ :=
      advance_to_destination next ht hd (named_stagedPlace hd n) (Tree.get?_of_below_flat hstaged)
        hparent hfile (apart_staged_destination root n)
    · rw [hadvance, hrenaming]
      exact ⟨.returned, ok, hwf, rfl, .enter rfl root hfree hmoved⟩
    · rw [hadvance, hrenaming]
      exact ⟨.cleaning n, error f, ht, rfl, .turnsBack rfl rfl htaken⟩
  | retire ok error => exact turn_retire ht hd hfile hhas.1 hhas.2.2 ok error
  | @swap n next ok error =>
    obtain ⟨hroot, hparent, hstaged, -⟩ := hhas
    obtain ⟨t, ⟨hadvance, hrenaming⟩, hwf, hfree, hmoved⟩ | ⟨⟨f, hadvance, hrenaming⟩, htaken⟩ :=
      advance_to_destination next ht hd (named_stagedPlace hd n) (Tree.get?_of_below_flat hstaged)
        hparent hfile (apart_staged_destination hroot n)
    · rw [hadvance, hrenaming]
      exact ⟨.clearing n, ok, hwf, rfl, .swap rfl hroot hfree hmoved⟩
    · rw [hadvance, hrenaming]
      exact ⟨.restoring n, error f, ht, rfl, .blocked rfl rfl htaken⟩
  | @putBack n next ok error =>
    obtain ⟨hroot, hparent, hretired⟩ := hhas
    obtain ⟨t, ⟨hadvance, hrenaming⟩, hwf, hfree, hmoved⟩ | ⟨⟨f, hadvance, hrenaming⟩, htaken⟩ :=
      advance_to_destination next ht hd (named_retiredPlace hd n) hretired hparent hfile
        (apart_retired_destination hroot n)
    · rw [hadvance, hrenaming]
      exact ⟨.cleaning n, ok, hwf, rfl, .putBack rfl hroot hfree hmoved⟩
    · rw [hadvance, hrenaming]
      exact ⟨.dropping n, error f, ht, rfl, .stuck rfl rfl htaken⟩
  | @drop n next rest =>
    obtain ⟨hwf, hget⟩ := Tree.remove_spec h.directory ht (named_retiredPlace hd n)
      (retiredPlace_ne_nil d n)
    exact ⟨.cleaning n, rest, hwf, rfl, .drop rfl hget⟩
  | @clear n next rest =>
    obtain ⟨hwf, hget⟩ := Tree.remove_spec h.directory ht (named_retiredPlace hd n)
      (retiredPlace_ne_nil d n)
    exact ⟨.returned, rest, hwf, rfl, .clear rfl hget⟩
  | @clean n next rest =>
    obtain ⟨hwf, hget⟩ := Tree.remove_spec h.directory ht (named_stagedPlace hd n)
      (stagedPlace_ne_nil d n)
    exact ⟨.failed, rest, hwf, rfl, .clean rfl hget⟩

end turns

/-! ### What a turn leaves alone -/

section private_places

variable {d y z : Place} {k m : Nat}

theorem Private.apart (hz : Private d m z) (hy : Private d k y) (h : k ≠ m) : Apart y z := by
  rcases hz with rfl | rfl
  · rcases hy with rfl | rfl
    · exact apart_staged_staged d h
    · exact (apart_staged_retired d m k).symm
  · rcases hy with rfl | rfl
    · exact apart_staged_retired d k m
    · exact apart_retired_retired d h

theorem Private.apart_destination (hz : Private d m z) (hroot : d ≠ []) : Apart z d := by
  rcases hz with rfl | rfl
  · exact apart_staged_destination hroot m
  · exact apart_retired_destination hroot m

theorem Private.not_below_parent (hz : Private d m z) : ¬ z <+: d.dropLast := by
  rcases hz with rfl | rfl
  · exact not_below_dropLast (stagedPlace_ne_nil d m) (dropLast_stagedPlace d m)
  · exact not_below_dropLast (retiredPlace_ne_nil d m) (dropLast_retiredPlace d m)

end private_places

namespace Moves

variable {c : Writer} {d : Place} {h h' : Host} {phase phase' : Phase} {renamed : Option (Path × Path)}

theorem made_le (hm : Moves c d h h' phase phase' renamed) : h.made ≤ h'.made := by
  cases hm <;> omega

theorem number (hm : Moves c d h h' phase phase' renamed) {n : Nat} (hn : phase'.number? = some n) :
    phase.number? = some n ∨ h.made ≤ n ∧ n < h'.made := by
  cases hm with
  | rests => exact .inl hn
  | fresh least made =>
    cases hn
    exact .inr ⟨least, by omega⟩
  | _ => first | exact .inl hn | cases hn

theorem parent (hm : Moves c d h h' phase phase' renamed)
    (hdir : h.tree.get? d.dropLast = some .directory) : h'.tree.get? d.dropLast = some .directory := by
  have hs : ∀ n, ¬ stagedPlace d n <+: d.dropLast := fun n => Private.not_below_parent (.inl rfl)
  have hr : ∀ n, ¬ retiredPlace d n <+: d.dropLast := fun n => Private.not_below_parent (.inr rfl)
  cases hm with
  | rests tree | finds tree | misses tree | givesUp tree | turnsBack tree | blocked tree | stuck tree =>
    rwa [tree]
  | way made way parent => exact parent
  | noWay made way =>
    rcases way d.dropLast with hsame | ⟨hnone, -, -⟩
    · rw [hsame, hdir]
    · rw [hnone] at hdir
      cases hdir
  | fresh least made unused staged frame => rw [frame _ (hs _), hdir]
  | write made staged frame => rw [frame _ (hs _), hdir]
  | retire made root target moved =>
    rw [moved.get?_of_apart (not_below_dropLast root rfl) (hr _), hdir]
  | enter made root free moved | swap made root free moved =>
    rw [moved.get?_of_apart (hs _) (not_below_dropLast root rfl), hdir]
  | putBack made root free moved =>
    rw [moved.get?_of_apart (hr _) (not_below_dropLast root rfl), hdir]
  | drop made removed | clear made removed => rw [removed, if_neg (hr _), hdir]
  | clean made removed => rw [removed, if_neg (hs _), hdir]

theorem below_private (hm : Moves c d h h' phase phase' renamed) {m : Nat} {z : Place}
    (hz : Private d m z)
    (hother : ∀ k, phase.number? = some k ∨ phase'.number? = some k → k ≠ m) :
    h'.tree.below z = h.tree.below z := by
  -- The publication's own places and the destination are apart from the other's.
  have hs : ∀ n, n ≠ m → Apart (stagedPlace d n) z := fun n hn => hz.apart (.inl rfl) hn
  have hr : ∀ n, n ≠ m → Apart (retiredPlace d n) z := fun n hn => hz.apart (.inr rfl) hn
  have hframe : ∀ {p : Place}, Apart p z → (∀ x, ¬ p <+: x → h'.tree.get? x = h.tree.get? x) →
      h'.tree.below z = h.tree.below z := fun hp frame => funext fun x => frame _ (hp.not_below x)
  cases hm with
  | rests tree | finds tree | misses tree | givesUp tree | turnsBack tree | blocked tree | stuck tree =>
    rw [tree]
  | way made way | noWay made way => exact way.below_eq hz.not_below_parent
  | fresh least made unused staged frame => exact hframe (hs _ (hother _ (.inr rfl))) frame
  | write made staged frame => exact hframe (hs _ (hother _ (.inr rfl))) frame
  | retire made root target moved =>
    exact moved.below_other (hz.apart_destination root).symm (hr _ (hother _ (.inr rfl)))
  | enter made root free moved =>
    exact moved.below_other (hs _ (hother _ (.inl rfl))) (hz.apart_destination root).symm
  | swap made root free moved =>
    exact moved.below_other (hs _ (hother _ (.inl rfl))) (hz.apart_destination root).symm
  | putBack made root free moved =>
    exact moved.below_other (hr _ (hother _ (.inl rfl))) (hz.apart_destination root).symm
  | drop made removed => exact Tree.below_of_removed (hr _ (hother _ (.inl rfl))) removed
  | clear made removed => exact Tree.below_of_removed (hr _ (hother _ (.inl rfl))) removed
  | clean made removed => exact Tree.below_of_removed (hs _ (hother _ (.inl rfl))) removed

theorem has (hm : Moves c d h h' phase phase' renamed) (hhas : Has h.tree d c phase) :
    Has h'.tree d c phase' := by
  have hparent := hm.parent
  cases hm with
  | rests tree => rwa [tree]
  | stuck | noWay | enter | clear | clean => exact trivial
  | finds tree | misses tree => rwa [Has, tree]
  | givesUp tree | turnsBack tree =>
    rw [Has, tree]
    exact hhas.2.2
  | way made way parent => exact parent
  | blocked tree =>
    obtain ⟨hroot, hdir, -, hretired⟩ := hhas
    exact ⟨hroot, hparent hdir, by rwa [tree]⟩
  | @fresh n least made unused staged frame =>
    refine ⟨hparent hhas, staged, fun x => ?_⟩
    rw [Tree.below, frame _ ((apart_staged_retired d n n).not_below x)]
    exact unused _ (.inr rfl) x
  | @write n files a made staged frame =>
    obtain ⟨hdir, -, hfree⟩ := hhas
    refine ⟨hparent hdir, staged, fun x => ?_⟩
    rw [Tree.below, frame _ ((apart_staged_retired d n n).not_below x)]
    exact hfree x
  | @retire n made root target moved =>
    obtain ⟨hdir, hstaged, -⟩ := hhas
    refine ⟨root, hparent hdir, ?_, ?_⟩
    · rw [moved.below_other (apart_staged_destination root n).symm (apart_staged_retired d n n).symm]
      exact hstaged
    · rw [← Tree.below_nil, moved.below_target, Tree.below_nil]
      exact target
  | @swap n made root free moved => exact moved.below_source (apart_staged_destination root n)
  | @putBack n made root free moved => exact moved.below_source (apart_retired_destination root n)
  | @drop n made removed =>
    intro x
    rw [Tree.below, removed, if_pos (List.prefix_append _ x)]

end Moves

/-- A phase keeps what it relies on while others move. -/
theorem Has.of_below {c : Writer} {d : Place} {t t' : Tree} {phase : Phase} (hhas : Has t d c phase)
    (hparent : t.get? d.dropLast = some .directory → t'.get? d.dropLast = some .directory)
    (hbelow : ∀ n z, phase.number? = some n → Private d n z → t'.below z = t.below z) :
    Has t' d c phase := by
  cases phase with
  | entering => exact hparent hhas
  | staging n files =>
    obtain ⟨hdir, hstaged, hfree⟩ := hhas
    refine ⟨hparent hdir, (hbelow n _ rfl (.inl rfl)).trans hstaged, fun x => ?_⟩
    rw [hbelow n _ rfl (.inr rfl)]
    exact hfree x
  | swapping n =>
    obtain ⟨hroot, hdir, hstaged, hretired⟩ := hhas
    refine ⟨hroot, hparent hdir, (hbelow n _ rfl (.inl rfl)).trans hstaged, ?_⟩
    rw [← Tree.below_nil, hbelow n _ rfl (.inr rfl), Tree.below_nil]
    exact hretired
  | restoring n =>
    obtain ⟨hroot, hdir, hretired⟩ := hhas
    refine ⟨hroot, hparent hdir, ?_⟩
    rw [← Tree.below_nil, hbelow n _ rfl (.inr rfl), Tree.below_nil]
    exact hretired
  | arriving n | replacing n =>
    obtain ⟨hdir, hstaged, hfree⟩ := hhas
    refine ⟨hparent hdir, (hbelow n _ rfl (.inl rfl)).trans hstaged, fun x => ?_⟩
    rw [hbelow n _ rfl (.inr rfl)]
    exact hfree x
  | clearing n =>
    intro x
    rw [hbelow n _ rfl (.inl rfl)]
    exact hhas x
  | cleaning n =>
    intro x
    rw [hbelow n _ rfl (.inr rfl)]
    exact hhas x
  | _ => exact trivial

end MemoryCompiler.Rtl
