import MemoryCompiler.Proofs.Rtl.Writers

/-!
# What the ledger records

The destination of concurrent writers always holds the generation that the ledger names, as one whole,
and so does each directory that was set aside. A turn is one of four changes (`Moves.change`): nothing at
the destination, setting aside, publishing or putting back. What each of them keeps holds of a story at
every moment (`story_induction`).
-/

namespace MemoryCompiler.Rtl

open Files Publication

namespace Phase

/-- The set of the publication has been put in place. -/
def isSettled : Phase → Bool
  | clearing _ | returned => true
  | waiting | entering | staging _ _ | arriving _ | replacing _ | swapping _ | restoring _ | dropping _
  | cleaning _ | failed => false

/-- The number under which the publication has set the destination aside. -/
def aside? : Phase → Option Nat
  | swapping n | restoring n => some n
  | waiting | entering | staging _ _ | arriving _ | replacing _ | dropping _ | clearing _ | cleaning _
  | returned | failed => none

theorem number?_of_aside? {phase : Phase} {n : Nat} (h : phase.aside? = some n) :
    phase.number? = some n := by
  cases phase <;> first | exact h | cases h

end Phase

/-- What the destination holds of a generation. -/
def contentOf (t₀ : Tree) (d : Place) (writers : List Writer) : Option Generation → Place → Option Entry
  | none => fun _ => none
  | some .initial => t₀.below d
  | some (.set i) => ((writers[i]?.map fun c => flat c.files).getD fun _ => none)

theorem contentOf_set {t₀ : Tree} {d : Place} {writers : List Writer} {i : Nat} {c : Writer}
    (hc : writers[i]? = some c) : contentOf t₀ d writers (some (.set i)) = flat c.files := by
  rw [contentOf, hc]
  rfl

/-! ### What a turn changes -/

/-- What the turn of the i-th writer changes at the destination, in its phase and in the ledger. -/
inductive Change (content : Option Generation → Place → Option Entry) (c : Writer) (d : Place)
    (t t' : Tree) (l : Ledger) (i : Nat) (phase phase' : Phase) : Ledger → Prop
  | quiet (destination : d ≠ [] → t'.below d = t.below d)
      (settled : phase'.isSettled = phase.isSettled)
      (aside : ∀ n, phase'.aside? = some n →
        phase.aside? = some n ∧ t'.below (retiredPlace d n) = t.below (retiredPlace d n))
      (leaves : ∀ n, phase.aside? = some n → phase'.aside? = some n ∨ d ≠ [] ∧ (t.get? d).isSome) :
      Change content c d t t' l i phase phase' l
  | setAside {n : Nat} (before : phase.isSettled = false) (after : phase'.isSettled = false)
      (aside : phase'.aside? = some n) (root : d ≠ []) (target : t.get? d = some .directory)
      (empty : ∀ x, t'.below d x = none) (retired : t'.below (retiredPlace d n) = t.below d) :
      Change content c d t t' l i phase phase' (l.setAside i (.ofPlace (retiredPlace d n)))
  | publish (before : phase.isSettled = false) (after : phase'.isSettled = true)
      (ends : phase'.aside? = none) (files : t'.below d = flat c.files) :
      Change content c d t t' l i phase phase' (l.publish i)
  | putBack {n : Nat} {path : Path} {held : Held} (before : phase.isSettled = false)
      (after : phase'.isSettled = false) (starts : phase.aside? = some n) (ends : phase'.aside? = none)
      (root : d ≠ []) (aside : l.aside i = some (path, held)) (free : ∀ x, x ≠ [] → t.below d x = none)
      (files : t'.below d = content (some held.generation)) :
      Change content c d t t' l i phase phase' (l.putBack i held)

section changes

variable {content : Option Generation → Place → Option Entry} {c : Writer} {d : Place} {h h' : Host}
  {l : Ledger} {i n : Nat} {phase phase' : Phase} {renamed : Option (Path × Path)}

theorem ofPlace_injective {p q : Place} (h : Path.ofPlace p = Path.ofPlace q) : p = q :=
  congrArg Path.parts h

theorem record_setAside (hroot : d ≠ []) :
    l.record (.ofPlace d) i (.ofPlace d) (.ofPlace (retiredPlace d n)) =
      l.setAside i (.ofPlace (retiredPlace d n)) := by
  have hne : Path.ofPlace (retiredPlace d n) ≠ Path.ofPlace d := fun he =>
    (apart_retired_destination hroot n).1 (by rw [ofPlace_injective he])
  rw [Ledger.record, if_neg hne, if_pos rfl]

theorem record_publish (hpath : ∀ x, l.aside i = some x → ∃ m, x.1 = .ofPlace (retiredPlace d m)) :
    l.record (.ofPlace d) i (.ofPlace (stagedPlace d n)) (.ofPlace d) = l.publish i := by
  rw [Ledger.record, if_pos rfl]
  cases haside : l.aside i with
  | none => rfl
  | some x =>
    obtain ⟨m, hm⟩ := hpath x haside
    have hne : Path.ofPlace (stagedPlace d n) ≠ x.1 := fun he => by
      rw [hm] at he
      exact (apart_staged_retired d n m).1 (by rw [ofPlace_injective he])
    exact if_neg hne

theorem record_putBack {held : Held}
    (haside : l.aside i = some (.ofPlace (retiredPlace d n), held)) :
    l.record (.ofPlace d) i (.ofPlace (retiredPlace d n)) (.ofPlace d) = l.putBack i held := by
  rw [Ledger.record, if_pos rfl, haside]
  exact if_pos rfl

theorem Moves.change (hm : Moves c d h h' phase phase' renamed) (hhas : Has h.tree d c phase)
    (hpath : ∀ x, l.aside i = some x → ∃ m, x.1 = .ofPlace (retiredPlace d m))
    (haside : ∀ n, phase.aside? = some n → ∃ held,
      l.aside i = some (.ofPlace (retiredPlace d n), held) ∧
      h.tree.below (retiredPlace d n) = content (some held.generation)) :
    Change content c d h.tree h'.tree l i phase phase' (Story.entered d l i renamed) := by
  have hnone : ∀ {phase : Phase} {P : Nat → Prop}, phase.aside? = none →
      ∀ n, phase.aside? = some n → P n := by
    intro phase P h n hn
    rw [h] at hn
    cases hn
  cases hm with
  | rests tree =>
    exact .quiet (fun _ => by rw [tree]) rfl (fun n hn => ⟨hn, by rw [tree]⟩) fun n hn => .inl hn
  | finds tree | misses tree | givesUp tree | turnsBack tree =>
    exact .quiet (fun _ => by rw [tree]) rfl (hnone rfl) (hnone rfl)
  | blocked tree =>
    exact .quiet (fun _ => by rw [tree]) rfl (fun n hn => ⟨hn, by rw [tree]⟩) fun n hn => .inl hn
  | stuck tree made taken =>
    exact .quiet (fun _ => by rw [tree]) rfl (hnone rfl) fun n _ => .inr ⟨hhas.1, taken⟩
  | way made way | noWay made way =>
    exact .quiet (fun hroot => way.below_eq (not_below_dropLast hroot rfl)) rfl (hnone rfl) (hnone rfl)
  | @fresh n least made unused staged frame =>
    exact .quiet (fun hroot => funext fun x => frame _ ((apart_staged_destination hroot n).not_below x))
      rfl (hnone rfl) (hnone rfl)
  | @write n files a made staged frame =>
    exact .quiet (fun hroot => funext fun x => frame _ ((apart_staged_destination hroot n).not_below x))
      rfl (hnone rfl) (hnone rfl)
  | @retire n made root target moved =>
    rw [Story.entered, record_setAside root]
    exact .setAside rfl rfl rfl root target
      (fun x => moved.below_source (apart_retired_destination root n).symm x) moved.below_target
  | enter made root free moved =>
    rw [Story.entered, record_publish hpath]
    exact .publish rfl rfl rfl (moved.below_target.trans hhas.2.1)
  | swap made root free moved =>
    rw [Story.entered, record_publish hpath]
    exact .publish rfl rfl rfl (moved.below_target.trans hhas.2.2.1)
  | @putBack n made root free moved =>
    obtain ⟨held, hheld, hcontent⟩ := haside n rfl
    rw [Story.entered, record_putBack hheld]
    exact .putBack rfl rfl rfl rfl root hheld free (moved.below_target.trans hcontent)
  | @drop n made removed =>
    exact .quiet (fun hroot => Tree.below_of_removed (apart_retired_destination hroot n) removed)
      rfl (hnone rfl) (hnone rfl)
  | @clear n made removed =>
    exact .quiet (fun hroot => Tree.below_of_removed (apart_retired_destination hroot n) removed)
      rfl (hnone rfl) (hnone rfl)
  | @clean n made removed =>
    exact .quiet (fun hroot => Tree.below_of_removed (apart_staged_destination hroot n) removed)
      rfl (hnone rfl) (hnone rfl)

end changes

/-! ### What the ledger records -/

/-- The ledger tells what the destination and the directories that were set aside hold, and which
writers have put their sets in place. Nothing is at the destination only at first or while a writer
will put something there. -/
structure Recorded (t₀ : Tree) (d : Place) (writers : List Writer) (t : Tree) (l : Ledger)
    (phase : Nat → Phase) : Prop where
  destination : d ≠ [] → t.below d = contentOf t₀ d writers (l.current.map Held.generation)
  aside : ∀ i n, (phase i).aside? = some n → ∃ held,
    l.aside i = some (.ofPlace (retiredPlace d n), held) ∧
    t.below (retiredPlace d n) = contentOf t₀ d writers (some held.generation)
  path : ∀ i x, l.aside i = some x → ∃ n, x.1 = .ofPlace (retiredPlace d n)
  published : ∀ i, i ∈ l.published ↔ (phase i).isSettled = true
  present : l.current = none →
    l.published = [] ∧ t₀.get? d = none ∨ ∃ i n, (phase i).aside? = some n
  sound : l.Sound

section recorded

variable {t₀ t t' : Tree} {d : Place} {writers : List Writer} {l l' : Ledger} {phase : Nat → Phase}
  {phase' : Phase} {c : Writer} {i : Nat}

theorem Recorded.start (ht : t₀.WellFormed) (d : Place) (writers : List Writer) :
    Recorded t₀ d writers t₀ ⟨(t₀.get? d).map fun _ => ⟨.initial, []⟩, fun _ => none, []⟩
      fun _ => .waiting where
  destination := fun _ => by
    cases hget : t₀.get? d with
    | some e => rfl
    | none =>
      funext x
      by_contra hsome
      have htaken := ht.isSome_of_below (Option.isSome_iff_ne_none.2 hsome)
      rw [hget] at htaken
      cases htaken
  aside := fun i n hn => by cases hn
  path := fun i x hx => by cases hx
  published := fun i => ⟨fun hi => absurd hi List.not_mem_nil, fun hi => absurd hi (by decide)⟩
  present := fun hnone => .inl ⟨rfl, Option.map_eq_none_iff.1 hnone⟩
  sound :=
    { nodup := List.nodup_nil
      current := fun held hheld => by
        obtain ⟨e, -, rfl⟩ := Option.map_eq_some_iff.1 hheld
        refine ⟨fun i hi => ?_, fun j => Iff.rfl⟩
        cases hi
      aside := fun i path held hheld => by cases hheld }

theorem Recorded.no_file (hr : Recorded t₀ d writers t l phase)
    (hfile : ∀ text, t₀.get? d ≠ some (.file text)) (text : String) : t.get? d ≠ some (.file text) := by
  by_cases hroot : d = []
  · subst hroot
    exact fun he => by cases he
  · rw [← Tree.below_nil, hr.destination hroot]
    cases l.current.map Held.generation with
    | none => exact fun he => by cases he
    | some g =>
      cases g with
      | initial =>
        rw [contentOf, Tree.below_nil]
        exact hfile text
      | set i =>
        rw [contentOf]
        cases writers[i]? with
        | none => exact fun he => by cases he
        | some c => exact fun he => by cases he

theorem isSettled_update {b : Bool} (hb : phase'.isSettled = b) (j : Nat) :
    (Function.update phase i phase' j).isSettled = if j = i then b else (phase j).isSettled := by
  by_cases hj : j = i
  · rw [hj, Function.update_self, if_pos rfl, hb]
  · rw [Function.update_of_ne hj, if_neg hj]

theorem ne_of_aside?_update (hends : phase'.aside? = none) {j n : Nat}
    (hn : (Function.update phase i phase' j).aside? = some n) : j ≠ i := by
  rintro rfl
  rw [Function.update_self, hends] at hn
  cases hn

/-- Which writers are done stays when the one whose turn it is neither was nor is. -/
theorem Recorded.published_of_pending (hr : Recorded t₀ d writers t l phase)
    (before : (phase i).isSettled = false) (after : phase'.isSettled = false) (j : Nat) :
    j ∈ l.published ↔ (Function.update phase i phase' j).isSettled = true := by
  rw [isSettled_update after j, hr.published j]
  by_cases hj : j = i
  · rw [hj, before, if_pos rfl]
  · rw [if_neg hj]

section turn

variable (hr : Recorded t₀ d writers t l phase)
  (hothers : ∀ j n, j ≠ i → (phase j).aside? = some n →
    t'.below (retiredPlace d n) = t.below (retiredPlace d n))
include hr hothers

theorem Recorded.aside_of_others (j n : Nat) (hj : j ≠ i) (hn : (phase j).aside? = some n) :
    ∃ held, l.aside j = some (.ofPlace (retiredPlace d n), held) ∧
      t'.below (retiredPlace d n) = contentOf t₀ d writers (some held.generation) := by
  obtain ⟨held, hheld, hcontent⟩ := hr.aside j n hn
  exact ⟨held, hheld, (hothers j n hj hn).trans hcontent⟩

theorem Recorded.quiet (destination : d ≠ [] → t'.below d = t.below d)
    (settled : phase'.isSettled = (phase i).isSettled)
    (aside : ∀ n, phase'.aside? = some n →
      (phase i).aside? = some n ∧ t'.below (retiredPlace d n) = t.below (retiredPlace d n))
    (leaves : ∀ n, (phase i).aside? = some n →
      phase'.aside? = some n ∨ d ≠ [] ∧ (t.get? d).isSome) :
    Recorded t₀ d writers t' l (Function.update phase i phase') := by
  refine ⟨fun hroot => (destination hroot).trans (hr.destination hroot), fun j n hn => ?_, hr.path,
    fun j => ?_, fun hnone => ?_, hr.sound⟩
  · by_cases hj : j = i
    · subst hj
      rw [Function.update_self] at hn
      obtain ⟨hold, hsame⟩ := aside n hn
      obtain ⟨held, hheld, hcontent⟩ := hr.aside j n hold
      exact ⟨held, hheld, hsame.trans hcontent⟩
    · rw [Function.update_of_ne hj] at hn
      exact hr.aside_of_others hothers j n hj hn
  · rw [hr.published j, isSettled_update settled j]
    by_cases hj : j = i
    · rw [if_pos hj, hj]
    · rw [if_neg hj]
  · rcases hr.present hnone with hfirst | ⟨j, n, hn⟩
    · exact .inl hfirst
    · by_cases hj : j = i
      · subst hj
        rcases leaves n hn with hstay | ⟨hroot, htaken⟩
        · exact .inr ⟨j, n, by rwa [Function.update_self]⟩
        · rw [← Tree.below_nil, hr.destination hroot, hnone] at htaken
          cases htaken
      · exact .inr ⟨j, n, by rwa [Function.update_of_ne hj]⟩

theorem Recorded.setAside {n : Nat} (before : (phase i).isSettled = false)
    (after : phase'.isSettled = false) (aside : phase'.aside? = some n) (root : d ≠ [])
    (target : t.get? d = some .directory) (empty : ∀ x, t'.below d x = none)
    (retired : t'.below (retiredPlace d n) = t.below d) :
    Recorded t₀ d writers t' (l.setAside i (.ofPlace (retiredPlace d n)))
      (Function.update phase i phase') := by
  refine ⟨fun _ => funext empty, fun j m hm => ?_, fun j x hx => ?_,
    hr.published_of_pending before after, fun _ => .inr ⟨i, n, by rwa [Function.update_self]⟩,
    hr.sound.setAside i _⟩
  · show ∃ held, Function.update l.aside i _ j = _ ∧ _
    by_cases hj : j = i
    · subst hj
      rw [Function.update_self, aside, Option.some.injEq] at hm
      subst hm
      have hcontent := retired.trans (hr.destination root)
      cases hcurrent : l.current with
      | none =>
        rw [← Tree.below_nil, hr.destination root, hcurrent] at target
        cases target
      | some held =>
        rw [hcurrent] at hcontent
        exact ⟨held, by rw [Function.update_self]; rfl, hcontent⟩
    · rw [Function.update_of_ne hj] at hm ⊢
      exact hr.aside_of_others hothers j m hj hm
  · have hx : Function.update l.aside i _ j = some x := hx
    by_cases hj : j = i
    · rw [hj, Function.update_self, Option.map_eq_some_iff] at hx
      obtain ⟨held, -, rfl⟩ := hx
      exact ⟨n, rfl⟩
    · rw [Function.update_of_ne hj] at hx
      exact hr.path j x hx

theorem Recorded.publish (hc : writers[i]? = some c) (before : (phase i).isSettled = false)
    (after : phase'.isSettled = true) (ends : phase'.aside? = none) (files : t'.below d = flat c.files) :
    Recorded t₀ d writers t' (l.publish i) (Function.update phase i phase') := by
  have hfresh : i ∉ l.published := fun hi => by
    rw [(hr.published i).1 hi] at before
    cases before
  refine ⟨fun _ => files.trans (contentOf_set hc).symm, fun j n hn => ?_, fun j x hx => ?_,
    fun j => ?_, fun hnone => absurd hnone (Option.some_ne_none _), hr.sound.publish hfresh⟩
  · have hj := ne_of_aside?_update ends hn
    rw [Function.update_of_ne hj] at hn
    obtain ⟨held, hheld, hcontent⟩ := hr.aside_of_others hothers j n hj hn
    refine ⟨{ held with missed := held.missed ++ [i] }, ?_, hcontent⟩
    show (l.aside j).map _ = _
    rw [hheld]
    rfl
  · obtain ⟨y, hy, rfl⟩ := Option.map_eq_some_iff.1 hx
    exact hr.path j y hy
  · rw [isSettled_update after j]
    show j ∈ l.published ++ [i] ↔ _
    rw [List.mem_append, List.mem_singleton, hr.published j]
    by_cases hj : j = i
    · rw [if_pos hj]
      exact ⟨fun _ => rfl, fun _ => .inr hj⟩
    · rw [if_neg hj, or_iff_left hj]

theorem Recorded.putBack {path : Path} {held : Held} (before : (phase i).isSettled = false)
    (after : phase'.isSettled = false) (ends : phase'.aside? = none)
    (aside : l.aside i = some (path, held))
    (files : t'.below d = contentOf t₀ d writers (some held.generation)) :
    Recorded t₀ d writers t' (l.putBack i held) (Function.update phase i phase') := by
  refine ⟨fun _ => files, fun j n hn => ?_, fun j x hx => ?_, hr.published_of_pending before after,
    fun hnone => absurd hnone (Option.some_ne_none _), hr.sound.putBack aside⟩
  · have hj := ne_of_aside?_update ends hn
    rw [Function.update_of_ne hj] at hn
    show ∃ held', Function.update l.aside i _ j = _ ∧ _
    rw [Function.update_of_ne hj]
    exact hr.aside_of_others hothers j n hj hn
  · have hx : Function.update l.aside i _ j = some x := hx
    by_cases hj : j = i
    · rw [hj, Function.update_self] at hx
      cases hx
    · rw [Function.update_of_ne hj] at hx
      exact hr.path j x hx

/-- The turn of a writer keeps to the ledger. -/
theorem Recorded.change (hc : writers[i]? = some c)
    (hchange : Change (contentOf t₀ d writers) c d t t' l i (phase i) phase' l') :
    Recorded t₀ d writers t' l' (Function.update phase i phase') := by
  cases hchange with
  | quiet destination settled aside leaves => exact hr.quiet hothers destination settled aside leaves
  | setAside before after aside root target empty retired =>
    exact hr.setAside hothers before after aside root target empty retired
  | publish before after ends files => exact hr.publish hothers hc before after ends files
  | putBack before after starts ends root aside free files =>
    exact hr.putBack hothers before after ends aside files

end turn

end recorded

/-! ### Every order of turns -/

section stories

variable {h : Host} {d : Place} {writers : List Writer}

theorem exists_change {cwd : Place} {t₀ : Tree} {s : Story} {phase : Nat → Phase} {i : Nat}
    {p : Program Outcome} (hd : Named d) (hfile : ∀ text, t₀.get? d ≠ some (.file text))
    (hs : Steady cwd d writers s.world phase)
    (hr : Recorded t₀ d writers s.world.host.tree s.ledger phase) (hp : s.world.calls[i]? = some p) :
    ∃ c phase', writers[i]? = some c ∧ Has s.world.host.tree d c (phase i) ∧
      Moves c d s.world.host (s.step d i).world.host (phase i) phase' (s.world.host.renaming? p) ∧
      Steady cwd d writers (s.step d i).world (Function.update phase i phase') ∧
      Change (contentOf t₀ d writers) c d s.world.host.tree (s.step d i).world.host.tree s.ledger i
        (phase i) phase' (s.step d i).ledger ∧
      ∀ j n, j ≠ i → (phase j).aside? = some n →
        (s.step d i).world.host.tree.below (retiredPlace d n) =
          s.world.host.tree.below (retiredPlace d n) := by
  obtain ⟨c, phase', hc, hmoves, hs'⟩ := hs.step hd (hr.no_file hfile) hp
  obtain ⟨c', hc', -, hhas⟩ := hs.follows i p hp
  rw [hc, Option.some.injEq] at hc'
  subst hc'
  have hledger : (s.step d i).ledger = Story.entered d s.ledger i (s.world.host.renaming? p) := by
    rw [Story.step_of_some hp]
  refine ⟨c, phase', hc, hhas, hmoves, hs', ?_, fun j n hj hn => ?_⟩
  · rw [hledger]
    exact hmoves.change hhas (hr.path i) (hr.aside i)
  · exact hmoves.below_private (.inr rfl)
      (hs.number_ne_of_moves hmoves hj (Phase.number?_of_aside? hn))

theorem turn_induction {P : Story → (Nat → Phase) → Prop} (ht : h.tree.WellFormed) (hd : Named d)
    (hfile : ∀ text, h.tree.get? d ≠ some (.file text))
    (hwriters : ∀ c ∈ writers, (∀ a ∈ c.artifacts, IsName a.name) ∧ placeOf h c.destination = d)
    (hstart : P (Story.start h d writers) fun _ => .waiting)
    (hstep : ∀ (s : Story) (phase : Nat → Phase) (i : Nat) (c : Writer) (phase' : Phase),
      Steady h.directory d writers s.world phase →
      Recorded h.tree d writers s.world.host.tree s.ledger phase → P s phase →
      writers[i]? = some c → Has s.world.host.tree d c (phase i) →
      (∃ renamed, Moves c d s.world.host (s.step d i).world.host (phase i) phase' renamed) →
      Change (contentOf h.tree d writers) c d s.world.host.tree (s.step d i).world.host.tree s.ledger i
        (phase i) phase' (s.step d i).ledger →
      P (s.step d i) (Function.update phase i phase'))
    (schedule : List Nat) :
    ∃ phase, Steady h.directory d writers ((Story.start h d writers).run d schedule).world phase ∧
      Recorded h.tree d writers ((Story.start h d writers).run d schedule).world.host.tree
        ((Story.start h d writers).run d schedule).ledger phase ∧
      P ((Story.start h d writers).run d schedule) phase := by
  induction schedule using List.reverseRecOn with
  | nil => exact ⟨fun _ => .waiting, .start ht hwriters, .start ht d writers, hstart⟩
  | append_singleton schedule i ih =>
    have hrun : (Story.start h d writers).run d (schedule ++ [i]) =
        ((Story.start h d writers).run d schedule).step d i := by
      rw [Story.run, List.foldl_append]
      rfl
    rw [hrun]
    generalize (Story.start h d writers).run d schedule = s at ih ⊢
    obtain ⟨phase, hs, hr, hp⟩ := ih
    cases hcall : s.world.calls[i]? with
    | none =>
      rw [Story.step_of_none hcall]
      exact ⟨phase, hs, hr, hp⟩
    | some p =>
      obtain ⟨c, phase', hc, hhas, hmoves, hs', hchange, hothers⟩ := exists_change hd hfile hs hr hcall
      exact ⟨Function.update phase i phase', hs', hr.change hothers hc hchange,
        hstep s phase i c phase' hs hr hp hc hhas ⟨_, hmoves⟩ hchange⟩

/-- What holds at first and is kept by the change that a turn is holds of a story at every moment. -/
theorem story_induction {P : Story → (Nat → Phase) → Prop} (ht : h.tree.WellFormed) (hd : Named d)
    (hfile : ∀ text, h.tree.get? d ≠ some (.file text))
    (hwriters : ∀ c ∈ writers, (∀ a ∈ c.artifacts, IsName a.name) ∧ placeOf h c.destination = d)
    (hstart : P (Story.start h d writers) fun _ => .waiting)
    (hstep : ∀ (s : Story) (phase : Nat → Phase) (i : Nat) (c : Writer) (phase' : Phase),
      Steady h.directory d writers s.world phase →
      Recorded h.tree d writers s.world.host.tree s.ledger phase → P s phase →
      writers[i]? = some c →
      Change (contentOf h.tree d writers) c d s.world.host.tree (s.step d i).world.host.tree s.ledger i
        (phase i) phase' (s.step d i).ledger →
      P (s.step d i) (Function.update phase i phase'))
    (schedule : List Nat) :
    ∃ phase, Steady h.directory d writers ((Story.start h d writers).run d schedule).world phase ∧
      Recorded h.tree d writers ((Story.start h d writers).run d schedule).world.host.tree
        ((Story.start h d writers).run d schedule).ledger phase ∧
      P ((Story.start h d writers).run d schedule) phase :=
  turn_induction ht hd hfile hwriters hstart
    (fun s phase i c phase' hs hr hp hc _ _ hchange => hstep s phase i c phase' hs hr hp hc hchange)
    schedule

end stories

end MemoryCompiler.Rtl
