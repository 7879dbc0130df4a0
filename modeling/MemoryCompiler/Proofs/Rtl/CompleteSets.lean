import MemoryCompiler.Proofs.Rtl.LostUpdates
import MemoryCompiler.Proofs.Rtl.Surroundings

/-!
# Complete sets

Writers to one destination never mix their sets: in every order of turns the destination is missing or
holds one set as a whole, and when all writers have come to their end it is there and nothing else has
changed (`sets_never_mix`). A file on the way keeps all writers from publishing, and the root holds the
directories of the writers at work (`blocked_or_root_destination`).
-/

namespace MemoryCompiler.Rtl

open Files Publication

/-! ### The destination appears -/

/-- The publication has neither seen nor put anything at the destination. -/
def Phase.isPending : Phase → Bool
  | waiting | entering | staging _ _ | arriving _ => true
  | replacing _ | swapping _ | restoring _ | dropping _ | clearing _ | cleaning _ | returned | failed =>
    false

/-- Where nothing was at first, only sets of writers are put in place, and as long as none has been no
writer has seen anything. -/
structure Appears (t₀ : Tree) (d : Place) (l : Ledger) (phase : Nat → Phase) : Prop where
  current : ∀ held, l.current = some held → held.generation = .initial → (t₀.get? d).isSome
  aside : ∀ i path held, l.aside i = some (path, held) → held.generation = .initial → (t₀.get? d).isSome
  pending : t₀.get? d = none → l.published = [] → ∀ i, (phase i).isPending = true

section appears

variable {content : Option Generation → Place → Option Entry} {t₀ t t' : Tree} {d : Place}
  {writers : List Writer} {l l' : Ledger} {phase : Nat → Phase} {phase' : Phase} {c : Writer} {i : Nat}

theorem Appears.start (t₀ : Tree) (d : Place) :
    Appears t₀ d ⟨(t₀.get? d).map fun _ => ⟨.initial, []⟩, fun _ => none, []⟩ fun _ => .waiting where
  current := fun held hheld _ => by
    obtain ⟨e, he, -⟩ := Option.map_eq_some_iff.1 hheld
    rw [he]
    rfl
  aside := fun i path held hheld => by cases hheld
  pending := fun _ _ _ => rfl

theorem Appears.absent (hA : Appears t₀ d l phase) (hr : Recorded t₀ d writers t l phase)
    (hfirst : t₀.get? d = none) (hnone : l.published = []) : t.get? d = none := by
  have hroot : d ≠ [] := by
    rintro rfl
    cases hfirst
  rw [← Tree.below_nil, hr.destination hroot]
  cases hcurrent : l.current with
  | none => rfl
  | some held =>
    cases hgeneration : held.generation with
    | initial =>
      have hthere := hA.current held hcurrent hgeneration
      rw [hfirst] at hthere
      cases hthere
    | set j =>
      have hj := (hr.sound.current held hcurrent).published j hgeneration
      rw [hnone] at hj
      cases hj

theorem Change.unpublished {ph : Phase} (hchange : Change content c d t t' l i ph phase' l')
    (hnone : l'.published = []) : l.published = [] ∧ phase'.isSettled = ph.isSettled := by
  cases hchange with
  | quiet destination settled => exact ⟨hnone, settled⟩
  | setAside before after | putBack before after => exact ⟨hnone, by rw [before, after]⟩
  | publish => exact absurd hnone (List.concat_ne_nil _ _)

/-- A publication that finds nothing at the destination goes on until it has put its set there. -/
theorem Moves.pending {h h' : Host} {ph : Phase} {renamed : Option (Path × Path)}
    (hm : Moves c d h h' ph phase' renamed) (hpending : ph.isPending = true)
    (habsent : h.tree.get? d = none)
    (hway : ∀ q, q <+: d.dropLast → ∀ text, h.tree.get? q ≠ some (.file text))
    (hsettled : phase'.isSettled = ph.isSettled) : phase'.isPending = true := by
  cases hm with
  | rests => exact hpending
  | misses | way | fresh | write => rfl
  | finds tree made there =>
    rw [habsent] at there
    cases there
  | turnsBack tree made taken =>
    rw [habsent] at taken
    cases taken
  | noWay made way file =>
    obtain ⟨q, text, hq, hfile⟩ := file
    exact absurd hfile (hway q hq text)
  | enter => cases hsettled
  | _ => cases hpending

theorem Appears.change {s : Host} {h' : Host} {renamed : Option (Path × Path)}
    (hA : Appears t₀ d l phase) (hr : Recorded t₀ d writers s.tree l phase)
    (hway : ∀ q, q <+: d.dropLast → ∀ text, s.tree.get? q ≠ some (.file text))
    (hm : Moves c d s h' (phase i) phase' renamed)
    (hchange : Change content c d s.tree h'.tree l i (phase i) phase' l') :
    Appears t₀ d l' (Function.update phase i phase') := by
  have hpending : t₀.get? d = none → l'.published = [] →
      ∀ j, (Function.update phase i phase' j).isPending = true := by
    intro hfirst hnone j
    obtain ⟨hbefore, hsettled⟩ := hchange.unpublished hnone
    have hall := hA.pending hfirst hbefore
    by_cases hj : j = i
    · rw [hj, Function.update_self]
      exact hm.pending (hall i) (hA.absent hr hfirst hbefore) hway hsettled
    · rw [Function.update_of_ne hj]
      exact hall j
  cases hchange with
  | quiet => exact ⟨hA.current, hA.aside, hpending⟩
  | setAside =>
    refine ⟨fun held hheld => (Option.some_ne_none held hheld.symm).elim,
      fun j path held hheld hinitial => ?_, hpending⟩
    have hheld : Function.update l.aside i _ j = some (path, held) := hheld
    by_cases hj : j = i
    · rw [hj, Function.update_self, Option.map_eq_some_iff] at hheld
      obtain ⟨held', hcurrent, heq⟩ := hheld
      cases heq
      exact hA.current held hcurrent hinitial
    · rw [Function.update_of_ne hj] at hheld
      exact hA.aside j path held hheld hinitial
  | publish =>
    refine ⟨fun held hheld hinitial => ?_, fun j path held hheld hinitial => ?_, hpending⟩
    · cases hheld
      cases hinitial
    · obtain ⟨⟨path', held'⟩, hold, heq⟩ := Option.map_eq_some_iff.1 hheld
      cases heq
      exact hA.aside j path' held' hold hinitial
  | putBack before after starts ends root aside =>
    refine ⟨fun held hheld hinitial => ?_, fun j path held hheld hinitial => ?_, hpending⟩
    · cases hheld
      exact hA.aside i _ _ aside hinitial
    · have hheld : Function.update l.aside i _ j = some (path, held) := hheld
      by_cases hj : j = i
      · rw [hj, Function.update_self] at hheld
        cases hheld
      · rw [Function.update_of_ne hj] at hheld
        exact hA.aside j path held hheld hinitial

end appears

/-! ### Every order of turns -/

/-- What writers come to in the turns of a schedule. -/
def concurrently (h : Host) (writers : List Writer) (schedule : List Nat) : World Outcome :=
  (World.mk h (writers.map Writer.program)).run schedule

/-- The destination is missing, or holds what it held at first or the set of one writer, and nothing
besides. -/
def HoldsOneSet (t₀ t : Tree) (d : Place) (writers : List Writer) : Prop :=
  (∀ x, t.below d x = none) ∨ t.below d = t₀.below d ∨ ∃ c ∈ writers, t.below d = flat c.files

/-- A call returns the names of its artifacts or fails with an error that names the destination. -/
def AnswersFor (d : Place) (c : Writer) (x : Outcome) : Prop :=
  x = .ok (c.artifacts.map Artifact.name) ∨ ∃ e, x = .error e ∧ e.destination = .ofPlace d

section stories

variable {h : Host} {d : Place} {writers : List Writer} {s : Story} {cwd : Place} {t₀ : Tree}
  {phase : Nat → Phase}

theorem Recorded.holdsOneSet {t : Tree} {l : Ledger} (hr : Recorded t₀ d writers t l phase)
    (hroot : d ≠ []) : HoldsOneSet t₀ t d writers := by
  rw [HoldsOneSet, hr.destination hroot]
  cases l.current with
  | none => exact .inl fun _ => rfl
  | some held =>
    cases hgeneration : held.generation with
    | initial =>
      refine .inr (.inl ?_)
      rw [Option.map_some, hgeneration]
      rfl
    | set i =>
      rw [Option.map_some, hgeneration]
      cases hc : writers[i]? with
      | none =>
        refine .inl fun x => ?_
        rw [contentOf, hc]
        rfl
      | some c => exact .inr (.inr ⟨c, List.mem_of_getElem? hc, contentOf_set hc⟩)

theorem Steady.answersFor (hs : Steady cwd d writers s.world phase) {i : Nat} {p : Program Outcome}
    (hp : s.world.calls[i]? = some p) {x : Outcome} (hx : p.result? = some x) :
    ∃ c, writers[i]? = some c ∧ AnswersFor d c x := by
  obtain ⟨c, hc, hfollows, -⟩ := hs.follows i p hp
  rcases hfollows.result hx with ⟨-, hok⟩ | ⟨-, herror⟩
  · exact ⟨c, hc, .inl hok⟩
  · exact ⟨c, hc, .inr herror⟩

theorem Steady.phase_of_finished (hs : Steady cwd d writers s.world phase) (hfinished : s.world.Finished)
    (i : Nat) : (phase i).number? = none ∧ (i < s.world.calls.length → (phase i).isPending = false) := by
  cases hp : s.world.calls[i]? with
  | none =>
    rw [hs.idle i hp]
    exact ⟨rfl, fun hi => absurd (List.getElem?_eq_none_iff.1 hp) (by omega)⟩
  | some p =>
    obtain ⟨x, hx⟩ := Option.isSome_iff_exists.1 (hfinished p (List.mem_of_getElem? hp))
    obtain ⟨c, -, hfollows, -⟩ := hs.follows i p hp
    rcases hfollows.result hx with ⟨hphase, -⟩ | ⟨hphase, -⟩
    · rw [hphase]
      exact ⟨rfl, fun _ => rfl⟩
    · rw [hphase]
      exact ⟨rfl, fun _ => rfl⟩

theorem Recorded.present_of_finished (hs : Steady cwd d writers s.world phase)
    (hr : Recorded t₀ d writers s.world.host.tree s.ledger phase) (hA : Appears t₀ d s.ledger phase)
    (hfile : ∀ text, t₀.get? d ≠ some (.file text)) (hsome : 0 < s.world.calls.length)
    (hfinished : s.world.Finished) : s.world.host.tree.get? d = some .directory := by
  have hthere : ∀ {t : Tree}, (∀ text, t.get? d ≠ some (.file text)) → (t.get? d).isSome →
      t.get? d = some .directory := by
    intro t hfile hsome
    obtain ⟨e, he⟩ := Option.isSome_iff_exists.1 hsome
    cases e with
    | file text => exact absurd he (hfile text)
    | directory => exact he
  by_cases hroot : d = []
  · rw [hroot]
    rfl
  · refine hthere (hr.no_file hfile) ?_
    rw [← Tree.below_nil, hr.destination hroot]
    cases hcurrent : s.ledger.current with
    | none =>
      rcases hr.present hcurrent with ⟨hnone, hfirst⟩ | ⟨j, n, hj⟩
      · have hpending := hA.pending hfirst hnone 0
        rw [(hs.phase_of_finished hfinished 0).2 hsome] at hpending
        cases hpending
      · rw [hs.aside?_of_finished hfinished] at hj
        cases hj
    | some held =>
      cases hgeneration : held.generation with
      | initial =>
        rw [Option.map_some, hgeneration, contentOf, Tree.below_nil]
        exact hA.current held hcurrent hgeneration
      | set i =>
        have hi := (hr.sound.current held hcurrent).published i hgeneration
        cases hp : s.world.calls[i]? with
        | none =>
          rw [hr.published i, hs.idle i hp] at hi
          cases hi
        | some p =>
          obtain ⟨c, hc, -⟩ := hs.follows i p hp
          rw [Option.map_some, hgeneration, contentOf_set hc]
          rfl

/-- When no writer is at work everything outside the destination is as it was at first, but for
directories on the way. -/
theorem Tidy.of_finished (hs : Steady cwd d writers s.world phase)
    (hT : Tidy t₀ d s.world.host.tree phase) (hfinished : s.world.Finished) {x : Place}
    (hx : Outside d x) (hway : ¬ x <+: d.dropLast) : s.world.host.tree.get? x = t₀.get? x := by
  have hfree : ∀ i n z, (phase i).number? = some n → Private d n z → ¬ z <+: x := by
    intro i n z hn
    rw [(hs.phase_of_finished hfinished i).1] at hn
    cases hn
  rcases hT.outside x hx hfree with hsame | ⟨-, hunder, -⟩
  · exact hsame
  · exact absurd hunder hway

end stories

/-- **Concurrent writers never mix their sets.** Any number of writers of plain names publish to one
destination with no file at it or on the way to it, in any order of their requests. At every moment the
destination, if it is not the root, is missing or holds one set as a whole, and a call that has come to
its end has returned its names or failed with an error for the destination. When all have come to their
end the destination is there, and nothing but the destination and the way to it has changed: no staged
or retired directory is left. -/
theorem sets_never_mix {h : Host} {d : Place} {writers : List Writer} (ht : h.tree.WellFormed)
    (hd : Named d) (hfile : ∀ q, q <+: d → ∀ text, h.tree.get? q ≠ some (.file text))
    (hwriters : ∀ c ∈ writers, (∀ a ∈ c.artifacts, IsName a.name) ∧ placeOf h c.destination = d)
    (hsome : writers ≠ []) (schedule : List Nat) :
    (d ≠ [] → HoldsOneSet h.tree (concurrently h writers schedule).host.tree d writers) ∧
    (∀ (i : Nat) (p : Program Outcome) (x : Outcome), (concurrently h writers schedule).calls[i]? = some p → p.result? = some x →
      ∃ c, writers[i]? = some c ∧ AnswersFor d c x) ∧
    ((concurrently h writers schedule).Finished →
      (concurrently h writers schedule).host.tree.get? d = some .directory ∧
      ∀ x, Outside d x → ¬ x <+: d.dropLast →
        (concurrently h writers schedule).host.tree.get? x = h.tree.get? x) := by
  have hfiled := hfile d (List.prefix_refl d)
  obtain ⟨phase, hs, hr, hT, hA⟩ :=
    turn_induction
      (P := fun s phase => Tidy h.tree d s.world.host.tree phase ∧ Appears h.tree d s.ledger phase)
      ht hd hfiled hwriters ⟨.start h.tree d, .start h.tree d⟩
      (fun s phase i c phase' hs hr hP _ hhas hmoves hchange => by
        obtain ⟨renamed, hm⟩ := hmoves
        have hway := fun q hq => hP.1.no_file_on_way hfile (q := q) hq
        exact ⟨hP.1.step hs hhas hm, hP.2.change hr hway hm hchange⟩) schedule
  have hworld : concurrently h writers schedule =
      ((Story.start h d writers).run d schedule).world :=
    (Story.world_run d (Story.start h d writers) schedule).symm
  have hlength : 0 < (concurrently h writers schedule).calls.length := by
    rw [concurrently, World.length_calls_run, List.length_map]
    exact List.length_pos_iff.2 hsome
  rw [hworld] at hlength ⊢
  refine ⟨hr.holdsOneSet, fun i p x hp hx => hs.answersFor hp hx, fun hfinished => ⟨?_, ?_⟩⟩
  · exact hr.present_of_finished hs hA hfiled hlength hfinished
  · exact fun x hx hway => hT.of_finished hs hfinished hx hway

theorem sets_never_mix_racing :
    (racingHost.tree.WellFormed ∧ Named ["rtl"] ∧
      (∀ q, q <+: ["rtl"] → ∀ text, racingHost.tree.get? q ≠ some (.file text)) ∧
      (∀ c ∈ racingWriters,
        (∀ a ∈ c.artifacts, IsName a.name) ∧ placeOf racingHost c.destination = ["rtl"]) ∧
      racingWriters ≠ [] ∧ (concurrently racingHost racingWriters racingSchedule).Finished) ∧
    HoldsOneSet racingHost.tree (concurrently racingHost racingWriters racingSchedule).host.tree
      ["rtl"] racingWriters ∧
    (concurrently racingHost racingWriters racingSchedule).host.tree.get? ["rtl"] = some .directory ∧
    (concurrently racingHost racingWriters racingSchedule).host.tree.get? [".rtl.staging-000000"] =
      none := by
  have ht : racingHost.tree.WellFormed := by decide
  have hd : Named ["rtl"] := by decide
  have hfile : ∀ q, q <+: ["rtl"] → ∀ text, racingHost.tree.get? q ≠ some (.file text) := by
    intro q hq text he
    rcases List.mem_cons.1 ((List.mem_inits q ["rtl"]).2 hq) with rfl | hq
    · cases he
    · rw [List.mem_singleton.1 hq] at he
      cases he
  have hsome : racingWriters ≠ [] := by decide
  have hfinished : (concurrently racingHost racingWriters racingSchedule).Finished := by
    unfold World.Finished
    decide +kernel
  obtain ⟨hone, -, hend⟩ :=
    sets_never_mix ht hd hfile racingWriters_plain hsome racingSchedule
  refine ⟨⟨ht, hd, hfile, racingWriters_plain, hsome, hfinished⟩, hone (by decide),
    (hend hfinished).1, ?_⟩
  rw [(hend hfinished).2 [".rtl.staging-000000"] (.inr (by decide)) (by decide)]
  rfl

/-! ### Files on the way and the root -/

/-- A host with a file where a directory would have to be. -/
def blockedHost : Host := .start ⟨[(["a"], .file "module a;\n")]⟩ []

def blockedWriter : Writer := ⟨none, "a/rtl", [⟨"a", "a", "module a;\n"⟩]⟩

def rootWriter : Writer := ⟨none, "/", [⟨"a", "a", "module a;\n"⟩]⟩

/-- It is not so that the destination is always there in the end, as a file may be on the way to it, nor
that it always holds one set, as the staged directories of writers to the root lie in it. -/
theorem blocked_or_root_destination :
    (¬ ∀ (h : Host) (d : Place) (writers : List Writer) (schedule : List Nat), h.tree.WellFormed →
      Named d → (∀ text, h.tree.get? d ≠ some (.file text)) →
      (∀ c ∈ writers, (∀ a ∈ c.artifacts, IsName a.name) ∧ placeOf h c.destination = d) →
      writers ≠ [] → (concurrently h writers schedule).Finished →
      (concurrently h writers schedule).host.tree.get? d = some .directory) ∧
    ¬ ∀ (h : Host) (d : Place) (writers : List Writer) (schedule : List Nat), h.tree.WellFormed →
      Named d → (∀ text, h.tree.get? d ≠ some (.file text)) →
      (∀ c ∈ writers, (∀ a ∈ c.artifacts, IsName a.name) ∧ placeOf h c.destination = d) →
      writers ≠ [] → HoldsOneSet h.tree (concurrently h writers schedule).host.tree d writers := by
  constructor
  · intro hpresent
    have hfinished : (concurrently blockedHost [blockedWriter] [0, 0]).Finished := by
      unfold World.Finished
      decide +kernel
    have hthere := hpresent blockedHost ["a", "rtl"] [blockedWriter] [0, 0] (by decide) (by decide)
      (fun text he => by cases he) (by decide +kernel) (by decide) hfinished
    have hmissing : (concurrently blockedHost [blockedWriter] [0, 0]).host.tree.get? ["a", "rtl"] =
        none := by decide +kernel
    rw [hmissing] at hthere
    cases hthere
  · intro hone
    have hstaged : (concurrently (.start .empty []) [rootWriter] [0, 0, 0]).host.tree.below []
        ["..staging-000000"] = some .directory := by decide +kernel
    rcases hone (.start .empty []) [] [rootWriter] [0, 0, 0] (by decide) (by decide)
      (fun text he => by cases he) (by decide +kernel) (by decide) with hnone | hsame | ⟨c, hc, hset⟩
    · cases hnone []
    · rw [hsame] at hstaged
      cases hstaged
    · rw [hset, List.mem_singleton.1 hc] at hstaged
      revert hstaged
      decide +kernel

end MemoryCompiler.Rtl
