import MemoryCompiler.Proofs.Rtl.Records

/-!
# Lost updates

A generation that was put in place before the set of a writer that has returned is there again only if
it was put back after missing that set (`lost_update_iff`). Three writers can bring that about
(`not_every_order_keeps_updates`).
-/

namespace MemoryCompiler.Rtl

open Files Publication

namespace Story

/-- A writer has returned the names of its artifacts. -/
def Returned (s : Story) (i : Nat) : Prop := ∃ names, s.world.calls[i]? = some (.done (.ok names))

def Finished (s : Story) : Prop := ∀ p ∈ s.world.calls, p.result?.isSome

/-- What is in place was not there before the set of a writer that has returned. When all writers have
come to their end, it is the set of one that has returned. -/
def KeepsUpdates (s : Story) : Prop :=
  (∀ i held, s.Returned i → s.ledger.current = some held → ¬ s.ledger.Earlier held.generation i) ∧
    (s.Finished → (∃ i, s.Returned i) → ∃ i held, s.Returned i ∧ s.ledger.current = some held ∧
      held.generation = .set i)

/-- What is in place was put back, having missed the set of a writer that has returned. -/
def IsStale (s : Story) : Prop :=
  ∃ i held, s.Returned i ∧ s.ledger.current = some held ∧ i ∈ held.missed

end Story

section updates

variable {h : Host} {d : Place} {writers : List Writer} {s : Story} {cwd : Place} {t₀ : Tree}
  {phase : Nat → Phase} {i : Nat}

theorem Steady.phase_of_returned (hs : Steady cwd d writers s.world phase) (hi : s.Returned i) :
    phase i = .returned := by
  obtain ⟨names, hnames⟩ := hi
  obtain ⟨c, -, hfollows, -⟩ := hs.follows i _ hnames
  rcases hfollows.result rfl with ⟨hphase, -⟩ | ⟨-, e, he, -⟩
  · exact hphase
  · cases he

theorem Steady.aside?_of_finished (hs : Steady cwd d writers s.world phase) (hfinished : s.Finished) :
    (phase i).aside? = none := by
  cases hp : s.world.calls[i]? with
  | none =>
    rw [hs.idle i hp]
    rfl
  | some p =>
    obtain ⟨x, hx⟩ := Option.isSome_iff_exists.1 (hfinished p (List.mem_of_getElem? hp))
    obtain ⟨c, -, hfollows, -⟩ := hs.follows i p hp
    rcases hfollows.result hx with ⟨hphase, -⟩ | ⟨hphase, -⟩
    · rw [hphase]
      rfl
    · rw [hphase]
      rfl

theorem Steady.returned_of_finished (hs : Steady cwd d writers s.world phase) (hfinished : s.Finished)
    (hi : (phase i).isSettled = true) : s.Returned i := by
  cases hp : s.world.calls[i]? with
  | none =>
    rw [hs.idle i hp] at hi
    cases hi
  | some p =>
    obtain ⟨x, hx⟩ := Option.isSome_iff_exists.1 (hfinished p (List.mem_of_getElem? hp))
    obtain ⟨c, -, hfollows, -⟩ := hs.follows i p hp
    rcases hfollows.result hx with ⟨-, rfl⟩ | ⟨hphase, -⟩
    · cases p with
      | call r next => cases hx
      | done a =>
        cases hx
        exact ⟨_, hp⟩
    · rw [hphase] at hi
      cases hi

theorem Recorded.keepsUpdates_iff (hs : Steady cwd d writers s.world phase)
    (hr : Recorded t₀ d writers s.world.host.tree s.ledger phase) :
    s.KeepsUpdates ↔ ¬ s.IsStale := by
  constructor
  · rintro ⟨hkeeps, -⟩ ⟨i, held, hi, hcurrent, hmissed⟩
    exact hkeeps i held hi hcurrent (((hr.sound.current held hcurrent).missed i).1 hmissed)
  · intro hfresh
    have hkeeps : ∀ i held, s.Returned i → s.ledger.current = some held →
        ¬ s.ledger.Earlier held.generation i := fun i held hi hcurrent hearlier =>
      hfresh ⟨i, held, hi, hcurrent, ((hr.sound.current held hcurrent).missed i).2 hearlier⟩
    refine ⟨hkeeps, fun hfinished ⟨i, hi⟩ => ?_⟩
    have hpublished : i ∈ s.ledger.published := by
      rw [hr.published i, hs.phase_of_returned hi]
      rfl
    cases hcurrent : s.ledger.current with
    | none =>
      rcases hr.present hcurrent with ⟨hempty, -⟩ | ⟨j, n, hj⟩
      · rw [hempty] at hpublished
        cases hpublished
      · rw [hs.aside?_of_finished hfinished] at hj
        cases hj
    | some held =>
      cases hgeneration : held.generation with
      | initial =>
        refine absurd ?_ (hkeeps i held hi hcurrent)
        rw [hgeneration]
        exact hpublished
      | set k =>
        have hk := (hr.sound.current held hcurrent).published k hgeneration
        exact ⟨k, held, hs.returned_of_finished hfinished ((hr.published k).1 hk), rfl, hgeneration⟩

end updates

/-- **No update is lost but to a stale generation that is put back.** Whatever the order of the requests
of any number of writers, the destination holds at every moment the generation that the ledger names,
as one whole. Nothing that was there before the set of a writer that has returned is there again, and
in the end the destination holds the set of a writer that has returned, exactly if no generation is in
place that was put back after missing such a set. -/
theorem lost_update_iff {h : Host} {d : Place} {writers : List Writer} (ht : h.tree.WellFormed)
    (hd : Named d) (hfile : ∀ text, h.tree.get? d ≠ some (.file text))
    (hwriters : ∀ c ∈ writers, (∀ a ∈ c.artifacts, IsName a.name) ∧ placeOf h c.destination = d)
    (schedule : List Nat) :
    (d ≠ [] → ((Story.start h d writers).run d schedule).world.host.tree.below d =
      contentOf h.tree d writers
        (((Story.start h d writers).run d schedule).ledger.current.map Held.generation)) ∧
    (((Story.start h d writers).run d schedule).KeepsUpdates ↔
      ¬ ((Story.start h d writers).run d schedule).IsStale) := by
  obtain ⟨phase, hs, hr, -⟩ :=
    story_induction (P := fun _ _ => True) ht hd hfile hwriters trivial
      (fun _ _ _ _ _ _ _ _ _ _ => trivial) schedule
  exact ⟨hr.destination, hr.keepsUpdates_iff hs⟩

/-- A host with one published file. -/
def racingHost : Host :=
  .start ⟨[(["rtl"], .directory), (["rtl", "a"], .file "module a;\n")]⟩ []

def racingWriters : List Writer :=
  [⟨none, "rtl", [⟨"b", "b", "module b;\n"⟩]⟩, ⟨none, "rtl", [⟨"c", "c", "module c;\n"⟩]⟩,
    ⟨none, "rtl", [⟨"d", "d", "module d;\n"⟩]⟩]

/-- The first writer sets the destination aside, the second one publishes its set and returns, and the
swap of the first one fails. The third one sets the second one's set aside, so that the first one can put
back what it had set aside, and finds the destination taken when it swaps and when it puts back. -/
def racingSchedule : List Nat :=
  List.replicate 7 0 ++ List.replicate 6 1 ++ [0] ++ List.replicate 7 2 ++ [0, 0] ++ List.replicate 4 2

theorem racingWriters_plain :
    ∀ c ∈ racingWriters,
      (∀ a ∈ c.artifacts, IsName a.name) ∧ placeOf racingHost c.destination = ["rtl"] := by
  decide +kernel

theorem lost_update_iff_racing :
    (racingHost.tree.WellFormed ∧ Named ["rtl"] ∧
      (∀ text, racingHost.tree.get? ["rtl"] ≠ some (.file text)) ∧
      ∀ c ∈ racingWriters,
        (∀ a ∈ c.artifacts, IsName a.name) ∧ placeOf racingHost c.destination = ["rtl"]) ∧
    ((Story.start racingHost ["rtl"] racingWriters).run ["rtl"] racingSchedule).world.host.tree.below
        ["rtl"] = racingHost.tree.below ["rtl"] ∧
    (((Story.start racingHost ["rtl"] racingWriters).run ["rtl"] racingSchedule).KeepsUpdates ↔
      ¬ ((Story.start racingHost ["rtl"] racingWriters).run ["rtl"] racingSchedule).IsStale) := by
  have ht : racingHost.tree.WellFormed := by decide
  have hd : Named ["rtl"] := by decide
  have hfile : ∀ text, racingHost.tree.get? ["rtl"] ≠ some (.file text) := by
    intro text he
    cases he
  obtain ⟨hbelow, hkeeps⟩ := lost_update_iff ht hd hfile racingWriters_plain racingSchedule
  have hcurrent : ((Story.start racingHost ["rtl"] racingWriters).run ["rtl"]
      racingSchedule).ledger.current = some ⟨.initial, [1]⟩ := by decide +kernel
  refine ⟨⟨ht, hd, hfile, racingWriters_plain⟩, ?_, hkeeps⟩
  rw [hbelow (by decide), hcurrent]
  rfl

/-- It is not so that every order of turns keeps updates, whatever files the writers have. -/
theorem not_every_order_keeps_updates :
    ¬ ∀ (h : Host) (d : Place) (writers : List Writer) (schedule : List Nat), h.tree.WellFormed →
      Named d → (∀ text, h.tree.get? d ≠ some (.file text)) →
      (∀ c ∈ writers, (∀ a ∈ c.artifacts, IsName a.name) ∧ placeOf h c.destination = d) →
      (∀ c ∈ writers, c.artifacts ≠ []) →
      ((Story.start h d writers).run d schedule).KeepsUpdates := by
  intro hkeeps
  have hstory := hkeeps racingHost ["rtl"] racingWriters racingSchedule (by decide)
    (by decide) (fun text he => by cases he) racingWriters_plain (by decide)
  have hreturned : ((Story.start racingHost ["rtl"] racingWriters).run ["rtl"]
      racingSchedule).Returned 1 := ⟨["c"], rfl⟩
  have hcurrent : ((Story.start racingHost ["rtl"] racingWriters).run ["rtl"]
      racingSchedule).ledger.current = some ⟨.initial, [1]⟩ := by decide +kernel
  have hpublished : 1 ∈ ((Story.start racingHost ["rtl"] racingWriters).run ["rtl"]
      racingSchedule).ledger.published := by decide +kernel
  exact hstory.1 1 _ hreturned hcurrent hpublished

end MemoryCompiler.Rtl
