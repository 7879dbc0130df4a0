import MemoryCompiler.Proofs.Rtl.Ledger
import MemoryCompiler.Proofs.Rtl.Turns

/-!
# Concurrent writers

Writers publish to one destination in any order of their requests, and the ledger follows the renames
that they carry out. In whatever order they take turns, each keeps to its phase, what a phase relies on
stays, and no two work under one number (`Steady.step`).
-/

namespace MemoryCompiler.Rtl

open Files Publication

/-- Concurrent publications and the ledger of their destination. -/
structure Story where
  world : World Outcome
  ledger : Ledger

namespace Story

def start (h : Host) (d : Place) (writers : List Writer) : Story :=
  ⟨⟨h, writers.map Writer.program⟩,
    ⟨(h.tree.get? d).map fun _ => ⟨.initial, []⟩, fun _ => none, []⟩⟩

/-- The ledger after a rename, if there was one. -/
def entered (d : Place) (l : Ledger) (i : Nat) (renamed : Option (Path × Path)) : Ledger :=
  match renamed with
  | none => l
  | some x => l.record (.ofPlace d) i x.1 x.2

/-- The turn of one writer. A rename that it carries out is entered into the ledger. -/
def step (d : Place) (s : Story) (i : Nat) : Story :=
  ⟨s.world.step i, entered d s.ledger i (s.world.calls[i]?.bind s.world.host.renaming?)⟩

def run (d : Place) (s : Story) (schedule : List Nat) : Story := schedule.foldl (step d) s

theorem world_run (d : Place) (s : Story) (schedule : List Nat) :
    (s.run d schedule).world = s.world.run schedule := by
  induction schedule generalizing s with
  | nil => rfl
  | cons i schedule ih => exact ih (s.step d i)

theorem step_of_some {d : Place} {s : Story} {i : Nat} {p : Program Outcome}
    (h : s.world.calls[i]? = some p) :
    s.step d i = ⟨⟨(s.world.host.advance p).2, s.world.calls.set i (s.world.host.advance p).1⟩,
      entered d s.ledger i (s.world.host.renaming? p)⟩ := by
  rw [step, World.step_of_some h, h]
  rfl

theorem step_of_none {d : Place} {s : Story} {i : Nat} (h : s.world.calls[i]? = none) :
    s.step d i = s := by
  rw [step, World.step_of_none h, h]
  rfl

end Story

/-! ### What every order of turns keeps -/

/-- Each writer keeps to a phase and has what the phase relies on, under a number of its own. -/
structure Steady (cwd d : Place) (writers : List Writer) (w : World Outcome) (phase : Nat → Phase) :
    Prop where
  wellFormed : w.host.tree.WellFormed
  directory : w.host.directory = cwd
  follows : ∀ i p, w.calls[i]? = some p →
    ∃ c, writers[i]? = some c ∧ Follows c cwd d (phase i) p ∧ Has w.host.tree d c (phase i)
  idle : ∀ i, w.calls[i]? = none → phase i = .waiting
  number_lt : ∀ i n, (phase i).number? = some n → n < w.host.made
  number_ne : ∀ i j n, (phase i).number? = some n → (phase j).number? = some n → i = j

section steady

variable {cwd d : Place} {writers : List Writer} {w : World Outcome} {phase : Nat → Phase} {i : Nat}

theorem Steady.start {h : Host} (ht : h.tree.WellFormed)
    (hwriters : ∀ c ∈ writers, (∀ a ∈ c.artifacts, IsName a.name) ∧ placeOf h c.destination = d) :
    Steady h.directory d writers (World.mk h (writers.map Writer.program)) fun _ => .waiting where
  wellFormed := ht
  directory := rfl
  follows := fun i p hp => by
    rw [List.getElem?_map, Option.map_eq_some_iff] at hp
    obtain ⟨c, hc, rfl⟩ := hp
    obtain ⟨hnames, hd⟩ := hwriters c (List.mem_of_getElem? hc)
    exact ⟨c, hc, follows_program hnames hd, trivial⟩
  idle := fun i _ => rfl
  number_lt := fun i n hn => by cases hn
  number_ne := fun i j n hn => by cases hn

theorem Steady.number_ne_of_moves (hs : Steady cwd d writers w phase) {c : Writer} {h' : Host}
    {phase' : Phase} {renamed : Option (Path × Path)}
    (hmoves : Moves c d w.host h' (phase i) phase' renamed) {j m : Nat} (hj : j ≠ i)
    (hm : (phase j).number? = some m) :
    ∀ k, (phase i).number? = some k ∨ phase'.number? = some k → k ≠ m := by
  rintro k hk rfl
  have hold : (phase i).number? = some k → False := fun hk => hj (hs.number_ne j i k hm hk)
  rcases hk with hk | hk
  · exact hold hk
  · rcases hmoves.number hk with hk | ⟨hle, -⟩
    · exact hold hk
    · have := hs.number_lt j k hm
      omega

/-- The turn of a writer leads to a phase of its own, and the others keep theirs. -/
theorem Steady.step (hs : Steady cwd d writers w phase) (hd : Named d)
    (hfile : ∀ text, w.host.tree.get? d ≠ some (.file text)) {p : Program Outcome}
    (hp : w.calls[i]? = some p) :
    ∃ c phase', writers[i]? = some c ∧
      Moves c d w.host (w.step i).host (phase i) phase' (w.host.renaming? p) ∧
      Steady cwd d writers (w.step i) (Function.update phase i phase') := by
  obtain ⟨c, hc, hfollows, hhas⟩ := hs.follows i p hp
  have hfollows' : Follows c w.host.directory d (phase i) p := by
    rw [hs.directory]
    exact hfollows
  obtain ⟨phase', hnext, hwf, hdirectory, hmoves⟩ := hfollows'.turn hs.wellFormed hd hfile hhas
  rw [World.step_of_some hp]
  have hother := fun j m (hj : j ≠ i) (hm : (phase j).number? = some m) =>
    hs.number_ne_of_moves hmoves hj hm
  refine ⟨c, phase', hc, hmoves, hwf, hdirectory.trans hs.directory, fun j q hq => ?_, fun j hj => ?_,
    fun j n hn => ?_, fun j k n hj hk => ?_⟩
  · by_cases hji : j = i
    · subst hji
      have hlt : j < w.calls.length := (List.getElem?_eq_some_iff.1 hp).1
      rw [List.getElem?_set_self hlt, Option.some.injEq] at hq
      rw [Function.update_self, ← hq]
      refine ⟨c, hc, ?_, hmoves.has hhas⟩
      rw [← hs.directory]
      exact hnext
    · rw [List.getElem?_set_ne (Ne.symm hji)] at hq
      rw [Function.update_of_ne hji]
      obtain ⟨c', hc', hfollows', hhas'⟩ := hs.follows j q hq
      refine ⟨c', hc', hfollows', hhas'.of_below hmoves.parent fun n z hn hz => ?_⟩
      exact hmoves.below_private hz (hother j n hji hn)
  · have hji : j ≠ i := by
      rintro rfl
      have hlt : j < w.calls.length := (List.getElem?_eq_some_iff.1 hp).1
      rw [List.getElem?_set_self hlt] at hj
      cases hj
    rw [List.getElem?_set_ne (Ne.symm hji)] at hj
    rw [Function.update_of_ne hji]
    exact hs.idle j hj
  · have hmade := hmoves.made_le
    by_cases hji : j = i
    · rw [hji, Function.update_self] at hn
      rcases hmoves.number hn with hold | ⟨-, hlt⟩
      · exact (hs.number_lt i n hold).trans_le hmade
      · exact hlt
    · rw [Function.update_of_ne hji] at hn
      exact (hs.number_lt j n hn).trans_le hmade
  · by_cases hji : j = i
    · by_cases hki : k = i
      · rw [hji, hki]
      · rw [hji, Function.update_self] at hj
        rw [Function.update_of_ne hki] at hk
        exact absurd rfl (hother k n hki hk n (.inr hj))
    · rw [Function.update_of_ne hji] at hj
      by_cases hki : k = i
      · rw [hki, Function.update_self] at hk
        exact absurd rfl (hother j n hji hj n (.inr hk))
      · rw [Function.update_of_ne hki] at hk
        exact hs.number_ne j k n hj hk

end steady

end MemoryCompiler.Rtl
