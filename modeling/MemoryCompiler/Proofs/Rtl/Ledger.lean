import Mathlib.Tactic
import MemoryCompiler.Proofs.Files.Interleaving
import MemoryCompiler.Rtl.Publication

/-!
# The ledger of a destination

The renames that concurrent publications carry out tell which generation is at their destination: the
initial one or the set of a call. The ledger follows them. It also keeps what each call has set aside,
and for each generation the calls whose sets it missed, being set aside when they were published.
-/

namespace MemoryCompiler.Rtl

open Files

/-- What a destination can hold as one whole. -/
inductive Generation where
  | initial
  /-- The artifacts of a call. -/
  | set (i : Nat)
deriving DecidableEq, Repr

/-- A generation with the calls that were published while it was set aside. -/
structure Held where
  generation : Generation
  missed : List Nat
deriving DecidableEq, Repr

/-- What the renames so far tell of a destination. -/
structure Ledger where
  current : Option Held
  /-- The path to which a call has set a generation aside. -/
  aside : Nat → Option (Path × Held)
  /-- The calls whose sets were put in place, the first one first. -/
  published : List Nat

namespace Ledger

/-- A generation that is set aside misses the set of a call. -/
def miss (i : Nat) (x : Path × Held) : Path × Held := (x.1, { x.2 with missed := x.2.missed ++ [i] })

/-- The set of a call is put in place. -/
def publish (l : Ledger) (i : Nat) : Ledger :=
  ⟨some ⟨.set i, []⟩, fun j => (l.aside j).map (miss i), l.published ++ [i]⟩

/-- A call sets aside what is in place. -/
def setAside (l : Ledger) (i : Nat) (path : Path) : Ledger :=
  ⟨none, Function.update l.aside i (l.current.map fun held => (path, held)), l.published⟩

/-- A call puts back what it has set aside. -/
def putBack (l : Ledger) (i : Nat) (held : Held) : Ledger :=
  ⟨some held, Function.update l.aside i none, l.published⟩

/-- Enters a rename that a call carried out. One to the destination puts back what the call has set
aside if it starts there, and publishes the set of the call otherwise. -/
def record (target : Path) (l : Ledger) (i : Nat) (source destination : Path) : Ledger :=
  if destination = target then
    match l.aside i with
    | some (path, held) => if source = path then l.putBack i held else l.publish i
    | none => l.publish i
  else if source = target then l.setAside i destination
  else l

/-- A generation was in place before the set of a call was published. -/
def Earlier (l : Ledger) : Generation → Nat → Prop
  | .initial, j => j ∈ l.published
  | .set i, j => [i, j].Sublist l.published

/-- The ledger knows a generation and the sets that it missed. -/
structure Knows (l : Ledger) (held : Held) : Prop where
  published : ∀ i, held.generation = .set i → i ∈ l.published
  missed : ∀ j, j ∈ held.missed ↔ l.Earlier held.generation j

/-- Each call is published once, and all that is in place or set aside is known. -/
structure Sound (l : Ledger) : Prop where
  nodup : l.published.Nodup
  current : ∀ held, l.current = some held → l.Knows held
  aside : ∀ i path held, l.aside i = some (path, held) → l.Knows held

section sound

variable {l : Ledger} {held : Held} {i j k : Nat} {path : Path}

theorem sublist_concat_iff {xs : List Nat} :
    [i, j].Sublist (xs ++ [k]) ↔ [i, j].Sublist xs ∨ i ∈ xs ∧ j = k := by
  rw [← List.reverse_sublist, List.reverse_append, List.reverse_singleton, List.singleton_append,
    List.sublist_cons_iff, List.reverse_sublist]
  refine or_congr Iff.rfl ?_
  constructor
  · rintro ⟨r, heq, hr⟩
    rw [show [i, j].reverse = j :: [i] from rfl, List.cons.injEq] at heq
    obtain ⟨rfl, rfl⟩ := heq
    exact ⟨List.mem_reverse.1 (List.singleton_sublist.1 hr), rfl⟩
  · rintro ⟨hi, rfl⟩
    exact ⟨[i], rfl, List.singleton_sublist.2 (List.mem_reverse.2 hi)⟩

theorem earlier_publish (hg : ∀ i, held.generation = .set i → i ∈ l.published) :
    (l.publish k).Earlier held.generation j ↔ l.Earlier held.generation j ∨ j = k := by
  cases h : held.generation with
  | initial =>
    show j ∈ l.published ++ [k] ↔ j ∈ l.published ∨ j = k
    rw [List.mem_append, List.mem_singleton]
  | set i =>
    show [i, j].Sublist (l.published ++ [k]) ↔ [i, j].Sublist l.published ∨ j = k
    rw [sublist_concat_iff, and_iff_right (hg i h)]

theorem Knows.publish (h : l.Knows held) (k : Nat) :
    (l.publish k).Knows { held with missed := held.missed ++ [k] } where
  published := fun i hi => List.mem_append_left _ (h.published i hi)
  missed := fun j => by
    rw [List.mem_append, List.mem_singleton, h.missed j]
    exact (earlier_publish h.published).symm

theorem knows_publish_self (hk : k ∉ l.published) :
    (l.publish k).Knows ⟨.set k, []⟩ where
  published := fun i hi => by
    cases hi
    exact List.mem_append_right _ List.mem_cons_self
  missed := fun j => by
    show j ∈ [] ↔ [k, j].Sublist (l.published ++ [k])
    rw [sublist_concat_iff]
    constructor
    · intro hj
      cases hj
    · rintro (hsub | ⟨hmem, -⟩)
      · exact absurd (hsub.subset List.mem_cons_self) hk
      · exact absurd hmem hk

theorem Sound.publish (h : l.Sound) (hk : k ∉ l.published) : (l.publish k).Sound where
  nodup := by
    show (l.published ++ [k]).Nodup
    rw [List.nodup_append]
    refine ⟨h.nodup, List.nodup_singleton k, fun x hx y hy => ?_⟩
    rw [List.mem_singleton.1 hy]
    rintro rfl
    exact hk hx
  current := fun held hheld => by
    cases hheld
    exact knows_publish_self hk
  aside := fun i path held hheld => by
    obtain ⟨⟨path', held'⟩, haside, heq⟩ := Option.map_eq_some_iff.1 hheld
    cases heq
    exact (h.aside i path' held' haside).publish k

theorem Sound.setAside (h : l.Sound) (i : Nat) (path : Path) : (l.setAside i path).Sound where
  nodup := h.nodup
  current := fun held hheld => by cases hheld
  aside := fun j path' held hheld => by
    have hheld : Function.update l.aside i (l.current.map fun held => (path, held)) j =
      some (path', held) := hheld
    by_cases hj : j = i
    · rw [hj, Function.update_self, Option.map_eq_some_iff] at hheld
      obtain ⟨held', hcurrent, heq⟩ := hheld
      cases heq
      have hknown := h.current _ hcurrent
      exact ⟨hknown.published, hknown.missed⟩
    · rw [Function.update_of_ne hj] at hheld
      have hknown := h.aside j path' held hheld
      exact ⟨hknown.published, hknown.missed⟩

theorem Sound.putBack (h : l.Sound) (hi : l.aside i = some (path, held)) : (l.putBack i held).Sound where
  nodup := h.nodup
  current := fun held' hheld => by
    cases hheld
    have hknown := h.aside i path held hi
    exact ⟨hknown.published, hknown.missed⟩
  aside := fun j path' held' hheld => by
    have hheld : Function.update l.aside i none j = some (path', held') := hheld
    by_cases hj : j = i
    · rw [hj, Function.update_self] at hheld
      cases hheld
    · rw [Function.update_of_ne hj] at hheld
      have hknown := h.aside j path' held' hheld
      exact ⟨hknown.published, hknown.missed⟩

end sound

end Ledger

end MemoryCompiler.Rtl
