import MemoryCompiler.Files.Host

/-!
# Programs that run together

Several programs share one host, and each step carries out the next request of one of them. A schedule
says whose turn it is; a program that has come to its end, or that is not there, passes its turn.
-/

namespace MemoryCompiler.Files

variable {α : Type}

/-- What a program that has come to its end answers. -/
def Program.result? : Program α → Option α
  | .done a => some a
  | .call _ _ => none

def Host.calm (_ : Nat) : Option Disturbance := none

/-- Carries out the next request of a program. -/
def Host.advance (h : Host) : Program α → Program α × Host
  | .done a => (.done a, h)
  | .call r next => (next (h.answer calm r).1, (h.answer calm r).2)

/-- The rename that a program carries out next, if it succeeds. -/
def Host.renaming? (h : Host) : Program α → Option (Path × Path)
  | .call (.rename source target) _ =>
    if (h.tree.rename h.directory source target).isOk then some (source, target) else none
  | _ => none

section renames

variable {h : Host} {source target : Path}

theorem Host.advance_rename_ok (next : Except Fault Unit → Program α) {t : Tree}
    (hr : h.tree.rename h.directory source target = .ok t) :
    h.advance (.call (.rename source target) next) =
      (next (.ok ()), { h with tree := t, renames := h.renames + 1 }) ∧
    h.renaming? (.call (.rename source target) next) = some (source, target) := by
  have hanswer : h.answer calm (.rename source target) =
      (.ok (), { h with tree := t, renames := h.renames + 1 }) := by
    simp only [answer, rename, calm, hr]
  refine ⟨?_, ?_⟩
  · rw [advance, hanswer]
  · rw [renaming?, hr]
    rfl

theorem Host.advance_rename_error (next : Except Fault Unit → Program α) {f : Fault}
    (hr : h.tree.rename h.directory source target = .error f) :
    h.advance (.call (.rename source target) next) =
      (next (.error f), { h with renames := h.renames + 1 }) ∧
    h.renaming? (.call (.rename source target) next) = none := by
  have hanswer : h.answer calm (.rename source target) =
      (.error f, { h with renames := h.renames + 1 }) := by
    simp only [answer, rename, calm, hr]
  refine ⟨?_, ?_⟩
  · rw [advance, hanswer]
  · rw [renaming?, hr]
    rfl

end renames

/-- A host with what is left of each program. -/
structure World (α : Type) where
  host : Host
  calls : List (Program α)

namespace World

/-- The turn of one program. -/
def step (w : World α) (i : Nat) : World α :=
  match w.calls[i]? with
  | none => w
  | some p => ⟨(w.host.advance p).2, w.calls.set i (w.host.advance p).1⟩

def run (w : World α) (schedule : List Nat) : World α := schedule.foldl step w

/-- All programs have come to their end. -/
def Finished (w : World α) : Prop := ∀ p ∈ w.calls, p.result?.isSome

theorem step_of_some {w : World α} {i : Nat} {p : Program α} (h : w.calls[i]? = some p) :
    w.step i = ⟨(w.host.advance p).2, w.calls.set i (w.host.advance p).1⟩ := by
  rw [step, h]

theorem step_of_none {w : World α} {i : Nat} (h : w.calls[i]? = none) : w.step i = w := by
  rw [step, h]

theorem length_calls_step (w : World α) (i : Nat) : (w.step i).calls.length = w.calls.length := by
  rw [step]
  cases w.calls[i]? with
  | none => rfl
  | some p => exact List.length_set

theorem length_calls_run (w : World α) (schedule : List Nat) :
    (w.run schedule).calls.length = w.calls.length := by
  induction schedule generalizing w with
  | nil => rfl
  | cons i schedule ih => exact (ih (w.step i)).trans (length_calls_step w i)

end World

end MemoryCompiler.Files
