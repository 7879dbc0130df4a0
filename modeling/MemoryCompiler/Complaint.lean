import MemoryCompiler.Document.Text

/-!
# Complaints about a field

Every refusal of a configuration, an override table or a reference names a field, shows the value
found there and says what was expected. `Complaint.message` is the one sentence all of them use.
-/

namespace MemoryCompiler

/-- What is wrong with one field. -/
structure Complaint where
  field : String
  value : Document
  expected : String

def Complaint.message (c : Complaint) : String :=
  "Invalid configuration field '" ++ c.field ++ "': got " ++ c.value.shown ++ ", expected "
    ++ c.expected

theorem bind_eq_ok_iff {ε α β : Type} {x : Except ε α} {k : α → Except ε β} {b : β} :
    x >>= k = .ok b ↔ ∃ a, x = .ok a ∧ k a = .ok b := by
  cases x with
  | error e => simp [bind, Except.bind]
  | ok a => simp [bind, Except.bind]

theorem bind_eq_error_iff {ε α β : Type} {x : Except ε α} {k : α → Except ε β} {e : ε} :
    x >>= k = .error e ↔ x = .error e ∨ ∃ a, x = .ok a ∧ k a = .error e := by
  cases x with
  | error e' => simp [bind, Except.bind]
  | ok a => simp [bind, Except.bind]

theorem toOption_eq_some_iff {ε α : Type} {x : Except ε α} {a : α} :
    x.toOption = some a ↔ x = .ok a := by
  cases x with
  | error e => simp [Except.toOption]
  | ok b => simp [Except.toOption]

end MemoryCompiler
