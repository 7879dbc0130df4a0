import MemoryCompiler.Files.Path
import MemoryCompiler.Log

/-!
# Programs on files

A program is a tree of requests: each asks for one operation on the files or the console and goes
on with the answer. What the requests mean is for whoever runs the program: a tree of files that is
a value, or the machine's own.
-/

namespace MemoryCompiler.Files

/-- Why an operation on files failed. -/
inductive Fault where
  | missing
  | notDirectory
  | isDirectory
  | taken
  | notEmpty
  | insideItself
  /-- A reason of the host's own. -/
  | other (reason : String)
deriving DecidableEq, Repr

namespace Fault

/-- The reason of a fault that has one of its own. -/
def reason? : Fault → Option String
  | other reason => some reason
  | _ => none

def text : Fault → String
  | missing => "ENOENT"
  | notDirectory => "ENOTDIR"
  | isDirectory => "EISDIR"
  | taken => "EEXIST"
  | notEmpty => "ENOTEMPTY"
  | insideItself => "EINVAL"
  | other reason => reason

end Fault

/-- An operation that a program asks for. Each one is carried out at once. -/
inductive Request where
  /-- The directory that paths without a root start at. -/
  | workingDirectory
  | read (p : Path)
  | write (p : Path) (text : String)
  /-- Makes a directory and those it lies in, as far as they are missing. -/
  | makeDirectories (p : Path)
  /-- Makes a new directory whose name starts as given and answers its path. -/
  | makeFresh (p : Path)
  | present (p : Path)
  | isDirectory (p : Path)
  | rename (source target : Path)
  /-- Removes what is at a path with all that is in it. -/
  | remove (p : Path)
  | print (line : ConsoleLine)

/-- The type of the answer to a request. -/
@[reducible] def Request.Answer : Request → Type
  | workingDirectory => Path
  | read _ => Except Fault String
  | write _ _ => Except Fault Unit
  | makeDirectories _ => Except Fault Unit
  | makeFresh _ => Except Fault Path
  | present _ => Bool
  | isDirectory _ => Except Fault Bool
  | rename _ _ => Except Fault Unit
  | remove _ => Unit
  | print _ => Unit

/-- A program: a result, or a request and the program for each answer. -/
inductive Program (α : Type) : Type where
  | done (a : α)
  | call (r : Request) (next : r.Answer → Program α)

namespace Program

/-- One program and then another. -/
def andThen {α β : Type} : Program α → (α → Program β) → Program β
  | done a, f => f a
  | call r next, f => call r fun answer => (next answer).andThen f

instance : Monad Program where
  pure := done
  bind := andThen

def ask (r : Request) : Program r.Answer := call r done

/-- Writes a message if its level passes the threshold. -/
def log (t : Log.Threshold) (name : String) (level : Log.Level) (words : List String) :
    Program Unit :=
  match Log.line? t name level words with
  | some line => ask (.print line)
  | none => pure ()

/-! ## Laws -/

theorem bind_done {α β : Type} (a : α) (f : α → Program β) : (done a >>= f) = f a := rfl

theorem bind_call {α β : Type} (r : Request) (next : r.Answer → Program α) (f : α → Program β) :
    (call r next >>= f) = call r fun answer => next answer >>= f := rfl

theorem bind_pure_self {α : Type} (p : Program α) : (p >>= done) = p := by
  induction p with
  | done a => rfl
  | call r next ih => rw [bind_call]; exact congrArg (call r) (funext ih)

theorem bind_assoc {α β γ : Type} (p : Program α) (f : α → Program β) (g : β → Program γ) :
    (p >>= f >>= g) = p >>= fun a => f a >>= g := by
  induction p with
  | done a => rfl
  | call r next ih => simp only [bind_call]; exact congrArg (call r) (funext ih)

instance : LawfulMonad Program :=
  LawfulMonad.mk' Program (fun p => bind_pure_self p) (fun a f => bind_done a f)
    (fun p f g => bind_assoc p f g)

end Program

end MemoryCompiler.Files
