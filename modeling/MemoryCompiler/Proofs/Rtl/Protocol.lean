import MemoryCompiler.Proofs.Files.Interleaving
import MemoryCompiler.Proofs.Rtl.Staging

/-!
# The protocol of a publication

A publication goes through phases: it waits for the directory it works in, stages its artifacts under a
number, sets the destination aside, swaps, puts back, and removes what it does not need any more.
`Follows` says which request each phase makes and which phase each answer leads to, and a publication
follows the protocol from its first request on (`follows_program`).
-/

namespace MemoryCompiler.Rtl

open Files Publication

/-- What a publication answers in the end. -/
abbrev Outcome := Except PublicationError (List String)

/-- A call that publishes artifacts. -/
structure Writer where
  log : Log.Threshold
  destination : String
  artifacts : List Artifact

namespace Writer

def files (c : Writer) : List (String × String) := c.artifacts.map fileOf

def program (c : Writer) : Program Outcome := publish c.log (.ofText c.destination) c.artifacts

end Writer

/-- How far a publication has come. -/
inductive Phase where
  /-- The directory beside the destination need not be there. -/
  | waiting
  | entering
  /-- The files were written into the n-th fresh directory. -/
  | staging (n : Nat) (files : List (String × String))
  /-- All files were written, and nothing was at the destination. -/
  | arriving (n : Nat)
  /-- All files were written, and something was at the destination. -/
  | replacing (n : Nat)
  /-- The destination was set aside. -/
  | swapping (n : Nat)
  /-- The swap failed. -/
  | restoring (n : Nat)
  /-- The destination could not be put back. -/
  | dropping (n : Nat)
  /-- The set is in place, and what was set aside is to be removed. -/
  | clearing (n : Nat)
  /-- The set is not in place, and the staged directory is to be removed. -/
  | cleaning (n : Nat)
  | returned
  | failed
deriving DecidableEq

/-- The number of the fresh directory that a phase works with. -/
def Phase.number? : Phase → Option Nat
  | staging n _ | arriving n | replacing n | swapping n | restoring n | dropping n | clearing n
  | cleaning n => some n
  | waiting | entering | returned | failed => none

/-- A program does what a writer's publication does from a phase on. -/
inductive Follows (c : Writer) (cwd d : Place) : Phase → Program Outcome → Prop
  | print {phase : Phase} {line : ConsoleLine} {next : Unit → Program Outcome}
      (rest : Follows c cwd d phase (next ())) : Follows c cwd d phase (.call (.print line) next)
  | start {next : Path → Program Outcome} (rest : Follows c cwd d .waiting (next ⟨true, cwd, false⟩)) :
      Follows c cwd d .waiting (.call .workingDirectory next)
  | way {next : Except Fault Unit → Program Outcome} (ok : Follows c cwd d .entering (next (.ok ())))
      (error : ∀ f, Follows c cwd d .failed (next (.error f))) :
      Follows c cwd d .waiting (.call (.makeDirectories (.ofPlace d.dropLast)) next)
  | fresh {next : Except Fault Path → Program Outcome}
      (ok : ∀ n, Follows c cwd d (.staging n []) (next (.ok (.ofPlace (stagedPlace d n)))))
      (error : ∀ f, Follows c cwd d .failed (next (.error f))) :
      Follows c cwd d .entering (.call (.makeFresh (stagingPath (.ofPlace d))) next)
  | write {n : Nat} {files : List (String × String)} {a : Artifact}
      {next : Except Fault Unit → Program Outcome} (name : IsName a.name)
      (ok : Follows c cwd d (.staging n (files ++ [fileOf a])) (next (.ok ()))) :
      Follows c cwd d (.staging n files)
        (.call (.write ((Path.ofPlace (stagedPlace d n)).join a.name) a.text) next)
  | look {n : Nat} {next : Bool → Program Outcome}
      (there : Follows c cwd d (.replacing n) (next true))
      (missing : d ≠ [] → Follows c cwd d (.arriving n) (next false)) :
      Follows c cwd d (.staging n c.files) (.call (.present (.ofPlace d)) next)
  | check {n : Nat} {next : Except Fault Bool → Program Outcome}
      (directory : Follows c cwd d (.replacing n) (next (.ok true)))
      (file : Follows c cwd d (.cleaning n) (next (.ok false)))
      (error : ∀ f, Follows c cwd d (.cleaning n) (next (.error f))) :
      Follows c cwd d (.replacing n) (.call (.isDirectory (.ofPlace d)) next)
  | enter {n : Nat} {next : Except Fault Unit → Program Outcome} (root : d ≠ [])
      (ok : Follows c cwd d .returned (next (.ok ())))
      (error : ∀ f, Follows c cwd d (.cleaning n) (next (.error f))) :
      Follows c cwd d (.arriving n)
        (.call (.rename (.ofPlace (stagedPlace d n)) (.ofPlace d)) next)
  | retire {n : Nat} {next : Except Fault Unit → Program Outcome}
      (ok : Follows c cwd d (.swapping n) (next (.ok ())))
      (error : ∀ f, Follows c cwd d (.cleaning n) (next (.error f))) :
      Follows c cwd d (.replacing n)
        (.call (.rename (.ofPlace d) (.ofPlace (retiredPlace d n))) next)
  | swap {n : Nat} {next : Except Fault Unit → Program Outcome}
      (ok : Follows c cwd d (.clearing n) (next (.ok ())))
      (error : ∀ f, Follows c cwd d (.restoring n) (next (.error f))) :
      Follows c cwd d (.swapping n) (.call (.rename (.ofPlace (stagedPlace d n)) (.ofPlace d)) next)
  | putBack {n : Nat} {next : Except Fault Unit → Program Outcome}
      (ok : Follows c cwd d (.cleaning n) (next (.ok ())))
      (error : ∀ f, Follows c cwd d (.dropping n) (next (.error f))) :
      Follows c cwd d (.restoring n) (.call (.rename (.ofPlace (retiredPlace d n)) (.ofPlace d)) next)
  | drop {n : Nat} {next : Unit → Program Outcome} (rest : Follows c cwd d (.cleaning n) (next ())) :
      Follows c cwd d (.dropping n) (.call (.remove (.ofPlace (retiredPlace d n))) next)
  | clear {n : Nat} {next : Unit → Program Outcome} (rest : Follows c cwd d .returned (next ())) :
      Follows c cwd d (.clearing n) (.call (.remove (.ofPlace (retiredPlace d n))) next)
  | clean {n : Nat} {next : Unit → Program Outcome} (rest : Follows c cwd d .failed (next ())) :
      Follows c cwd d (.cleaning n) (.call (.remove (.ofPlace (stagedPlace d n))) next)
  | returned : Follows c cwd d .returned (.done (.ok (c.artifacts.map Artifact.name)))
  | failed {e : PublicationError} (destination : e.destination = .ofPlace d) :
      Follows c cwd d .failed (.done (.error e))

namespace Follows

variable {c : Writer} {cwd d : Place} {n : Nat}

theorem result {phase : Phase} {p : Program Outcome} {x : Outcome} (h : Follows c cwd d phase p)
    (hx : p.result? = some x) :
    phase = .returned ∧ x = .ok (c.artifacts.map Artifact.name) ∨
      phase = .failed ∧ ∃ e, x = .error e ∧ e.destination = .ofPlace d := by
  cases h with
  | returned =>
    cases hx
    exact .inl ⟨rfl, rfl⟩
  | failed hdestination =>
    cases hx
    exact .inr ⟨rfl, _, rfl, hdestination⟩
  | _ => cases hx

/-! ### Its parts -/

theorem log {phase : Phase} {level : Log.Level} {words : List String} {k : Unit → Program Outcome}
    (hk : Follows c cwd d phase (k ())) :
    Follows c cwd d phase (Program.log c.log logName level words >>= k) := by
  rw [Program.log]
  cases Log.line? c.log logName level words with
  | none => exact hk
  | some line => exact .print hk

theorem writeAll {k : Except Fault Unit → Program Outcome} {artifacts : List Artifact}
    {files : List (String × String)} (hnames : ∀ a ∈ artifacts, IsName a.name)
    (hk : Follows c cwd d (.staging n (files ++ artifacts.map fileOf)) (k (.ok ()))) :
    Follows c cwd d (.staging n files)
      (Publication.writeAll (.ofPlace (stagedPlace d n)) artifacts >>= k) := by
  induction artifacts generalizing files with
  | nil =>
    rw [List.map_nil, List.append_nil] at hk
    exact hk
  | cons a artifacts ih =>
    refine .write (hnames a List.mem_cons_self) ?_
    refine ih (fun b hb => hnames b (List.mem_cons_of_mem a hb)) ?_
    rw [List.append_assoc]
    exact hk

theorem putBack_then {k : Unit → Program Outcome} (hk : Follows c cwd d (.cleaning n) (k ())) :
    Follows c cwd d (.restoring n)
      (Publication.putBack c.log (.ofPlace (retiredPlace d n)) (.ofPlace d) >>= k) := by
  refine .putBack hk fun f => ?_
  show Follows c cwd d (.dropping n) ((Program.log c.log logName .warn _ >>= fun _ =>
    Program.ask (.remove (.ofPlace (retiredPlace d n)))) >>= k)
  rw [bind_assoc]
  exact log (.drop hk)

theorem replaceTarget {k : Except PublicationError Unit → Program Outcome}
    (hok : Follows c cwd d .returned (k (.ok ())))
    (herror : ∀ e, e.destination = .ofPlace d → Follows c cwd d (.cleaning n) (k (.error e))) :
    Follows c cwd d (.replacing n)
      (Publication.replaceTarget c.log (.ofPlace (stagedPlace d n)) (.ofPlace d) >>= k) := by
  rw [Publication.replaceTarget, retiredPath_stagedPlace]
  refine .retire ?_ fun f => herror _ rfl
  refine .swap (.clear hok) fun f => ?_
  show Follows c cwd d (.restoring n)
    ((Publication.putBack c.log (.ofPlace (retiredPlace d n)) (.ofPlace d) >>= fun _ =>
      (pure (.error ⟨.ofPlace d, .swap, some f⟩) : Program (Except PublicationError Unit))) >>= k)
  rw [bind_assoc]
  exact putBack_then (herror _ rfl)

theorem moveIn {k : Except PublicationError Unit → Program Outcome}
    (hok : Follows c cwd d .returned (k (.ok ())))
    (herror : ∀ e, e.destination = .ofPlace d → Follows c cwd d (.cleaning n) (k (.error e))) :
    Follows c cwd d (.staging n c.files)
      (Publication.moveIn c.log (.ofPlace (stagedPlace d n)) (.ofPlace d) >>= k) := by
  rw [Publication.moveIn]
  refine .look ?_ fun hroot => .enter hroot hok fun f => herror _ rfl
  exact .check (replaceTarget hok herror) (herror _ rfl) fun f => herror _ rfl

theorem stage {k : Except PublicationError Path → Program Outcome}
    (hnames : ∀ a ∈ c.artifacts, IsName a.name)
    (hok : ∀ n, Follows c cwd d (.staging n c.files) (k (.ok (.ofPlace (stagedPlace d n)))))
    (herror : ∀ e, e.destination = .ofPlace d → Follows c cwd d .failed (k (.error e))) :
    Follows c cwd d .entering (Publication.stage c.log (.ofPlace d) c.artifacts >>= k) := by
  rw [Publication.stage]
  refine .fresh (fun n => ?_) fun f => herror _ rfl
  -- With plain names no artifact fails to be written.
  show Follows c cwd d (.staging n [])
    ((Publication.writeAll (.ofPlace (stagedPlace d n)) c.artifacts >>= _) >>= k)
  rw [bind_assoc]
  refine writeAll hnames ?_
  show Follows c cwd d (.staging n c.files) ((Program.log c.log logName .debug _ >>= fun _ =>
    (pure (.ok (.ofPlace (stagedPlace d n))) : Program (Except PublicationError Path))) >>= k)
  rw [bind_assoc]
  exact log (hok n)

theorem publishAt (hnames : ∀ a ∈ c.artifacts, IsName a.name) :
    Follows c cwd d .waiting (Publication.publishAt c.log (.ofPlace d) c.artifacts) := by
  rw [Publication.publishAt, Path.parent_ofPlace]
  refine .way ?_ fun f => .failed rfl
  refine stage hnames (fun n => ?_) fun e he => .failed he
  refine moveIn ?_ fun e he => .clean (.failed he)
  exact log .returned

end Follows

/-- A publication follows the protocol. -/
theorem follows_program {c : Writer} {cwd d : Place} (hnames : ∀ a ∈ c.artifacts, IsName a.name)
    (hd : ((⟨true, cwd, false⟩ : Path).resolve (.ofText c.destination)).parts = d) :
    Follows c cwd d .waiting c.program := by
  refine .start ?_
  show Follows c cwd d .waiting
    (publishAt c.log ((⟨true, cwd, false⟩ : Path).resolve (.ofText c.destination)) c.artifacts)
  rw [Path.resolve_eq, hd]
  exact .publishAt hnames

end MemoryCompiler.Rtl
