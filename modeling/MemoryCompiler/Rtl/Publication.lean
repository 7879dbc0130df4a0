import MemoryCompiler.Files.Program
import MemoryCompiler.Rtl.Verilog

/-!
# Publishing artifacts

Artifacts are published all or none. They are written into a fresh directory beside the
destination, which is then renamed to the destination. A directory already there is set aside
first and removed only after the new one is in place; if the swap fails it is put back, unless
another writer's set has taken the place meanwhile.
-/

namespace MemoryCompiler.Rtl

open Files (Fault Path Program)

/-- The steps at which a publication can fail. -/
inductive PublicationStep where
  | parentDirectory
  | stagingDirectory
  | stagedArtifact
  | destination
  | swap
deriving DecidableEq, Repr

/-- What failed at a step. -/
def PublicationStep.text : PublicationStep → String
  | parentDirectory => "cannot create parent directory"
  | stagingDirectory => "cannot create staging directory"
  | stagedArtifact => "cannot write staged artifact"
  | destination => "destination exists and is not a directory"
  | swap => "cannot publish staged artifacts"

/-- A publication that failed. -/
structure PublicationError where
  destination : Path
  step : PublicationStep
  cause : Option Fault

/-- The sentence of a failure; only a reason of the host's own is told. -/
def PublicationError.message (e : PublicationError) : String :=
  let reason := match e.cause.bind Fault.reason? with
    | some reason => ": " ++ reason
    | none => ""
  "Cannot write artifacts to " ++ e.destination.text ++ " (" ++ e.step.text ++ ")" ++ reason

namespace Publication

def logName : String := "rtl"

/-- The name that fresh staging directories beside a destination start with. -/
def stagingPath (target : Path) : Path := target.parent.join ("." ++ target.name ++ ".staging-")

/-- Where a directory is set aside while another takes its place. -/
def retiredPath (staging : Path) : Path := staging.extend ".retired"

def countText (artifacts : List Artifact) : String :=
  Decimal.natText artifacts.length ++ " artifact(s)"

/-- Writes artifacts into a directory, in order, up to the first that fails. -/
def writeAll (directory : Path) : List Artifact → Program (Except Fault Unit)
  | [] => pure (.ok ())
  | a :: rest => do
    match ← Program.ask (.write (directory.join a.name) a.text) with
    | .ok () => writeAll directory rest
    | .error f => pure (.error f)

/-- Writes artifacts into a fresh directory beside the target; it is removed again if one fails. -/
def stage (log : Log.Threshold) (target : Path) (artifacts : List Artifact) :
    Program (Except PublicationError Path) := do
  match ← Program.ask (.makeFresh (stagingPath target)) with
  | .error f => return .error ⟨target, .stagingDirectory, some f⟩
  | .ok staging =>
    match ← writeAll staging artifacts with
    | .error f =>
      Program.ask (.remove staging)
      return .error ⟨target, .stagedArtifact, some f⟩
    | .ok () =>
      Program.log log logName .debug ["staged " ++ countText artifacts ++ " in " ++ staging.text]
      return .ok staging

/-- Puts back the directory that was set aside. If that fails, what is now in place stays. -/
def putBack (log : Log.Threshold) (retired target : Path) : Program Unit := do
  match ← Program.ask (.rename retired target) with
  | .ok () => return
  | .error f =>
    Program.log log logName .warn
      ["cannot restore " ++ target.text ++ ", keeping the set now in place:", "Error: " ++ f.text]
    Program.ask (.remove retired)

/-- Sets the directory at the target aside and renames the staged one to the target. -/
def replaceTarget (log : Log.Threshold) (staging target : Path) :
    Program (Except PublicationError Unit) := do
  let retired := retiredPath staging
  match ← Program.ask (.rename target retired) with
  | .error f => return .error ⟨target, .swap, some f⟩
  | .ok () =>
    match ← Program.ask (.rename staging target) with
    | .ok () =>
      Program.ask (.remove retired)
      return .ok ()
    | .error f =>
      putBack log retired target
      return .error ⟨target, .swap, some f⟩

/-- Moves the staged directory to the target. -/
def moveIn (log : Log.Threshold) (staging target : Path) :
    Program (Except PublicationError Unit) := do
  if ← Program.ask (.present target) then
    match ← Program.ask (.isDirectory target) with
    | .error f => return .error ⟨target, .swap, some f⟩
    | .ok false => return .error ⟨target, .destination, none⟩
    | .ok true => replaceTarget log staging target
  else
    match ← Program.ask (.rename staging target) with
    | .ok () => return .ok ()
    | .error f => return .error ⟨target, .swap, some f⟩

/-- Publishes artifacts at a path from the root and answers their names. -/
def publishAt (log : Log.Threshold) (target : Path) (artifacts : List Artifact) :
    Program (Except PublicationError (List String)) := do
  match ← Program.ask (.makeDirectories target.parent) with
  | .error f => return .error ⟨target, .parentDirectory, some f⟩
  | .ok () =>
    match ← stage log target artifacts with
    | .error e => return .error e
    | .ok staging =>
      match ← moveIn log staging target with
      | .error e =>
        Program.ask (.remove staging)
        return .error e
      | .ok () =>
        Program.log log logName .debug
          ["published " ++ countText artifacts ++ " to " ++ target.text]
        return .ok (artifacts.map Artifact.name)

end Publication

/-- Publishes artifacts as the whole content of a directory and answers their names. -/
def publish (log : Log.Threshold) (destination : Path) (artifacts : List Artifact) :
    Program (Except PublicationError (List String)) := do
  let directory ← Program.ask .workingDirectory
  Publication.publishAt log (directory.resolve destination) artifacts

end MemoryCompiler.Rtl
