import MemoryCompiler.CommandLine.Run
import MemoryCompiler.Diagram.Row

/-!
# The command line program

Answers the requests of a run from the files and the console of the machine. The log level comes
from the environment variable `SRAM_LOG_LEVEL`.
-/

namespace MemoryCompiler.CommandLine

open Files (Fault Path Program Request)

/-- The result of an action on the machine, or the reason why it failed. -/
def attemptAction {α : Type} (action : IO α) : IO (Except Fault α) := do
  try return .ok (← action)
  catch e => return .error (.other (toString e))

/-- Makes a directory whose name ends in a random number, and tries again if it is taken. -/
def makeFreshDirectory (p : Path) : Nat → IO (Except Fault Path)
  | 0 => return .error .taken
  | tries + 1 => do
    let path := p.extend (Decimal.natText (← IO.rand 100000 999999))
    match ← attemptAction (IO.FS.createDir path.text) with
    | .ok () => return .ok path
    | .error f => if tries = 0 then return .error f else makeFreshDirectory p tries

def removePath (p : Path) : IO Unit := do
  match ← attemptAction (IO.FS.removeFile p.text) with
  | .ok () => return
  | .error _ => discard (attemptAction (IO.FS.removeDirAll p.text))

/-- Carries out one request. -/
def carryOut : (r : Request) → IO r.Answer
  | .workingDirectory => return Path.ofText (← IO.currentDir).toString
  | .read p => attemptAction (IO.FS.readFile p.text)
  | .write p text => attemptAction (IO.FS.writeFile p.text text)
  | .makeDirectories p => attemptAction (IO.FS.createDirAll p.text)
  | .makeFresh p => makeFreshDirectory p 100
  | .present p => return (← attemptAction (IO.FS.realPath p.text)).isOk
  | .isDirectory p => attemptAction do (← IO.FS.realPath p.text).isDir
  | .rename source target => attemptAction (IO.FS.rename source.text target.text)
  | .remove p => removePath p
  | .print line =>
    let text := " ".intercalate line.words
    if line.channel = .output then IO.println text else IO.eprintln text

/-- Runs a program on the machine. -/
def execute {α : Type} : Program α → IO α
  | .done a => return a
  | .call r next => do execute (next (← carryOut r))

end MemoryCompiler.CommandLine

open MemoryCompiler

/-- Runs the command line; the exit code tells whether it succeeded. -/
def main (arguments : List String) : IO UInt32 := do
  let log := Log.Threshold.ofSetting (← IO.getEnv "SRAM_LOG_LEVEL")
  let environment : CommandLine.Environment := { log, layouter := Diagram.rowPlacement }
  match ← CommandLine.execute (CommandLine.run environment arguments) with
  | .ok _ => return 0
  | .error e =>
    CommandLine.execute (Files.Program.log log "cli" .error [e.message])
    return 1
