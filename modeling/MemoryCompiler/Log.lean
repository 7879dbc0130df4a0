import MemoryCompiler.Text.Blank

/-!
# Log lines

Messages have a level and a namespace; a threshold holds back those of lower levels. Nothing is
written to the standard output but what was asked for: warnings go to one channel, all other
messages to another.
-/

namespace MemoryCompiler

/-- Where a line of the console goes. -/
inductive Channel where
  | output
  | warning
  | error
deriving DecidableEq, Repr

structure ConsoleLine where
  channel : Channel
  words : List String
deriving DecidableEq, Repr

namespace Log

/-- How much a message matters. -/
inductive Level where
  | debug
  | info
  | warn
  | error
deriving DecidableEq, Repr

def Level.rank : Level → Nat
  | debug => 0
  | info => 1
  | warn => 2
  | error => 3

/-- The least level that is written; none at all is silence. -/
abbrev Threshold := Option Level

/-- The threshold that a setting names, whatever its case and the blanks around it. Every other
setting, and no setting, stands for `info`. -/
def Threshold.ofSetting (setting : Option String) : Threshold :=
  let name := (Text.trim (setting.getD "")).toLower
  if name = "debug" then some .debug
  else if name = "warn" then some .warn
  else if name = "error" then some .error
  else if name = "silent" then none
  else some .info

def Threshold.passes (t : Threshold) (level : Level) : Bool := t.any fun least => least.rank ≤ level.rank

/-- The line of a message, if its level passes. -/
def line? (t : Threshold) (name : String) (level : Level) (words : List String) :
    Option ConsoleLine :=
  if t.passes level then
    some ⟨if level = .warn then .warning else .error, ("[sram:" ++ name ++ "]") :: words⟩
  else none

end Log

end MemoryCompiler
