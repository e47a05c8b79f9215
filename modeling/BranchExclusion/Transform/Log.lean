import BranchExclusion.Chain.Discovery
import BranchExclusion.Chain.Instrument

/-!
# Log

* `LogLine`: one line of the log with its level;
* `Visit.log`: what is logged about a scanned block.
-/

namespace BranchExclusion

/-- How much a line of the log matters. -/
inductive LogLevel
  | debug
  | info
  | warning
  | error
  deriving DecidableEq, Repr

/-- The written form. -/
def LogLevel.name : LogLevel → String
  | debug => "DEBUG"
  | info => "INFO"
  | warning => "WARN"
  | error => "ERROR"

/-- One line of the log. -/
structure LogLine where
  level : LogLevel
  text : String
  deriving DecidableEq, Repr

namespace LogLine

/-- The level and the text. -/
def display (l : LogLine) : String := l.level.name ++ " " ++ l.text

/-- The line is shown, where lines of the level debug are shown only on demand. -/
def isShown (verbose : Bool) (l : LogLine) : Bool := verbose || l.level != .debug

end LogLine

/-- What is logged about a scanned block: its size and its chains, then each chain. -/
def Visit.log (v : Visit) : List LogLine :=
  ⟨.debug, "scanned block BlockId(" ++ toString v.block ++ "): " ++ toString v.size ++
    " statements, " ++ toString v.found.length ++ " chains"⟩ ::
  v.found.map fun e => ⟨.info, "chain found at " ++ e.report.display⟩

end BranchExclusion
