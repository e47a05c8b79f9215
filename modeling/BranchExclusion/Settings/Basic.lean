import BranchExclusion.Chain.Flag
import BranchExclusion.Chain.Scan
import BranchExclusion.Settings.Error
import BranchExclusion.Text.Alphabetic
import BranchExclusion.Text.Basic
import BranchExclusion.Text.Escape
import BranchExclusion.Text.Numeric

/-!
# Settings

* `Settings`: the exit policy, how flags are written, the least chain length and the indentation;
* `Settings.standard`: the values of fields that are not given;
* `Settings.validate`: the first field that is refused, in the order length, prefix, type,
  indentation;
* `Settings.scanner`, `Settings.flagStyle`: the settings as the passes take them.
-/

namespace BranchExclusion

/-- What a run can be told. -/
structure Settings where
  exitPolicy : ExitPolicy
  flagPrefix : String
  flagType : String
  minChainLength : Nat
  /-- The white space of one level of indentation. -/
  indent : String
  deriving DecidableEq, Repr

/-- A letter, an underscore or a dollar sign, then any number of these and of digits. -/
def isJavaIdentifier (text : String) : Bool :=
  match text.toList with
  | [] => false
  | c :: rest =>
    (Text.isAlphabetic c || c == '_' || c == '$') &&
      rest.all fun c => Text.isAlphabetic c || Text.isNumeric c || c == '_' || c == '$'

/-- More than white space, and no character that would end the declaration of a flag. -/
def isFlagType (text : String) : Bool :=
  !text.toList.all Text.isBlank &&
    !text.toList.any fun c => c == ';' || c == '{' || c == '}' || c == '\n' || c == '\r'

/-- One blank or tab at least, and nothing else. -/
def isIndentation (text : String) : Bool :=
  !text.isEmpty && text.toList.all Text.isIndent

namespace Settings

/-- The settings of a run that is told nothing. -/
def standard : Settings := ⟨.barrier, "branch", "boolean", 2, "    "⟩

/-- The least chain length that settings may ask for. -/
def leastLength : Nat := 2

/-- The greatest chain length that settings may ask for. -/
def greatestLength : Nat := 64

/-- The least chain length is within its bounds. -/
def checkLength (s : Settings) : Except SettingsError Unit :=
  if leastLength ≤ s.minChainLength ∧ s.minChainLength ≤ greatestLength then .ok ()
  else .error (.range "min_chain_len" (toString s.minChainLength) (toString leastLength)
    (toString greatestLength) "A chain needs at least two conditionals")

/-- A flag's name is the prefix and a number, so the prefix is an identifier. -/
def checkPrefix (s : Settings) : Except SettingsError Unit :=
  if isJavaIdentifier s.flagPrefix then .ok ()
  else .error (.invalidValue "flag_prefix" s.flagPrefix
    "Flag names are '<prefix><line>', so the prefix must be a Java identifier")

/-- The type fits into a declaration. -/
def checkType (s : Settings) : Except SettingsError Unit :=
  if isFlagType s.flagType then .ok ()
  else .error (.invalidValue "flag_type" s.flagType "Must be a Java type, e.g. 'boolean'")

/-- The indentation is white space. -/
def checkIndent (s : Settings) : Except SettingsError Unit :=
  if isIndentation s.indent then .ok ()
  else .error (.invalidValue "indent" (String.ofList (Text.escape s.indent.toList))
    "Only spaces and tabs are allowed")

/-- Nothing, or why the first refused field is refused. -/
def validate (s : Settings) : Except SettingsError Unit := do
  s.checkLength
  s.checkPrefix
  s.checkType
  s.checkIndent

/-- How blocks are scanned. -/
def scanner (s : Settings) : Scanner := .new s.exitPolicy s.minChainLength

/-- How flags are written. -/
def flagStyle (s : Settings) : FlagStyle := ⟨s.flagPrefix, s.flagType⟩

end Settings

end BranchExclusion
