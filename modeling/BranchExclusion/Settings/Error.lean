import BranchExclusion.Files.Store

/-!
# Errors of settings

* `SettingsError`: why settings are refused or cannot be loaded, with the wording of each.
-/

namespace BranchExclusion

/-- Why settings are refused or cannot be loaded. -/
inductive SettingsError
  /-- A number outside its bounds. -/
  | range (field value min max hint : String)
  | invalidValue (field value hint : String)
  | missingVersion
  | unsupportedVersion (found : Nat) (supported : List Nat)
  | file (e : FileError)
  /-- The text is no YAML, or does not have the fields of settings. -/
  | yaml
  deriving DecidableEq, Repr

/-- The wording of the error. That of `yaml` ends where the cause would follow. -/
def SettingsError.message : SettingsError → String
  | range field value min max hint =>
    "Invalid range for field '" ++ field ++ "': " ++ value ++ " not in " ++ min ++ "..=" ++ max ++
      ". " ++ hint
  | invalidValue field value hint =>
    "Invalid value for field '" ++ field ++ "': '" ++ value ++ "'. " ++ hint
  | missingVersion =>
    "Missing 'version' field in configuration file. Add 'version: 1' to the top of your YAML file."
  | unsupportedVersion found supported =>
    "Unsupported configuration version " ++ toString found ++ ". Supported versions: " ++
      ", ".intercalate (supported.map toString)
  | file e => "IO error: " ++ e.message
  | yaml => "YAML parsing error:"

end BranchExclusion
