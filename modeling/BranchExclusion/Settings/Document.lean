import BranchExclusion.Files.Store
import BranchExclusion.Settings.Basic
import BranchExclusion.Yaml.Node
import BranchExclusion.Yaml.Writer

/-!
# Settings as a YAML document

* `Fields`: the fields of a document, each of which may be left out;
* `Fields.ofNode`: the fields of a mapping;
* `Settings.ofYaml`: the settings that a text describes;
* `Settings.load`: the settings that a file describes;
* `Settings.toYaml`: a text that describes the settings.
-/

namespace BranchExclusion

open Yaml (Node)

/-- The fields of a document. -/
structure Fields where
  version : Option Nat
  exitPolicy : Option ExitPolicy
  flagPrefix : Option String
  flagType : Option String
  minChainLength : Option Nat
  indent : Option String
  deriving DecidableEq, Repr

/-- The names that a document may use. -/
inductive FieldName
  | version
  | exitPolicy
  | flagPrefix
  | flagType
  | minChainLength
  | indent
  deriving DecidableEq, Repr

namespace FieldName

/-- The written form. -/
def text : FieldName → String
  | version => "version"
  | exitPolicy => "exit_policy"
  | flagPrefix => "flag_prefix"
  | flagType => "flag_type"
  | minChainLength => "min_chain_len"
  | indent => "indent"

/-- All names, in the order in which they are written. -/
def all : List FieldName :=
  [version, exitPolicy, flagPrefix, flagType, minChainLength, indent]

/-- The name with that written form. -/
def ofText? (text : String) : Option FieldName := all.find? fun n => n.text == text

end FieldName

/-- The versions of the document that can be read. -/
def supportedVersions : List Nat := [1]

namespace Fields

/-- No field given. -/
def none : Fields := ⟨.none, .none, .none, .none, .none, .none⟩

/-- The tag of null. -/
def nullTag : String := "tag:yaml.org,2002:null"

/-- The scalar stands for no value. Only a plain one can, and a tag other than that of null makes a
value of it; with the tag of null nothing else is allowed. -/
def isAbsent (tag : Option String) (style : Yaml.ScalarStyle) (text : String) :
    Except SettingsError Bool :=
  if style = .plain then
    match tag with
    | .none => .ok (text.isEmpty || Yaml.isNull text)
    | some t =>
      if t = nullTag then if Yaml.isNull text then .ok true else .error .yaml else .ok false
  else .ok false

/-- An integer below `bound`: plain, or a literal block with the tag of integers. -/
def readCount (bound : Nat) (tag : Option String) (style : Yaml.ScalarStyle) (text : String) :
    Except SettingsError Nat :=
  if style = .plain ∨ (style = .literal ∧ tag = some "tag:yaml.org,2002:int") then
    match Yaml.readUnsigned bound text with
    | some n => .ok n
    | .none => .error .yaml
  else .error .yaml

/-- A policy: its name as a scalar, or as the tag of a plain scalar without a value. -/
def readPolicy (tag : Option String) (style : Yaml.ScalarStyle) (text : String) :
    Except SettingsError ExitPolicy :=
  match tag.map String.toList with
  | some ('!' :: name) =>
    match ExitPolicy.ofName? (String.ofList name) with
    | some policy =>
      if style = .plain ∧ (text.isEmpty || Yaml.isNull text) then .ok policy else .error .yaml
    | .none => .error .yaml
  | _ =>
    match ExitPolicy.ofName? text with
    | some policy => .ok policy
    | .none => .error .yaml

/-- The fields with one more value. -/
def put (f : Fields) (name : FieldName) (tag : Option String) (style : Yaml.ScalarStyle)
    (text : String) : Except SettingsError Fields := do
  match name with
  | .version => return { f with version := ← readCount UInt32.size tag style text }
  | .exitPolicy => return { f with exitPolicy := ← readPolicy tag style text }
  | .flagPrefix => return { f with flagPrefix := text }
  | .flagType => return { f with flagType := text }
  | .minChainLength => return { f with minChainLength := ← readCount UInt64.size tag style text }
  | .indent => return { f with indent := text }

/-- The fields of further entries of a mapping, where `seen` were given before. -/
def readEntries : Fields → List FieldName → List (Node × Node) → Except SettingsError Fields
  | f, _, [] => .ok f
  | f, seen, (.scalar _ _ key, .scalar tag style text) :: rest =>
    match FieldName.ofText? key with
    | .none => .error .yaml
    | some name => do
      if name ∈ seen then throw .yaml
      if ← isAbsent tag style text then readEntries f (name :: seen) rest
      else readEntries (← f.put name tag style text) (name :: seen) rest
  | _, _, _ => .error .yaml

/-- The fields of a document: none of an empty one, those of a mapping, and nothing else. -/
def ofNode : Option Node → Except SettingsError Fields
  | .none => .ok none
  | some (.mapping entries) => readEntries none [] entries
  | some (.scalar _ style text) =>
    if style = .plain ∧ text.isEmpty then .ok none else .error .yaml
  | some (.sequence _) => .error .yaml

/-- The settings with these fields, where `standard` supplies those that are not given. -/
def toSettings (f : Fields) : Settings where
  exitPolicy := f.exitPolicy.getD Settings.standard.exitPolicy
  flagPrefix := f.flagPrefix.getD Settings.standard.flagPrefix
  flagType := f.flagType.getD Settings.standard.flagType
  minChainLength := f.minChainLength.getD Settings.standard.minChainLength
  indent := f.indent.getD Settings.standard.indent

end Fields

namespace Settings

/-- The settings that a text describes. Its version is checked when all fields are read, and the
values after that. -/
def ofYaml (text : String) : Except SettingsError Settings := do
  let document ← (Yaml.readDocument text).mapError fun _ => SettingsError.yaml
  let fields ← Fields.ofNode document
  match fields.version with
  | none => throw .missingVersion
  | some version =>
    if !supportedVersions.contains version then
      throw (.unsupportedVersion version supportedVersions)
    let settings := fields.toSettings
    settings.validate
    return settings

/-- The settings that a file describes. -/
def load {m : Type → Type} [Monad m] [FileStore m] (path : String) :
    m (Except SettingsError Settings) := do
  match ← FileStore.read path with
  | .error e => return .error (.file e)
  | .ok text => return ofYaml text

/-- A text that describes the settings, one field after the other. -/
def toYaml (s : Settings) : String :=
  String.ofList <|
    Yaml.writeEntry "version" ['1'] ++
    Yaml.writeEntry "exit_policy" (Yaml.writeText s.exitPolicy.name) ++
    Yaml.writeEntry "flag_prefix" (Yaml.writeText s.flagPrefix) ++
    Yaml.writeEntry "flag_type" (Yaml.writeText s.flagType) ++
    Yaml.writeEntry "min_chain_len" (toString s.minChainLength).toList ++
    Yaml.writeEntry "indent" (Yaml.writeText s.indent)

end Settings

end BranchExclusion
