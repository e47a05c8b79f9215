import BranchExclusion.Chain.Instrument
import BranchExclusion.Files.Store
import BranchExclusion.Layout.Body
import BranchExclusion.Settings.Error

/-!
# Errors of a transformation

* `TransformError`: why a file is not transformed, with the wording of each reason.
-/

namespace BranchExclusion

/-- Why a file is not transformed. -/
inductive TransformError
  | file (e : FileError)
  | parse (text : String)
  | render (text : String)
  | instrument (e : SealedBlock)
  | settings (e : SettingsError)
  /-- A body of the file names a block that it does not have. -/
  | fault (f : Body.Fault)
  deriving DecidableEq, Repr

namespace TransformError

/-- The wording of an error about a text that cannot be laid out or put together. -/
def renderText (text : String) : String := "Render error: " ++ text

/-- The wording of the error. -/
def message : TransformError → String
  | file e => "IO error: " ++ e.message
  | parse text => "Parse error: " ++ text
  | render text => renderText text
  | instrument e => "Instrumentation error: " ++ e.message
  | settings e => "Configuration error: " ++ e.message
  | fault f => renderText (Layout.RenderError.fault f).message

end TransformError

end BranchExclusion
