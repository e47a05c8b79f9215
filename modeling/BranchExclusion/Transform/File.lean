import BranchExclusion.Java.Unit
import BranchExclusion.Settings.Basic
import BranchExclusion.Transform.Error
import BranchExclusion.Transform.Unit

/-!
# Transforming a file

* `Renderer`: how one body is laid out;
* `Layouts`: the bodies laid out so far, as edits of the file;
* `Instrumentation.layouts`: the instrumented bodies laid out, the shorter ones first, so that a body is
  laid out before the one it is nested in;
* `FileResult`: a transformed file with what was found in it;
* `transformText`: the whole way from the text of a file to its result.
-/

namespace BranchExclusion

/-- The bodies laid out so far. -/
structure Layouts where
  /-- None of them lies within another. -/
  edits : List Edit
  errors : List String
  log : List LogLine
  deriving DecidableEq, Repr

/-- How a method is laid out with the edits within its body, or why it cannot be. -/
abbrev Renderer := Method → List Edit → Except String String

/-- The layout of a body where each depth adds `unit`. -/
def Renderer.standard (unit : String) : Renderer := fun m inner =>
  (Layout.renderBody m.body unit m.indent inner).mapError fun e =>
    TransformError.renderText e.message

namespace Layouts

/-- No body yet. -/
def empty : Layouts := ⟨[], [], []⟩

/-- One more body. The edits within it are placed in its text; when it cannot be laid out, it keeps its
text and the edits within it stay. -/
def add (render : Renderer) (path : String) (l : Layouts) (m : Method) : Layouts :=
  let inner := l.edits.filter fun e => m.bodyRange.contains e.range
  let rest := l.edits.filter fun e => !m.bodyRange.contains e.range
  match render m inner with
  | .ok text => { l with edits := rest ++ [⟨m.bodyRange, text⟩] }
  | .error reason =>
    let name := path ++ ": " ++ m.qualifiedName
    ⟨rest ++ inner, l.errors ++ [name ++ ": " ++ reason],
      l.log ++ [⟨.warning, name ++ " left unchanged: " ++ reason⟩]⟩

end Layouts

/-- The methods from the shortest body to the longest; those of equal length keep their order. -/
def byLength (methods : List Method) : List Method :=
  methods.mergeSort fun a b => decide (a.bodyRange.length ≤ b.bodyRange.length)

/-- The instrumented bodies laid out. -/
def Instrumentation.layouts (i : Instrumentation) (render : Renderer) : Layouts :=
  (byLength (i.instrumented.filterMap fun index => i.unit.methods[index]?)).foldl
    (Layouts.add render i.unit.path) .empty

/-- A transformed file. -/
structure FileResult where
  path : String
  /-- The text after the transformation, which is the one before when nothing changed. -/
  output : String
  /-- The chains found, those of unchanged methods included. -/
  chains : List ChainReport
  /-- Some body was laid out anew. -/
  modified : Bool
  totals : Outcome
  /-- The syntax errors, the sealed blocks and the bodies that could not be laid out. -/
  errors : List String
  deriving DecidableEq, Repr

namespace FileResult

/-- Something went wrong with a part of the file. -/
def hasErrors (r : FileResult) : Bool := !r.errors.isEmpty

end FileResult

/-- What became of a file, with the log. -/
structure Transformed where
  result : Except TransformError FileResult
  log : List LogLine

/-- A syntax error as a line about its file. -/
def SourceFault.display (path : String) (f : SourceFault) : String :=
  path ++ ":" ++ toString f.span.startLine ++ ": " ++ f.message

namespace SourceUnit

/-- What is logged about a file that was read. -/
def log (u : SourceUnit) : LogLine :=
  ⟨.debug, "parsed " ++ u.path ++ ": " ++ toString u.methods.length ++ " method bodies, " ++
    toString u.faults.length ++ " syntax errors"⟩

/-- The file with its chains found and instrumented. -/
def instrument (u : SourceUnit) (s : Settings) : Except Body.Fault Instrumentation := do
  (← u.detect s.scanner).instrument s.flagStyle

end SourceUnit

namespace Instrumentation

/-- What is logged about a file that is done. -/
def summary (i : Instrumentation) (modified : Bool) : LogLine :=
  if modified then
    ⟨.info, i.unit.path ++ ": " ++ toString i.totals.chains ++ " chains, " ++
      toString i.totals.flags ++ " flags, " ++ toString i.totals.assertions ++ " assertions"⟩
  else ⟨.debug, i.unit.path ++ ": unchanged"⟩

/-- The file put together from the text of its source and the bodies laid out. -/
def finish (i : Instrumentation) (unit : String) : Transformed :=
  let layouts := i.layouts (.standard unit)
  let log := i.log ++ layouts.log
  let path := i.unit.path
  let modified := !layouts.edits.isEmpty
  match splice i.unit.source.toList layouts.edits with
  | .error e => ⟨.error (.render e.message), log⟩
  | .ok output =>
    ⟨.ok ⟨path, String.ofList output, i.registry.reports, modified, i.totals,
        i.unit.faults.map (SourceFault.display path) ++
          i.failures.map (fun e => path ++ ": " ++ e.message) ++ layouts.errors⟩,
      log ++ [i.summary modified]⟩

end Instrumentation

/-- The text of a file transformed. The settings are checked first. -/
def transformText (s : Settings) (path source : String) : Transformed :=
  match s.validate with
  | .error e => ⟨.error (.settings e), []⟩
  | .ok () =>
    let unit := Java.readUnit path source
    match unit.instrument s with
    | .error f => ⟨.error (.fault f), [unit.log]⟩
    | .ok i =>
      let done := i.finish s.indent
      ⟨done.result, unit.log :: done.log⟩

end BranchExclusion
