import BranchExclusion.Command.Arguments
import BranchExclusion.Report.Json
import BranchExclusion.Settings.Document

/-!
# The program

* `Failure`: why a run ends early, with the causes;
* `Ending`: what a run prints and how it ends;
* `transformFile`: one file read and transformed;
* `collectInputs`: the files that the arguments name;
* `run`: the program, on any store of files.
-/

namespace BranchExclusion.Command

variable {m : Type → Type} [Monad m] [FileStore m]

/-- Why a run ends early: what failed, and the causes of that, each the cause of the one before. -/
structure Failure where
  context : String
  causes : List String
  deriving DecidableEq, Repr

namespace Failure

/-- A failure without a cause. -/
def alone (text : String) : Failure := ⟨text, []⟩

/-- A text whose further lines start with `indent`. -/
def indentLines (indent : String) (text : String) : String :=
  String.ofList (text.toList.flatMap fun c => if c = '\n' then c :: indent.toList else [c])

/-- The wording of the failure. Causes are numbered when there are several. -/
def message (f : Failure) : String :=
  let causes := match f.causes with
    | [] => ""
    | [cause] => "\n\nCaused by:\n    " ++ indentLines "    " cause
    | causes =>
      "\n\nCaused by:" ++ String.join (causes.zipIdx.map fun c =>
        "\n    " ++ toString c.2 ++ ": " ++ indentLines "       " c.1)
  "Error: " ++ f.context ++ causes

/-- The failure to load settings. An error of YAML ends its message, since what follows depends on the
reader. -/
def settings (path : String) (e : SettingsError) : Failure :=
  let context := "loading configuration " ++ path
  match e with
  | .file cause => ⟨context, [e.message, cause.message]⟩
  | .yaml => ⟨context ++ "\n\nCaused by:\n    0: " ++ e.message, []⟩
  | _ => ⟨context, [e.message]⟩

/-- The failure of an operation on files. -/
def file (context : String) (e : FileError) : Failure := ⟨context, [e.message]⟩

end Failure

/-- What a run has printed so far. -/
structure Printed where
  out : String
  log : List LogLine
  deriving DecidableEq, Repr

namespace Printed

/-- Nothing. -/
def empty : Printed := ⟨"", []⟩

/-- Some more text. -/
def print (p : Printed) (text : String) : Printed := { p with out := p.out ++ text }

/-- One more line of the log. -/
def tell (p : Printed) (level : LogLevel) (text : String) : Printed :=
  { p with log := p.log ++ [⟨level, text⟩] }

/-- More lines of the log. -/
def tellAll (p : Printed) (lines : List LogLine) : Printed := { p with log := p.log ++ lines }

end Printed

/-- What a run prints and how it ends. -/
structure Ending where
  code : Nat
  out : String
  log : List LogLine
  error : String
  deriving DecidableEq, Repr

/-- One input file. -/
structure Input where
  path : String
  /-- The path below the argument under which it was found. -/
  relative : String
  deriving DecidableEq, Repr

/-- One file read and transformed. -/
def transformFile (s : Settings) (path : String) : m Transformed := do
  match ← FileStore.read path with
  | .error e => return ⟨.error (.file e), []⟩
  | .ok text => return transformText s path text

/-- The files that one argument names: the file itself, or every source below the directory. -/
def inputsOf (root : String) : m (Except Failure (List Input)) := do
  match ← FileStore.kind root with
  | none => return .error (.alone ("input not found: " ++ root))
  | some .file => return .ok [⟨root, (Path.fileName? root).getD root⟩]
  | some .directory =>
    match ← FileStore.filesBelow root with
    | .error e => return .error (.file ("walking " ++ root) e)
    | .ok found =>
      let sources := found.filter fun names =>
        Path.hasExtension Java.fileExtension (Path.ofNames names)
      return .ok (sources.map fun names =>
        ⟨Path.join root (Path.ofNames names), Path.ofNames names⟩)

/-- The files that the arguments name. There has to be one. -/
def collectInputs : List String → m (Except Failure (List Input))
  | [] => return .ok []
  | root :: rest => do
    match ← inputsOf root with
    | .error f => return .error f
    | .ok here => return (← collectInputs rest).map (here ++ ·)

/-- The settings of a run: those of the file, with the policy of the arguments. -/
def settingsOf (o : Options) : m (Except Failure Settings) := do
  let loaded ← match o.config with
    | none => pure (.ok Settings.standard)
    | some path => do pure ((← Settings.load path).mapError (Failure.settings path))
  return loaded.map fun s => { s with exitPolicy := o.exitPolicy.getD s.exitPolicy }

/-- A line about each chain of a file. -/
def chainLines (r : FileResult) : String :=
  String.join (r.chains.map fun c =>
    r.path ++ ": " ++ c.display ++ " [" ++ ", ".intercalate (c.members.map toString) ++ "]\n")

/-- The transformed file where the options want it. -/
def deliver (o : Options) (input : Input) (r : FileResult) (p : Printed) :
    m (Except Failure Printed) := do
  if o.dryRun then return .ok (p.print (chainLines r))
  match o.output with
  | some directory =>
    let target := Path.join directory input.relative
    let around := Path.parent target
    match ← FileStore.createDirectories around with
    | .error e => return .error (.file ("creating " ++ around) e)
    | .ok () =>
      return (← FileStore.write target r.output).mapError (Failure.file ("writing " ++ target))
        |>.map fun _ => p
  | none =>
    if !o.inPlace then return .ok (p.print r.output)
    if !r.modified then return .ok p
    return (← FileStore.write input.path r.output).mapError
      (Failure.file ("writing " ++ input.path)) |>.map fun _ => p

/-- The state of a run while its results are delivered. -/
structure Delivery where
  printed : Printed
  /-- The results so far. -/
  processed : List FileResult
  /-- The number of files with errors. -/
  failures : Nat

/-- The results delivered, each with its errors logged, and the failure that ended this early, if
there was one. -/
def deliverAll (o : Options) : List (Input × Except TransformError FileResult) → Delivery →
    m (Delivery × Option Failure)
  | [], d => return (d, none)
  | (input, .error e) :: rest, d =>
    deliverAll o rest { d with
      printed := d.printed.tell .error (input.path ++ ": " ++ e.message)
      failures := d.failures + 1 }
  | (input, .ok r) :: rest, d => do
    let told := d.printed.tellAll (r.errors.map fun e => ⟨.warning, e⟩)
    match ← deliver o input r told with
    | .error f => return ({ d with printed := told }, some f)
    | .ok printed =>
      deliverAll o rest ⟨printed, d.processed ++ [r], d.failures + if r.hasErrors then 1 else 0⟩

/-- The report written where the options want it. -/
def deliverReport (o : Options) (d : Delivery) : m (Except Failure Printed) := do
  match o.report with
  | none => return .ok d.printed
  | some path =>
    match ← FileStore.write path (reportText d.processed) with
    | .error e => return .error (.file ("writing report " ++ path) e)
    | .ok () => return .ok (d.printed.tell .info ("report written to " ++ path))

/-- The end of a run that failed. -/
def fail (p : Printed) (f : Failure) : Ending := ⟨1, p.out, p.log, f.message⟩

/-- What is logged about the whole run. -/
def summary (processed : List FileResult) : String :=
  toString (processed.flatMap FileResult.chains).length ++ " chains in " ++
    toString processed.length ++ " files, " ++
    toString (processed.filter FileResult.modified).length ++ " files modified"

/-- The inputs transformed and delivered. -/
def process (o : Options) (s : Settings) (inputs : List Input) : m Ending := do
  let start := Printed.empty.tell .info ("processing " ++ toString inputs.length ++
    " files (exit policy: " ++ s.exitPolicy.name ++ ")")
  let transformed ← inputs.mapM fun input => transformFile s input.path
  let logged := start.tellAll (transformed.flatMap Transformed.log)
  let results := inputs.zip (transformed.map Transformed.result)
  match ← deliverAll o results ⟨logged, [], 0⟩ with
  | (d, some f) => return fail d.printed f
  | (d, none) =>
    match ← deliverReport o d with
    | .error f => return fail d.printed f
    | .ok printed =>
      let printed := printed.tell .info (summary d.processed)
      if d.failures = 0 then return ⟨0, printed.out, printed.log, ""⟩
      return fail printed (.alone (toString d.failures ++ " of " ++ toString inputs.length ++
        " files had errors"))

/-- The program with its options. -/
def perform (o : Options) : m Ending := do
  match ← settingsOf o with
  | .error f => return fail .empty f
  | .ok s =>
    match ← collectInputs o.inputs with
    | .error f => return fail .empty f
    | .ok [] => return fail .empty (.alone "no .java files found")
    | .ok inputs => process o s inputs

/-- The program with its arguments. Only lines of the log that are to be shown are kept. -/
def run (arguments : List String) : m Ending := do
  match Options.ofArguments arguments with
  | .error e => return ⟨2, "", [], e.message⟩
  | .ok o =>
    let ending ← perform o
    return { ending with log := ending.log.filter (LogLine.isShown o.verbose) }

end BranchExclusion.Command
