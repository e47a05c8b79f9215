import BranchExclusion.Chain.Policy

/-!
# Command line arguments

* `Flag`, `Named`: the options without and with a value;
* `Options`: what the arguments ask for;
* `UsageError`: why arguments are refused, with the wording of each reason;
* `Options.ofArguments`: the options that arguments give.

The value of an option is looked at when the next option or input is complete, so that an unknown
option right behind it is reported first.
-/

namespace BranchExclusion.Command

/-- The options without a value. -/
inductive Flag
  | inPlace
  | dryRun
  | verbose
  deriving DecidableEq, Repr

/-- The options with a value. -/
inductive Named
  | output
  | config
  | exitPolicy
  | report
  deriving DecidableEq, Repr

/-- An option or the inputs. -/
inductive Argument
  | flag (f : Flag)
  | named (n : Named)
  | inputs
  deriving DecidableEq, Repr

namespace Argument

/-- The options by their long names. -/
def longNames : List (String × Argument) :=
  [("output", named .output), ("in-place", flag .inPlace), ("config", named .config),
    ("exit-policy", named .exitPolicy), ("report", named .report), ("dry-run", flag .dryRun),
    ("verbose", flag .verbose)]

/-- The options by their short names. -/
def shortNames : List (Char × Argument) :=
  [('o', named .output), ('c', named .config), ('v', flag .verbose)]

/-- How messages name an argument. -/
def display : Argument → String
  | flag .inPlace => "--in-place"
  | flag .dryRun => "--dry-run"
  | flag .verbose => "--verbose"
  | named .output => "--output <OUTPUT>"
  | named .config => "--config <CONFIG>"
  | named .exitPolicy => "--exit-policy <EXIT_POLICY>"
  | named .report => "--report <REPORT>"
  | inputs => "<INPUTS>..."

end Argument

/-- Why arguments are refused. -/
inductive UsageError
  | noInputs
  | unexpected (text : String)
  | noValue (a : Argument)
  | surplusValue (a : Argument) (value : String)
  | unknownPolicy (text : String) (e : UnknownPolicy)
  | repeated (a : Argument)
  | conflict (first second : Argument)
  deriving DecidableEq, Repr

namespace UsageError

/-- The wording of the error, which is its first line. -/
def message : UsageError → String
  | noInputs => "error: the following required arguments were not provided:"
  | unexpected text => "error: unexpected argument '" ++ text ++ "' found"
  | noValue a => "error: a value is required for '" ++ a.display ++ "' but none was supplied"
  | surplusValue a value =>
    "error: unexpected value '" ++ value ++ "' for '" ++ a.display ++
      "' found; no more were expected"
  | unknownPolicy text e =>
    "error: invalid value '" ++ text ++ "' for '" ++ (Argument.named .exitPolicy).display ++ "': " ++
      e.message
  | repeated a => "error: the argument '" ++ a.display ++ "' cannot be used multiple times"
  | conflict first second =>
    "error: the argument '" ++ first.display ++ "' cannot be used with '" ++ second.display ++ "'"

end UsageError

/-- What the arguments ask for. -/
structure Options where
  inputs : List String
  output : Option String
  inPlace : Bool
  config : Option String
  exitPolicy : Option ExitPolicy
  report : Option String
  dryRun : Bool
  verbose : Bool
  /-- The options given, in order. -/
  given : List Argument
  deriving DecidableEq, Repr

/-- An argument whose values have not been looked at. -/
structure Pending where
  argument : Argument
  values : List String
  deriving DecidableEq, Repr

/-- Arguments that have been read in part. -/
structure Reading where
  options : Options
  pending : Option Pending
  deriving DecidableEq, Repr

namespace Options

/-- Nothing is asked for. -/
def none : Options := ⟨[], .none, false, .none, .none, .none, false, false, []⟩

/-- The options with one more option given, which may be given once. -/
def give (o : Options) (a : Argument) : Except UsageError Options :=
  if a ∈ o.given then .error (.repeated a) else .ok { o with given := o.given ++ [a] }

/-- The options with a flag raised. -/
def raise (o : Options) (f : Flag) : Except UsageError Options := do
  let o ← o.give (.flag f)
  match f with
  | .inPlace => return { o with inPlace := true }
  | .dryRun => return { o with dryRun := true }
  | .verbose => return { o with verbose := true }

/-- A path, which may not be empty. -/
def checkPath (a : Argument) (value : String) : Except UsageError String :=
  if value.isEmpty then .error (.noValue a) else .ok value

/-- The options with a value given. -/
def put (o : Options) (n : Named) (value : String) : Except UsageError Options := do
  let o ← o.give (.named n)
  match n with
  | .output => return { o with output := ← checkPath (.named n) value }
  | .config => return { o with config := ← checkPath (.named n) value }
  | .report => return { o with report := ← checkPath (.named n) value }
  | .exitPolicy =>
    match ExitPolicy.ofText value with
    | .ok policy => return { o with exitPolicy := policy }
    | .error e => throw (.unknownPolicy value e)

/-- The options with what was pending. -/
def settle (o : Options) : Option Pending → Except UsageError Options
  | .none => .ok o
  | some ⟨.inputs, values⟩ => do
    let paths ← values.mapM (checkPath .inputs)
    return { o with inputs := o.inputs ++ paths }
  | some ⟨.named n, values⟩ =>
    match values.head? with
    | .none => .error (.noValue (.named n))
    | some value => o.put n value
  | some ⟨.flag f, _⟩ => o.raise f

end Options

namespace Reading

/-- No argument read yet. -/
def start : Reading := ⟨.none, .none⟩

/-- What was pending is looked at. -/
def settle (r : Reading) : Except UsageError Reading := do
  return ⟨← r.options.settle r.pending, .none⟩

/-- An option, with the value that is attached to it. -/
def option (r : Reading) (a : Argument) (value : Option String) : Except UsageError Reading :=
  match a, value with
  | .flag f, .none => do
    let r ← r.settle
    return { r with options := ← r.options.raise f }
  | .flag f, some value => .error (.surplusValue (.flag f) value)
  | .named n, some value => do
    let r ← r.settle
    return { r with options := ← r.options.put n value }
  | a, _ => do return { ← r.settle with pending := some ⟨a, []⟩ }

/-- An input. -/
def input (r : Reading) (value : String) : Except UsageError Reading := do
  match r.pending with
  | some ⟨.inputs, values⟩ => return { r with pending := some ⟨.inputs, values ++ [value]⟩ }
  | _ => return { ← r.settle with pending := some ⟨.inputs, [value]⟩ }

/-- A long option, behind its two dashes. -/
def long (r : Reading) (text : List Char) : Except UsageError Reading :=
  let (name, rest) := text.span (· != '=')
  match Argument.longNames.lookup (String.ofList name) with
  | .none => .error (.unexpected ("--" ++ String.ofList name))
  | some a => r.option a (if rest.isEmpty then .none else some (String.ofList rest.tail))

/-- Short options, behind their dash. The first one with a value takes what follows it. -/
def short (r : Reading) : List Char → Except UsageError Reading
  | [] => .ok r
  | c :: rest =>
    match Argument.shortNames.lookup c with
    | .none => .error (.unexpected ("-" ++ String.singleton c))
    | some (.flag f) => do short (← r.option (.flag f) .none) rest
    | some a =>
      match rest with
      | [] => r.option a .none
      | '=' :: value => r.option a (some (String.ofList value))
      | value => r.option a (some (String.ofList value))

/-- The arguments, where `plain` says that the options have ended. -/
def read (r : Reading) (plain : Bool) : List String → Except UsageError Reading
  | [] => r.settle
  | text :: rest =>
    match plain, text.toList with
    | false, ['-', '-'] => r.read true rest
    | false, '-' :: '-' :: name => do (← r.long name).read false rest
    | false, '-' :: c :: more => do (← r.short (c :: more)).read false rest
    | _, _ =>
      match r.pending with
      | some ⟨.named n, []⟩ =>
        if plain then do (← r.input text).read plain rest
        else { r with pending := some ⟨.named n, [text]⟩ }.read plain rest
      | _ => do (← r.input text).read plain rest

end Reading

namespace Options

/-- The files are written to a directory or in place, not both. -/
def checkConflict (o : Options) : Except UsageError Unit :=
  match o.given.filter fun a => a = .named .output ∨ a = .flag .inPlace with
  | [first, second] => .error (.conflict first second)
  | _ => .ok ()

/-- The options that arguments give. There has to be an input. -/
def ofArguments (arguments : List String) : Except UsageError Options := do
  let r ← Reading.start.read false arguments
  r.options.checkConflict
  if r.options.inputs.isEmpty then throw .noInputs
  return r.options

end Options

end BranchExclusion.Command
