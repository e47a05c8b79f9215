import BranchExclusion.Command.Run

/-!
# The command line

* an instance of `FileStore` for the file system;
* `main`: runs the program, prints what it says and ends with its code.
-/

namespace BranchExclusion

/-- The error of a file operation in the terms of the program. -/
def FileError.ofIO : IO.Error → FileError
  | .noFileOrDirectory .. => .notFound
  | .permissionDenied .. => .denied
  | .alreadyExists .. => .exists
  | .inappropriateType _ code _ => if code = 20 then .notDirectory else .isDirectory
  | e => .other (toString e)

/-- An operation with its error as a value. -/
def guarded {α : Type} (action : IO α) : IO (Except FileError α) := do
  match ← action.toBaseIO with
  | .ok a => return .ok a
  | .error e => return .error (.ofIO e)

instance : FileStore IO where
  kind path := do
    match ← guarded (do return ← (← IO.FS.realPath path).metadata) with
    | .ok info =>
      match info.type with
      | .dir => return some .directory
      | .file => return some .file
      | _ => return none
    | .error _ => return none
  read path := do
    match ← guarded (IO.FS.readBinFile path) with
    | .error e => return .error e
    | .ok bytes =>
      match String.fromUTF8? bytes with
      | some text => return .ok text
      | none => return .error .notUtf8
  entries path := do
    match ← guarded (do return ← (← IO.FS.realPath path).readDir) with
    | .error e => return .error e
    | .ok found =>
      return .ok ((found.toList.map fun e => e.fileName).mergeSort fun a b => decide (a ≤ b))
  write path text := guarded (IO.FS.writeFile path text)
  createDirectories path := guarded (IO.FS.createDirAll path)

end BranchExclusion

/-- Runs the program on the file system. -/
def main (arguments : List String) : IO UInt32 := do
  let ending ← BranchExclusion.Command.run arguments
  IO.print ending.out
  for line in ending.log do
    IO.eprintln line.display
  if !ending.error.isEmpty then
    IO.eprintln ending.error
  return UInt32.ofNat ending.code
