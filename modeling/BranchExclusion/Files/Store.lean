import BranchExclusion.Files.Path

/-!
# File stores

* `FileError`: why a file or a directory cannot be read or written, with the wording of each;
* `FileStore`: what a program can do with files, in a monad of its own;
* `FileStore.filesBelow`: the files in a directory and those below it.
-/

namespace BranchExclusion

/-- Why a file or a directory cannot be read or written. -/
inductive FileError
  | notFound
  | denied
  | exists
  | notDirectory
  | isDirectory
  | notUtf8
  | other (text : String)
  deriving DecidableEq, Repr

/-- The wording of the error. -/
def FileError.message : FileError → String
  | notFound => "No such file or directory (os error 2)"
  | denied => "Permission denied (os error 13)"
  | .exists => "File exists (os error 17)"
  | notDirectory => "Not a directory (os error 20)"
  | isDirectory => "Is a directory (os error 21)"
  | notUtf8 => "stream did not contain valid UTF-8"
  | other text => text

/-- What a path can lead to. -/
inductive FileKind
  | file
  | directory
  deriving DecidableEq, Repr

/-- What a program can do with files. -/
class FileStore (m : Type → Type) where
  /-- What the path leads to, if anything. -/
  kind : String → m (Option FileKind)
  /-- The text of a file. -/
  read : String → m (Except FileError String)
  /-- The names in a directory, in the order of their bytes. -/
  entries : String → m (Except FileError (List String))
  /-- A file with that text, in place of the one that was there. -/
  write : String → String → m (Except FileError Unit)
  /-- The directory and those around it, as far as they do not exist. -/
  createDirectories : String → m (Except FileError Unit)

namespace FileStore

variable {m : Type → Type} [Monad m] [FileStore m]

/-- The names that lead from `directory` to each file below it, a directory being entered at its own
place. `below` holds the names that lead from there to `path`, and `depth` bounds the nesting. -/
def filesWithin : Nat → String → List String → m (Except FileError (List (List String)))
  | 0, _, _ => return .ok []
  | depth + 1, path, below => do
    match ← entries path with
    | .error e => return .error e
    | .ok names =>
      names.foldlM (fun found name => do
        match found with
        | .error e => return .error e
        | .ok found =>
          let inner := Path.join path name
          match ← kind inner with
          | some .file => return .ok (found ++ [below ++ [name]])
          | some .directory =>
            return (← filesWithin depth inner (below ++ [name])).map (found ++ ·)
          | none => return .ok found) (.ok [])

/-- More levels of directories than the bytes of a path have room for. -/
def deepest : Nat := 4096

/-- The names that lead from a directory to each file below it. -/
def filesBelow (directory : String) : m (Except FileError (List (List String))) :=
  filesWithin deepest directory []

end FileStore

end BranchExclusion
