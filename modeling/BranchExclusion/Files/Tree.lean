import BranchExclusion.Files.Store

/-!
# Files in memory

* `FileTree`: the files and directories below a root;
* `FileTree.walk`: the place that names lead to;
* `Disk`: a file tree with a working directory;
* `Disk.place`, `Disk.find`: the place that a path leads to, and what is there;
* `Disk.read`, `Disk.entries`, `Disk.write`, `Disk.createDirectories`: the operations of a store;
* an instance of `FileStore` for programs with a `FileTree` as their state.

There are no links, so a place is all that a file is known by; several paths may lead there.
-/

namespace BranchExclusion

/-- A place below the root, by the names that lead to it. -/
abbrev FilePlace := List String

/-- The place next to `here` that a name leads to. The root is above itself. -/
def FilePlace.next (here : FilePlace) (name : String) : FilePlace :=
  if name = ".." then here.dropLast else here ++ [name]

/-- The files and directories below a root. -/
structure FileTree where
  /-- Each file with its text, or with none when its bytes are no text. -/
  files : List (FilePlace × Option String)
  directories : List FilePlace
  deriving DecidableEq, Repr

namespace FileTree

/-- A root with nothing below it. -/
def empty : FileTree := ⟨[], []⟩

/-- What is at a place. -/
def kindOf (t : FileTree) (p : FilePlace) : Option FileKind :=
  if p = [] ∨ p ∈ t.directories then some .directory
  else if (t.files.lookup p).isSome then some .file
  else none

/-- The place that names lead to from `here`, where every place on the way has to be a directory. -/
def walk (t : FileTree) (here : FilePlace) : List String → Except FileError FilePlace
  | [] => .ok here
  | name :: rest =>
    match t.kindOf here with
    | none => .error .notFound
    | some .file => .error .notDirectory
    | some .directory => walk t (here.next name) rest

/-- The names in the directory at a place, in the order of their bytes. -/
def namesIn (t : FileTree) (p : FilePlace) : List String :=
  let all := (t.files.map Prod.fst ++ t.directories).filter fun q => q ≠ [] ∧ q.dropLast = p
  ((all.filterMap List.getLast?).mergeSort fun a b => decide (a ≤ b)).eraseReps

/-- The tree with a file at a place, in place of the one that was there. -/
def putFile (t : FileTree) (p : FilePlace) (text : Option String) : FileTree :=
  { t with files := t.files.filter (fun f => f.1 ≠ p) ++ [(p, text)] }

/-- The tree with a file at a place, and the directories around it. -/
def addFile (t : FileTree) (p : FilePlace) (text : Option String) : FileTree :=
  let around := ((List.range (p.length - 1)).map fun n => p.take (n + 1)).filter
    fun q => q ∉ t.directories
  { t with directories := t.directories ++ around }.putFile p text

/-- The tree after one more directory was made at the place that `here` and a name lead to; nothing
happens when it is there already. -/
def enter (t : FileTree) (here : FilePlace) (name : String) : Except FileError (FileTree × FilePlace) :=
  match t.kindOf (here.next name) with
  | some .directory => .ok (t, here.next name)
  | some .file => .error .exists
  | none => .ok ({ t with directories := t.directories ++ [here.next name] }, here.next name)

end FileTree

/-- All files and directories, with the working directory. -/
structure Disk where
  /-- The files and directories below the root. -/
  tree : FileTree
  /-- The place at which relative paths start. -/
  home : FilePlace
  deriving DecidableEq, Repr

namespace Disk

/-- The place at which a path starts. -/
def start (d : Disk) (path : String) : FilePlace :=
  if Path.isAbsolute path then [] else d.home

/-- The place that a path leads to, whether or not something is there. -/
def place (d : Disk) (path : String) : Except FileError FilePlace := do
  if path.isEmpty then throw .notFound
  d.tree.walk (d.start path) (Path.steps path)

/-- The place that a path leads to, and what is there. -/
def find (d : Disk) (path : String) : Except FileError (FilePlace × FileKind) := do
  let p ← d.place path
  match d.tree.kindOf p with
  | none => throw .notFound
  | some .file =>
    if Path.namesDirectory path then throw .notDirectory
    return (p, .file)
  | some .directory => return (p, .directory)

/-- The text at a place, where there is a file with a text. -/
def textAt (d : Disk) (p : FilePlace) : Option String := (d.tree.files.lookup p).join

/-- The text of the file that a path leads to. -/
def read (d : Disk) (path : String) : Except FileError String := do
  match ← d.find path with
  | (_, .directory) => throw .isDirectory
  | (p, .file) =>
    match d.textAt p with
    | some text => return text
    | none => throw .notUtf8

/-- The names in the directory that a path leads to. -/
def entries (d : Disk) (path : String) : Except FileError (List String) := do
  match ← d.find path with
  | (_, .file) => throw .notDirectory
  | (p, .directory) => return d.tree.namesIn p

/-- The disk with that text at a place, in place of the one that was there. -/
def rewrite (d : Disk) (p : FilePlace) (text : String) : Disk :=
  { d with tree := d.tree.putFile p (some text) }

/-- The disk after a text was written to a path. -/
def write (d : Disk) (path text : String) : Except FileError Disk := do
  let p ← d.place path
  if Path.namesDirectory path || d.tree.kindOf p = some .directory then throw .isDirectory
  return d.rewrite p text

/-- The disk after the directories of a path were made. A file that stands in the way of the last one
is there already; one before that is no directory. -/
def createDirectories (d : Disk) (path : String) : Except FileError Disk := do
  let names := Path.steps path
  if names ≠ [] ∧ d.tree.kindOf (d.start path) ≠ some .directory then throw .notFound
  let (t, here) ← (names.dropLast.foldlM
    (fun (s : FileTree × FilePlace) name => s.1.enter s.2 name) (d.tree, d.start path)).mapError
    fun _ => FileError.notDirectory
  match names.getLast? with
  | none => return { d with tree := t }
  | some name => return { d with tree := (← t.enter here name).1 }

end Disk

namespace FileTree

/-- The tree as a disk whose working directory is the root. -/
def disk (t : FileTree) : Disk := ⟨t, []⟩

/-- An operation on the files of the state that can fail and changes them only when it succeeds. -/
def change (f : Disk → Except FileError Disk) : StateM FileTree (Except FileError Unit) := do
  match f (← get).disk with
  | .ok d => set d.tree; return .ok ()
  | .error e => return .error e

end FileTree

instance : FileStore (StateM FileTree) where
  kind path := return ((← get).disk.find path).toOption.map Prod.snd
  read path := return (← get).disk.read path
  entries path := return (← get).disk.entries path
  write path text := FileTree.change fun d => d.write path text
  createDirectories path := FileTree.change fun d => d.createDirectories path

end BranchExclusion
