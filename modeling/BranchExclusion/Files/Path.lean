/-!
# Paths

* `steps`: the names in a path, without empty ones and those of the directory itself;
* `join`: a path within a directory;
* `fileName?`, `hasExtension`, `parent`: the last name, its extension and the rest.
-/

namespace BranchExclusion.Path

/-- The parts of a path between its slashes, where `part` holds, reversed, what the open part has so
far. -/
def partsFrom (part : List Char) : List Char → List (List Char)
  | [] => [part.reverse]
  | c :: cs => if c = '/' then part.reverse :: partsFrom [] cs else partsFrom (c :: part) cs

/-- The names of a path in order. The name `..` stays. -/
def steps (path : String) : List String :=
  ((partsFrom [] path.toList).filter fun p => p ≠ [] ∧ p ≠ ['.']).map String.ofList

/-- The path starts at the root of the file system. -/
def isAbsolute (path : String) : Bool := path.toList.head? = some '/'

/-- The path ends in a slash or a name of a directory itself, so that no file can be made there. -/
def namesDirectory (path : String) : Bool :=
  match path.toList.reverse with
  | '/' :: _ => true
  | ['.'] | '.' :: '/' :: _ => true
  | ['.', '.'] | '.' :: '.' :: '/' :: _ => true
  | _ => false

/-- The path of `relative` within `directory`. -/
def join (directory relative : String) : String :=
  if directory.isEmpty then relative
  else if directory.toList.getLast? = some '/' then directory ++ relative
  else directory ++ "/" ++ relative

/-- The path of names, one within the other. -/
def ofNames (names : List String) : String := "/".intercalate names

/-- The last name, unless it leads upwards. -/
def fileName? (path : String) : Option String :=
  (steps path).getLast?.bind fun name => if name = ".." then none else some name

/-- The text behind the last dot of a name, unless the name starts with that dot or has none. -/
def extension? (name : String) : Option String :=
  match (name.toList.reverse.span (· != '.')) with
  | (_, []) | (_, [_]) => none
  | (after, _ :: _) => some (String.ofList after.reverse)

/-- The last name of the path has that extension. -/
def hasExtension (extension path : String) : Bool :=
  ((fileName? path).bind extension?) == some extension

/-- A reversed path without slashes and names of the directory itself at its end. -/
def trimReversed : List Char → List Char
  | '/' :: rest => if rest = [] then ['/'] else trimReversed rest
  | '.' :: '/' :: rest => if rest = [] then ['/'] else trimReversed rest
  | cs => cs

/-- The path without its last name, which has to be there. -/
def parent (path : String) : String :=
  String.ofList (trimReversed (path.toList.reverse.dropWhile (· != '/'))).reverse

end BranchExclusion.Path
