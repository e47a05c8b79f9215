import BranchExclusion.Java.Bodies
import BranchExclusion.Java.Sites
import BranchExclusion.Source.Method

/-!
# Java source files

* `lineIndent`: the white space at the start of the line of a place;
* `BodySite.method`: the method at a place in a source;
* `readUnit`: a source file with its methods and its syntax errors.
-/

namespace BranchExclusion.Java

/-- The text behind the last line end of a text. -/
def lastLine (text : List Char) : List Char := (text.reverse.takeWhile (· != '\n')).reverse

/-- The blanks and tabs at the start of the line that holds the byte `offset`. -/
def lineIndent (source : List Char) (offset : Nat) : String :=
  String.ofList ((lastLine (Text.takeBytes offset source) ++ Text.dropBytes offset source).takeWhile
    Text.isIndent)

namespace BodySite

/-- The method at a place in a source. -/
def method (source : List Char) (s : BodySite) : Method where
  owner := ".".intercalate s.scope
  name := s.name
  span := s.whole.extent.span
  bodyRange := s.body.extent.range
  indent := lineIndent source s.body.extent.start.offset
  body := s.body.bodyIn source

end BodySite

/-- A source file with its methods and its syntax errors. -/
def readUnit (path source : String) : SourceUnit :=
  let text := source.toList
  let tree := Tree.ofSource text
  ⟨path, source, (tree.sites text).map (BodySite.method text),
    tree.faults.map fun f => ⟨f.1, f.2⟩⟩

/-- The name of the language. -/
def languageName : String := "java"

/-- The file extension of sources that can be read. -/
def fileExtension : String := languageName

end BranchExclusion.Java
