import BranchExclusion.Java.Tree
import BranchExclusion.Text.Basic
import BranchExclusion.Text.Offset

/-!
# What a statement owns

A statement is kept as text, or it owns some of its parts as statements and blocks.

* `Tree.textIn`, `Tree.trimmedSlice`: the text of a tree and the text between two places;
* `Tree.trailer`: what follows the body of a statement;
* `Tree.ownedRoles?`: the roles of the parts that a statement owns;
* `Tree.isClause`: the handlers of a `try`, which own a block themselves;
* `Tree.label?`: the label of a labeled statement.
-/

namespace BranchExclusion.Java.Tree

/-- The text of a tree in its source. -/
def textIn (source : List Char) (t : Tree) : String :=
  String.ofList (Text.slice source t.extent.start.offset t.extent.stop.offset)

/-- The text of the first part with that role. -/
def partText (source : List Char) (role : Role) (parts : List (Role × Tree)) : String :=
  ((part? role parts).map (textIn source)).getD ""

/-- The text between two places, without white space at its ends. -/
def trimmedSlice (source : List Char) (start stop : Place) : String :=
  String.ofList (Text.trim (Text.slice source start.offset stop.offset))

/-- What follows the body of a statement that ends at `stop`. -/
def trailer (source : List Char) (stop : Place) (body : Tree) : String :=
  trimmedSlice source body.extent.stop stop

/-- The roles of the parts that a statement owns, of each role the first one; none when the statement
is kept as text. A `do` loop that lacks its condition is kept as text. -/
def ownedRoles? (source : List Char) (kind : NodeKind) (e : Extent) (parts : List (Role × Tree)) :
    Option (List Role) :=
  match kind, part? .body parts with
  | .ifStatement, _ => some [.consequence, .alternative]
  | .whileStatement, some _ | .forStatement, some _ | .forEachStatement, some _
  | .synchronizedStatement, some _ | .tryStatement, some _ => some [.body]
  | .doStatement, some body =>
    if (trailer source e.stop body).isEmpty then none else some [.body]
  | _, _ => none

/-- The node is a handler of the statement of the kind `outer`. -/
def isClause (outer kind : NodeKind) : Bool :=
  outer = .tryStatement && (kind = .catchClause || kind = .finallyClause)

/-- The label of a labeled statement: its first part that is no keyword or symbol, when another one
follows. -/
def label? (parts : List (Role × Tree)) : Option Tree :=
  match parts.filter fun p => p.2.isNamed with
  | label :: _ :: _ => some label.2
  | _ => none

end BranchExclusion.Java.Tree
