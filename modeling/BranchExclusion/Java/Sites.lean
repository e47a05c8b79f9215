import BranchExclusion.Java.Reading
import BranchExclusion.Java.Owned

/-!
# Where the bodies of a source are

* `BodySite`: a method-like body of a source with its name and the types around it;
* `Tree.sites`: the bodies of a tree in source order.

Bodies are those of methods and constructors, of initializers and of lambdas in braces. A body is
followed by those nested in its statements, which are looked for only where a statement is kept as text:
conditions, headers and resources are passed over.
-/

namespace BranchExclusion.Java

/-- A method-like body of a source. -/
structure BodySite where
  /-- The names of the types around it, from the outside. -/
  scope : List String
  name : String
  /-- The method, initializer or lambda as a whole. -/
  whole : Tree
  /-- The part in braces. -/
  body : Tree

namespace Tree

/-- The name that a type declaration or an object with a body of its own adds to the scope of its
body. -/
def scopeName? (source : List Char) (kind : NodeKind) (parts : List (Role × Tree)) :
    Option String :=
  match kind with
  | .classDeclaration | .interfaceDeclaration | .enumDeclaration | .recordDeclaration
  | .annotationDeclaration => some (partText source .name parts)
  | .creation => some ("<anonymous " ++ partText source .type parts ++ ">")
  | _ => none

/-- The name of the body that a node has, if it is of a kind with a body; `outer` is the kind of the
node around it. -/
def bodyName? (source : List Char) (outer kind : NodeKind) (e : Extent)
    (parts : List (Role × Tree)) : Option String :=
  match kind with
  | .method | .constructor | .compactConstructor => some (partText source .name parts)
  | .staticInitializer => some "static"
  | .block => if outer = .classBody then some "init" else none
  | .lambda => some ("lambda$" ++ toString e.start.line)
  | _ => none

/-- The part in braces of a node that has a body. -/
def bodyPart? (kind : NodeKind) (whole : Tree) : Option Tree :=
  if kind = .block then some whole else part? .body whole.parts

/-- How a tree is met on the way to the bodies in it. -/
inductive Meeting
  /-- As a part of a node of that kind. -/
  | inside (outer : NodeKind)
  /-- As a statement of a body. -/
  | statement
  /-- As a body, all of whose parts are statements. -/
  | body
  deriving DecidableEq, Repr

namespace Meeting

/-- The kind of the node around, as far as it matters for what a tree is met as. -/
def outer : Meeting → NodeKind
  | inside kind => kind
  | statement | body => .block

end Meeting

mutual

/-- The bodies in a tree, where `scope` holds the names of the types around it. -/
def sitesIn (source : List Char) (meeting : Meeting) (scope : List String) : Tree → List BodySite
  | leaf .. => []
  | node kind e parts =>
    if meeting = .body ∨ (meeting = .statement ∧ kind = .block) then
      sitesOfStatements source scope parts
    else
      match if meeting = .statement then ownedRoles? source kind e parts else none with
      | some roles => sitesOwned source kind .statement scope roles parts
      | none =>
        if meeting = .statement ∧ kind = .labeledStatement ∧ (label? parts).isSome then
          sitesOfLast source scope parts
        else
          match bodyName? source meeting.outer kind e parts, bodyPart? kind (node kind e parts) with
          | some name, some body =>
            ⟨scope, name, node kind e parts, body⟩ ::
              if kind = .block then sitesOfStatements source scope parts
              else sitesOwned source kind .body scope [.body] parts
          | some _, none =>
            if kind = .lambda then sitesOfParts source kind scope scope parts else []
          | none, _ =>
            sitesOfParts source kind scope (scope ++ (scopeName? source kind parts).toList) parts

/-- The bodies in the parts of a node, where the part that is the node's body has the scope
`inner`. -/
def sitesOfParts (source : List Char) (outer : NodeKind) (scope inner : List String) :
    List (Role × Tree) → List BodySite
  | [] => []
  | (role, t) :: rest =>
    t.sitesIn source (.inside outer) (if role = .body then inner else scope) ++
      sitesOfParts source outer scope inner rest

/-- The bodies in the statements of a body. -/
def sitesOfStatements (source : List Char) (scope : List String) :
    List (Role × Tree) → List BodySite
  | [] => []
  | (_, t) :: rest => t.sitesIn source .statement scope ++ sitesOfStatements source scope rest

/-- The bodies in the last part that is no keyword or symbol, as a statement. -/
def sitesOfLast (source : List Char) (scope : List String) : List (Role × Tree) → List BodySite
  | [] => []
  | (_, t) :: rest =>
    if rest.any fun p => p.2.isNamed then sitesOfLast source scope rest
    else if t.isNamed then t.sitesIn source .statement scope
    else []

/-- The bodies in the first parts with these roles, which are met as `meeting` says, and in the
handlers of a `try`. -/
def sitesOwned (source : List Char) (outer : NodeKind) (meeting : Meeting) (scope : List String)
    (roles : List Role) : List (Role × Tree) → List BodySite
  | [] => []
  | (role, leaf ..) :: rest => sitesOwned source outer meeting scope (roles.erase role) rest
  | (role, node kind e parts) :: rest =>
    if isClause outer kind then
      sitesOwned source kind .statement scope [.body] parts ++
        sitesOwned source outer meeting scope roles rest
    else if role ∈ roles then
      (node kind e parts).sitesIn source meeting scope ++
        sitesOwned source outer meeting scope (roles.erase role) rest
    else sitesOwned source outer meeting scope roles rest

end

/-- The bodies of a source, each followed by those nested in it. -/
def sites (source : List Char) (t : Tree) : List BodySite :=
  t.sitesIn source (.inside .program) []

end Tree

end BranchExclusion.Java
