import BranchExclusion.Java.Token

/-!
# Syntax trees of Java

A tree keeps every token and comment of the source. Only what decides about statements and the bodies
in them has nodes of its own; other expressions and types are runs of tokens in the node around them.

* `NodeKind`, `LeafKind`, `Role`: what a node is, what a leaf is and what it is to its parent;
* `Tree`: nodes with extents;
* `Tree.hasFault`: a syntax error lies somewhere in the tree;
* `Tree.faults`: the syntax errors in source order.
-/

namespace BranchExclusion.Java

/-- What a node is. -/
inductive NodeKind
  | program
  | declaration
  | classDeclaration
  | interfaceDeclaration
  | enumDeclaration
  | recordDeclaration
  | annotationDeclaration
  | classBody
  | interfaceBody
  | enumBody
  | enumConstant
  | enumMembers
  | method
  | constructor
  | compactConstructor
  | field
  | staticInitializer
  | constructorBody
  | constructorCall
  | block
  | ifStatement
  | whileStatement
  | doStatement
  | forStatement
  | forEachStatement
  | synchronizedStatement
  | tryStatement
  | catchClause
  | finallyClause
  | labeledStatement
  | returnStatement
  | throwStatement
  | breakStatement
  | continueStatement
  | switchExpression
  | switchBlock
  | simpleStatement
  | lambda
  | creation
  | typeName
  | parentheses
  /-- Source that fits no rule. -/
  | error
  deriving DecidableEq, Repr

/-- What a leaf is. -/
inductive LeafKind
  | comment
  | name
  /-- A keyword, symbol, number or quoted text. -/
  | fixed (text : String)
  /-- Nothing, where the source lacks a token. -/
  | missing (what : String)
  deriving DecidableEq, Repr

/-- What a part is to its parent. -/
inductive Role
  | part
  | name
  | type
  | body
  | condition
  | consequence
  | alternative
  deriving DecidableEq, Repr

/-- A syntax tree. -/
inductive Tree
  | leaf (kind : LeafKind) (extent : Extent)
  | node (kind : NodeKind) (extent : Extent) (parts : List (Role × Tree))
  deriving Repr

namespace Tree

/-- The stretch of source that the tree covers. -/
def extent : Tree → Extent
  | leaf _ e => e
  | node _ e _ => e

/-- The parts of a node. -/
def parts : Tree → List (Role × Tree)
  | leaf .. => []
  | node _ _ ps => ps

/-- The tree is a node of that kind. -/
def isNode (kind : NodeKind) : Tree → Bool
  | leaf .. => false
  | node k _ _ => k == kind

/-- The tree is a comment. -/
def isComment : Tree → Bool
  | leaf .comment _ => true
  | _ => false

/-- The tree is the keyword or symbol `text`. -/
def isFixed (text : String) : Tree → Bool
  | leaf (.fixed t) _ => t == text
  | _ => false

/-- The tree is a node, a name or a comment, rather than a keyword or a symbol. -/
def isNamed : Tree → Bool
  | leaf .comment _ | leaf .name _ => true
  | leaf (.fixed _) _ | leaf (.missing _) _ => false
  | node .. => true

/-- The first part with that role. -/
def part? (role : Role) (parts : List (Role × Tree)) : Option Tree :=
  (parts.find? fun p => p.1 == role).map Prod.snd

mutual

/-- A syntax error lies somewhere in the tree. -/
def hasFault : Tree → Bool
  | leaf (.missing _) _ => true
  | leaf .. => false
  | node kind _ parts => kind == .error || anyFault parts

/-- A syntax error lies somewhere in the parts. -/
def anyFault : List (Role × Tree) → Bool
  | [] => false
  | p :: rest => p.2.hasFault || anyFault rest

end

/-- What is said about source that fits no rule. -/
def unexpected : String := "Unexpected syntax"

/-- What is said about a token that the source lacks. -/
def lacking (what : String) : String := "Missing \"" ++ what ++ "\""

mutual

/-- The syntax errors in source order, each before those inside it. -/
def faults : Tree → List (String × Span)
  | leaf (.missing what) e => [(lacking what, e.span)]
  | leaf .. => []
  | node kind e parts =>
    (if kind = .error then [(unexpected, e.span)] else []) ++ faultsOf parts

/-- The syntax errors of the parts. -/
def faultsOf : List (Role × Tree) → List (String × Span)
  | [] => []
  | p :: rest => p.2.faults ++ faultsOf rest

end

end Tree

end BranchExclusion.Java
