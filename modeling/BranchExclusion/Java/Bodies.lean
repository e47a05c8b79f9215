import BranchExclusion.Body.Basic
import BranchExclusion.Java.Owned

/-!
# Bodies of trees

* `Tree.statement`: a statement with the blocks it owns, which are added to a body;
* `Tree.bodyIn`: the body that a tree in braces describes.

The root of a body comes first; every other block comes behind the blocks nested in it, in source order.
Only conditionals, loops, `synchronized`, `try`, labels, blocks and exits are told apart; every other
statement is kept as text.
-/

namespace BranchExclusion.Java.Tree

/-- A text without one opening parenthesis at its start and one closing one at its end, if it has both,
and without white space at its ends. -/
def stripParentheses (text : List Char) : List Char :=
  match Text.trim text with
  | '(' :: rest => if rest.getLast? = some ')' then Text.trim rest.dropLast else '(' :: rest
  | trimmed => trimmed

/-- The text of the condition of a statement. -/
def conditionText (source : List Char) (parts : List (Role × Tree)) : Expr :=
  .source (String.ofList (stripParentheses (partText source .condition parts).toList))

/-- The tree as it stands in the source. -/
def verbatim (source : List Char) (t : Tree) : Verbatim :=
  ⟨t.textIn source, t.extent.range, t.extent.span⟩

/-- The tree as a statement that is kept as text. -/
def asText (source : List Char) (t : Tree) : Statement := .other (t.verbatim source)

/-- The way in which a statement of that kind leaves its block. -/
def exitKind? : NodeKind → Option ExitKind
  | .returnStatement => some .returns
  | .throwStatement => some .throws
  | .breakStatement => some .breaks
  | .continueStatement => some .continues
  | _ => none

/-- The kind of loop, or `synchronized`, that a statement of that kind is. -/
def compoundKind? : NodeKind → Option CompoundKind
  | .forStatement => some .forLoop
  | .forEachStatement => some .forEach
  | .whileStatement => some .whileLoop
  | .doStatement => some .doWhile
  | .synchronizedStatement => some .synchronized
  | _ => none

/-- What a block is to the statement that owns it. -/
inductive OwnedAs
  | consequence
  | alternative
  | body
  | handler (header : String)
  | final
  deriving DecidableEq, Repr

/-- What the first part of that role is to its statement. -/
def ownedAs : Role → OwnedAs
  | .consequence => .consequence
  | .alternative => .alternative
  | _ => .body

/-- What the body of a clause of `try` is to the statement. -/
def clauseAs (source : List Char) (kind : NodeKind) (e : Extent) (parts : List (Role × Tree)) :
    OwnedAs :=
  if kind = .finallyClause then .final
  else
    let stop := ((part? .body parts).map fun b => b.extent.start).getD e.stop
    .handler (trimmedSlice source e.start stop)

/-- The tree is a brace of the block around it, or stands where one is missing. -/
def isBrace : Tree → Bool
  | leaf (.fixed text) _ | leaf (.missing text) _ => text == leftBrace || text == rightBrace
  | _ => false

/-- The block that is owned in that way. -/
def owned? (as : OwnedAs) (owned : List (OwnedAs × BlockId)) : Option BlockId := owned.lookup as

/-- The handlers among the blocks of a `try`. -/
def handlers (owned : List (OwnedAs × BlockId)) : List CatchClause :=
  owned.filterMap fun o =>
    match o.1 with
    | .handler header => some ⟨header, o.2⟩
    | _ => none

/-- The statement of a node that owns a body. -/
def statementAround (source : List Char) (kind : NodeKind) (e : Extent) (body : Tree) (id : BlockId)
    (owned : List (OwnedAs × BlockId)) : Statement :=
  let header := trimmedSlice source e.start body.extent.start
  match compoundKind? kind with
  | some compound =>
    let trailer := trailer source e.stop body
    .compound ⟨compound, header, id, if trailer.isEmpty then none else some trailer, e.span⟩
  | none => .tryStatement ⟨header, id, handlers owned, owned? .final owned, e.span⟩

/-- The statement of a node that owns blocks. -/
def statementOf (source : List Char) (kind : NodeKind) (e : Extent) (parts : List (Role × Tree))
    (owned : List (OwnedAs × BlockId)) : Statement :=
  match part? .body parts, owned? .body owned with
  | some body, some id => statementAround source kind e body id owned
  | _, _ =>
    .conditional ⟨e.start.line, conditionText source parts, owned? .consequence owned,
      owned? .alternative owned, e.span⟩

/-- The body with one more block, and its number. -/
def allocate (b : Block) : StateM Body BlockId := do
  let body ← get
  set (body.alloc b)
  return body.size

/-- The block that a statement makes for its owner: itself, or a block without braces around it. -/
def blockOf (t : Tree) : Statement → StateM Body BlockId
  | .block id => return id
  | s => allocate (Block.unbraced s t.extent.span t.hasFault)

mutual

/-- A statement, the blocks it owns added to the body. -/
def statement (source : List Char) : Tree → StateM Body Statement
  | leaf .comment e => return .comment ((leaf .comment e).textIn source) e.span
  | leaf kind e => return (leaf kind e).asText source
  | node .block e parts => do
    let inner ← statements source parts
    return .block (← allocate ⟨inner, e.span, true, (node .block e parts).hasFault, false⟩)
  | node kind e parts => do
    let whole : Tree := node kind e parts
    match exitKind? kind, ownedRoles? source kind e parts with
    | some exit, _ => return .exit exit (whole.verbatim source)
    | none, some roles =>
      return statementOf source kind e parts (← ownedBlocks source kind none roles parts)
    | none, none =>
      match if kind = .labeledStatement then label? parts else none with
      | none => return whole.asText source
      | some label =>
        let body ← lastStatement source parts
        return .labeled (label.textIn source) (body.getD (whole.asText source)) e.span

/-- The statements of a block. -/
def statements (source : List Char) : List (Role × Tree) → StateM Body (List Statement)
  | [] => return []
  | (_, t) :: rest => do
    if t.isBrace then statements source rest
    else
      let s ← t.statement source
      return s :: (← statements source rest)

/-- The last part that is no keyword or symbol, as a statement. -/
def lastStatement (source : List Char) : List (Role × Tree) → StateM Body (Option Statement)
  | [] => return none
  | (_, t) :: rest => do
    if rest.any fun p => p.2.isNamed then lastStatement source rest
    else if t.isNamed then return some (← t.statement source)
    else return none

/-- The blocks of the first parts with these roles and those of the handlers of a `try`; `clause` says
what the block of a handler is. A branch that is a lone semicolon has no block. -/
def ownedBlocks (source : List Char) (outer : NodeKind) (clause : Option OwnedAs)
    (roles : List Role) : List (Role × Tree) → StateM Body (List (OwnedAs × BlockId))
  | [] => return []
  | (role, leaf kind e) :: rest => do
    if role ∈ roles ∧ (role = .body ∨ kind ≠ .fixed ";") then
      let s ← (leaf kind e).statement source
      let id ← blockOf (leaf kind e) s
      return (clause.getD (ownedAs role), id) ::
        (← ownedBlocks source outer clause (roles.erase role) rest)
    else ownedBlocks source outer clause (roles.erase role) rest
  | (role, node kind e parts) :: rest => do
    if isClause outer kind then
      let here ← ownedBlocks source kind (some (clauseAs source kind e parts)) [.body] parts
      return here ++ (← ownedBlocks source outer clause roles rest)
    else if role ∈ roles then
      let s ← (node kind e parts).statement source
      let id ← blockOf (node kind e parts) s
      return (clause.getD (ownedAs role), id) ::
        (← ownedBlocks source outer clause (roles.erase role) rest)
    else ownedBlocks source outer clause roles rest

end

/-- The first part that is a node, a name or a comment, comments passed over, is a call of another
constructor. -/
def startsWithConstructorCall (t : Tree) : Bool :=
  (t.parts.find? fun p => p.2.isNamed && !p.2.isComment).any fun p => p.2.isNode .constructorCall

/-- The body that a tree in braces describes. -/
def bodyIn (source : List Char) (t : Tree) : Body :=
  let root : Block := ⟨[], t.extent.span, true, t.hasFault, t.startsWithConstructorCall⟩
  let (inner, body) := (statements source t.parts).run (Body.ofRoot root)
  body.set Body.root { root with statements := inner }

end BranchExclusion.Java.Tree
