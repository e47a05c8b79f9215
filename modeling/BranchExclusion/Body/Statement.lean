import BranchExclusion.Source.Span

/-!
# Statements

A method body is a collection of numbered blocks. A statement names the blocks it owns by their
numbers and never holds them, so that a block can change without its owner.

* `Expr`: source text, or one of the few expressions that are built here;
* `Statement`: the closed set of statements; only the shapes that decide about runs of conditionals
  are told apart, all else is kept as source text (`Verbatim`);
* `Statement.childBlocks`: the blocks a statement owns.
-/

namespace BranchExclusion

/-- The number of a block in its body. -/
abbrev BlockId := Nat

/-- An expression: source text, or one of the shapes that flags and assertions need. -/
inductive Expr
  | source (text : String)
  | name (text : String)
  | bool (value : Bool)
  | xor (lhs rhs : Expr)
  deriving DecidableEq, Repr, Inhabited

/-- Source text kept as written, with its place. -/
structure Verbatim where
  text : String
  /-- The bytes of `text` in the source; empty for what no source wrote. -/
  range : ByteRange
  span : Span
  deriving DecidableEq, Repr, Inhabited

/-- The ways in which control leaves a block. -/
inductive ExitKind
  | returns
  | throws
  | breaks
  | continues
  deriving DecidableEq, Repr, Inhabited

/-- Statements with one body block. -/
inductive CompoundKind
  | forLoop
  | forEach
  | whileLoop
  | doWhile
  | synchronized
  deriving DecidableEq, Repr, Inhabited

/-- `if (condition) thenBranch else elseBranch`. -/
structure Conditional where
  /-- The line of the keyword, by which a conditional is known in its file. -/
  line : Nat
  condition : Expr
  /-- Absent when the branch is a lone semicolon. -/
  thenBranch : Option BlockId
  /-- A rung `else if` is a block that holds one conditional. -/
  elseBranch : Option BlockId
  span : Span
  deriving DecidableEq, Repr, Inhabited

/-- A loop or `synchronized`: source text around one body block. -/
structure Compound where
  kind : CompoundKind
  header : String
  body : BlockId
  /-- What follows the body, such as the condition of a `do` loop. -/
  trailer : Option String
  span : Span
  deriving DecidableEq, Repr, Inhabited

/-- One `catch` with its body. -/
structure CatchClause where
  header : String
  body : BlockId
  deriving DecidableEq, Repr, Inhabited

/-- A `try` with its handlers. -/
structure TryStatement where
  header : String
  body : BlockId
  catches : List CatchClause
  finallyBlock : Option BlockId
  span : Span
  deriving DecidableEq, Repr, Inhabited

/-- A statement of a block. -/
inductive Statement
  | conditional (c : Conditional)
  | block (id : BlockId)
  | exit (kind : ExitKind) (text : Verbatim)
  | compound (c : Compound)
  | tryStatement (t : TryStatement)
  | labeled (label : String) (body : Statement) (span : Span)
  | declaration (type name : String) (value : Option Expr)
  | assignment (target : String) (value : Expr)
  | assertion (condition : Expr)
  | comment (text : String) (span : Span)
  | other (text : Verbatim)
  deriving DecidableEq, Repr, Inhabited

namespace TryStatement

/-- The body, the handlers and the final block, in source order. -/
def blocks (t : TryStatement) : List BlockId :=
  t.body :: (t.catches.map CatchClause.body ++ t.finallyBlock.toList)

end TryStatement

namespace Statement

/-- Control leaves the block at this statement, without a condition. -/
def isExit : Statement → Bool
  | exit .. => true
  | _ => false

/-- Comments stand between statements and do nothing. -/
def isComment : Statement → Bool
  | comment .. => true
  | _ => false

/-- The conditional that the statement is, if it is one. -/
def conditional? : Statement → Option Conditional
  | conditional c => some c
  | _ => none

/-- The blocks the statement owns itself, in source order. -/
def childBlocks : Statement → List BlockId
  | conditional c => c.thenBranch.toList ++ c.elseBranch.toList
  | block id => [id]
  | compound c => [c.body]
  | tryStatement t => t.blocks
  | labeled _ body _ => body.childBlocks
  | exit .. | declaration .. | assignment .. | assertion .. | comment .. | other .. => []

@[simp] theorem childBlocks_conditional (c : Conditional) :
    (conditional c).childBlocks = c.thenBranch.toList ++ c.elseBranch.toList := rfl

@[simp] theorem childBlocks_block (id : BlockId) : (block id).childBlocks = [id] := rfl

@[simp] theorem childBlocks_compound (c : Compound) : (compound c).childBlocks = [c.body] := rfl

@[simp] theorem childBlocks_tryStatement (t : TryStatement) :
    (tryStatement t).childBlocks = t.blocks := rfl

@[simp] theorem childBlocks_labeled (label : String) (body : Statement) (span : Span) :
    (labeled label body span).childBlocks = body.childBlocks := rfl

@[simp] theorem conditional?_eq_some {s : Statement} {c : Conditional} :
    s.conditional? = some c ↔ s = conditional c := by
  cases s <;> simp [conditional?]

end Statement

end BranchExclusion
