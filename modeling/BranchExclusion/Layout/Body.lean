import BranchExclusion.Body.Basic
import BranchExclusion.Layout.Line
import BranchExclusion.Source.Edit

/-!
# Laying out a method body

Branches and loop bodies always get braces, and an alternative that holds nothing but a conditional
becomes `else if`. Source text is kept and moved to its new depth. The texts of bodies nested in a
statement replace their ranges in its text first.

* `Page`: lines, with the number of nested bodies placed in them;
* `Printer`: the body, its indentation and the nested bodies;
* `Printer.statement`, `Printer.block`, `Printer.conditional`: the lines of each;
* `renderBody`: the text from the opening to the closing brace.
-/

namespace BranchExclusion.Layout

/-- Why a body cannot be laid out. -/
inductive RenderError
  | fault (f : Body.Fault)
  /-- A `do` loop without the condition that follows its body. -/
  | noCondition (header : String) (line : Nat)
  | edit (e : EditError)
  /-- Some nested bodies lie in no statement that is kept as text. -/
  | outside (lost total : Nat)
  /-- Some nested body lies in two statements that are kept as text. -/
  | repeated (placed total : Nat)
  deriving DecidableEq, Repr

namespace RenderError

/-- The wording of the error. -/
def message : RenderError → String
  | fault (.missingBlock id) => "block " ++ toString id ++ " does not exist"
  | fault .endless => "a block lies within itself"
  | noCondition header line =>
      "`" ++ header ++ "` loop at line " ++ toString line ++ " has no condition"
  | edit e => e.message
  | outside lost total =>
      toString lost ++ " of " ++ toString total ++
        " nested bodies lie outside any opaque statement"
  | repeated placed total =>
      toString total ++ " nested bodies were placed " ++ toString placed ++ " times"

end RenderError

/-- The expression is a single word. -/
def isWord : Expr → Bool
  | .name _ | .bool _ => true
  | .source _ | .xor .. => false

/-- The text of an operand, in parentheses unless it is a single word. -/
def operandText (e : Expr) (text : Line) : Line :=
  if isWord e then text else '(' :: text ++ [')']

/-- The text of an expression. -/
def exprText : Expr → Line
  | .source text => text.toList
  | .name text => text.toList
  | .bool true => "true".toList
  | .bool false => "false".toList
  | .xor lhs rhs => operandText lhs (exprText lhs) ++ " ^ ".toList ++ operandText rhs (exprText rhs)

/-- Lines, and how many nested bodies were placed in them. -/
structure Page where
  lines : List Line
  placed : Nat
  deriving DecidableEq, Repr, Inhabited

namespace Page

/-- No line. -/
def empty : Page := ⟨[], 0⟩

/-- One line and no nested body. -/
def line (l : Line) : Page := ⟨[l], 0⟩

/-- The lines of `p`, then those of `q`. -/
def append (p q : Page) : Page := ⟨p.lines ++ q.lines, p.placed + q.placed⟩

instance : Append Page := ⟨append⟩

@[simp] theorem lines_append (p q : Page) : (p ++ q).lines = p.lines ++ q.lines := rfl

@[simp] theorem placed_append (p q : Page) : (p ++ q).placed = p.placed + q.placed := rfl

end Page

/-- What a layout needs beside the statement itself. -/
structure Printer where
  body : Body
  /-- The indentation of the line that holds the opening brace. -/
  base : Line
  /-- What each further depth adds. -/
  unit : Line
  /-- Bodies nested in statements of this one, already laid out. -/
  nested : List Edit

namespace Printer

/-- The indentation of a depth. -/
def indent (p : Printer) (depth : Nat) : Line := indentation p.base p.unit depth

/-- One line of a depth. -/
def row (p : Printer) (depth : Nat) (text : Line) : Page := .line (p.indent depth ++ text)

/-- The nested bodies that lie in a range, with offsets from its start. -/
def inside (p : Printer) (range : ByteRange) : List Edit :=
  if range.isEmpty then []
  else (p.nested.filter fun e => range.contains e.range).map fun e =>
    { e with range := e.range.relativeTo range.start }

/-- The lines of source text with its nested bodies exchanged. -/
def verbatim (p : Printer) (v : Verbatim) (depth : Nat) (lead : Line) :
    Except RenderError Page := do
  let inside := p.inside v.range
  let text ← (splice v.text.toList inside).mapError .edit
  return ⟨reindent (p.indent depth) lead v.span.startCol text, inside.length⟩

/-- Pages one after the other. -/
def concat (pages : List Page) : Page := pages.foldl Page.append Page.empty

/-- The lines of a statement, with `lead` between the indentation and its first word. `block` and
`conditional` lay out the blocks that the statement owns and a conditional. -/
def statement (p : Printer) (block : BlockId → Nat → Except RenderError Page)
    (conditional : Conditional → Nat → Line → Except RenderError Page) :
    Statement → Nat → Line → Except RenderError Page
  | .conditional c, depth, lead => conditional c depth lead
  | .block id, depth, lead => do
    return p.row depth (lead ++ ['{']) ++ (← block id (depth + 1)) ++ p.row depth ['}']
  | .exit _ v, depth, lead => p.verbatim v depth lead
  | .compound c, depth, lead => do
    let opened := p.row depth (lead ++ c.header.toList ++ [' ', '{']) ++ (← block c.body (depth + 1))
    match c.trailer with
    | some trailer => return opened ++ p.row depth (['}', ' '] ++ trailer.toList)
    | none =>
      if c.kind = .doWhile then throw (.noCondition c.header c.span.startLine)
      return opened ++ p.row depth ['}']
  | .tryStatement t, depth, lead => do
    let opened := p.row depth (lead ++ t.header.toList ++ [' ', '{']) ++ (← block t.body (depth + 1))
    let catches ← t.catches.mapM fun c => do
      return p.row depth (['}', ' '] ++ c.header.toList ++ [' ', '{']) ++ (← block c.body (depth + 1))
    let final ← t.finallyBlock.mapM fun id => do
      return p.row depth (['}'] ++ " finally ".toList ++ ['{']) ++ (← block id (depth + 1))
    return opened ++ concat catches ++ final.getD Page.empty ++ p.row depth ['}']
  | .labeled label body _, depth, lead =>
    p.statement block conditional body depth (lead ++ label.toList ++ [':', ' '])
  | .declaration type name value, depth, lead =>
    let assigned := match value with
      | some value => " = ".toList ++ exprText value
      | none => []
    return p.row depth (lead ++ type.toList ++ [' '] ++ name.toList ++ assigned ++ [';'])
  | .assignment target value, depth, lead =>
    return p.row depth (lead ++ target.toList ++ " = ".toList ++ exprText value ++ [';'])
  | .assertion condition, depth, lead =>
    return p.row depth (lead ++ "assert ".toList ++ exprText condition ++ [';'])
  | .comment text span, depth, lead =>
    return ⟨reindent (p.indent depth) lead span.startCol text.toList, 0⟩
  | .other v, depth, lead => p.verbatim v depth lead

mutual

/-- The lines of the statements of a block. `fuel` bounds the nesting that is followed. -/
def block (p : Printer) : Nat → BlockId → Nat → Except RenderError Page
  | 0, _, _ => .error (.fault .endless)
  | fuel + 1, id, depth => do
    let b ← (p.body.block id).mapError .fault
    let pages ← b.statements.mapM fun s =>
      p.statement (block p fuel) (conditional p fuel) s depth []
    return concat pages

/-- The lines of a conditional and of its ladder. -/
def conditional (p : Printer) : Nat → Conditional → Nat → Line → Except RenderError Page
  | 0, _, _, _ => .error (.fault .endless)
  | fuel + 1, c, depth, lead => do
    let header := p.row depth (lead ++ "if (".toList ++ exprText c.condition ++ [')', ' ', '{'])
    let branch ← match c.thenBranch with
      | some id => block p fuel id (depth + 1)
      | none => .ok Page.empty
    match c.elseBranch with
    | none => return header ++ branch ++ p.row depth ['}']
    | some alternative =>
      let b ← (p.body.block alternative).mapError .fault
      match b.statements with
      | [.conditional rung] =>
        return header ++ branch ++ (← conditional p fuel rung depth (['}'] ++ " else ".toList))
      | _ =>
        return header ++ branch ++ p.row depth (['}'] ++ " else ".toList ++ ['{']) ++
          (← block p fuel alternative (depth + 1)) ++ p.row depth ['}']

end

/-- The lines of the whole body. A level of nesting takes up to two steps, the conditional and its
branch. -/
def page (p : Printer) : Except RenderError Page := p.block (2 * p.body.maxDepth) Body.root 1

end Printer

/-- Each line with its end. -/
def unlines (lines : List Line) : List Char := lines.flatMap fun l => l ++ ['\n']

/-- The body from its opening to its closing brace. `base` indents the line of the opening brace,
each depth adds `unit`, and every nested body has to lie in a statement that is kept as text. -/
def renderBody (body : Body) (unit base : String) (nested : List Edit) :
    Except RenderError String := do
  let p : Printer := ⟨body, base.toList, unit.toList, nested⟩
  let page ← p.page
  if page.placed < nested.length then
    throw (.outside (nested.length - page.placed) nested.length)
  if nested.length < page.placed then
    throw (.repeated page.placed nested.length)
  return String.ofList (['{', '\n'] ++ unlines page.lines ++ base.toList ++ ['}'])

end BranchExclusion.Layout
