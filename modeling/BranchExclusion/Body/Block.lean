import BranchExclusion.Body.Statement

/-!
# Blocks

* `Block`: a sequence of statements and how the source wrote it;
* `front`: where insertions at the front go, which is behind a leading constructor call;
* `pushFront`, `spliceFront`, `insertAt`, `push`: the insertions;
* `significant`, `lastSignificant`: the statements that are no comments.
-/

namespace BranchExclusion

/-- A sequence of statements. -/
structure Block where
  statements : List Statement
  span : Span
  /-- The source wrote braces; a block without them holds one statement. -/
  braced : Bool
  /-- The block takes no new statements, because the source around it has a syntax error. -/
  isSealed : Bool
  /-- The first statement that is no comment is a constructor call and has to stay first. -/
  prologue : Bool
  deriving DecidableEq, Repr, Inhabited

namespace Block

/-- An empty block in braces that no source wrote. -/
def synthetic : Block := ⟨[], Span.zero, true, false, false⟩

/-- A single statement that the source wrote without braces. -/
def unbraced (s : Statement) (span : Span) (isSealed : Bool) : Block :=
  ⟨[s], span, false, isSealed, false⟩

/-- The index at which insertions at the front go: 0, or just behind the constructor call. -/
def front (b : Block) : Nat :=
  if b.prologue then
    match b.statements.findIdx? (fun s => !s.isComment) with
    | some i => i + 1
    | none => 0
  else 0

/-- The block with `new` inserted before index `i`. -/
def spliceAt (b : Block) (i : Nat) (new : List Statement) : Block :=
  { b with statements := b.statements.take i ++ new ++ b.statements.drop i }

/-- The block with `s` inserted before index `i`. -/
def insertAt (b : Block) (i : Nat) (s : Statement) : Block := b.spliceAt i [s]

/-- The block with `s` at its front. -/
def pushFront (b : Block) (s : Statement) : Block := b.insertAt b.front s

/-- The block with `new` at its front, in this order. -/
def spliceFront (b : Block) (new : List Statement) : Block := b.spliceAt b.front new

/-- The block with `s` at its end. -/
def push (b : Block) (s : Statement) : Block := { b with statements := b.statements ++ [s] }

/-- The statements that are no comments. -/
def significant (b : Block) : List Statement := b.statements.filter fun s => !s.isComment

/-- The last statement that is no comment, with its index. -/
def lastSignificant (b : Block) : Option (Nat × Statement) :=
  (b.statements.zipIdx.reverse.find? fun p => !p.1.isComment).map Prod.swap

/-- The blocks that the statements own, in source order. -/
def childBlocks (b : Block) : List BlockId := b.statements.flatMap Statement.childBlocks

/-- The only statement that is no comment, if it is a conditional. -/
def singleConditional? (b : Block) : Option Conditional :=
  match b.significant with
  | [.conditional c] => some c
  | _ => none

/-- Control leaves the block at one of its own statements. -/
def exitsDirectly (b : Block) : Bool := b.statements.any Statement.isExit

@[simp] theorem statements_spliceAt (b : Block) (i : Nat) (new : List Statement) :
    (b.spliceAt i new).statements = b.statements.take i ++ new ++ b.statements.drop i := rfl

@[simp] theorem statements_insertAt (b : Block) (i : Nat) (s : Statement) :
    (b.insertAt i s).statements = b.statements.take i ++ s :: b.statements.drop i := by
  simp [insertAt]

@[simp] theorem statements_pushFront (b : Block) (s : Statement) :
    (b.pushFront s).statements = b.statements.take b.front ++ s :: b.statements.drop b.front := by
  simp [pushFront]

@[simp] theorem statements_spliceFront (b : Block) (new : List Statement) :
    (b.spliceFront new).statements =
      b.statements.take b.front ++ new ++ b.statements.drop b.front := rfl

@[simp] theorem statements_push (b : Block) (s : Statement) :
    (b.push s).statements = b.statements ++ [s] := rfl

@[simp] theorem statements_synthetic : synthetic.statements = [] := rfl

theorem front_of_prologue_eq_false {b : Block} (h : b.prologue = false) : b.front = 0 := by
  simp [front, h]

theorem front_le_length (b : Block) : b.front ≤ b.statements.length := by
  unfold front
  split
  · split
    · next h => exact (List.findIdx?_eq_some_iff_getElem.1 h).1
    · omega
  · omega

theorem singleConditional?_eq_some {b : Block} {c : Conditional} :
    b.singleConditional? = some c ↔ b.significant = [.conditional c] := by
  unfold singleConditional?
  split
  · next d h => simp [h]
  · next h =>
    constructor
    · intro h'; cases h'
    · intro h'; exact absurd h' (h c)

end Block

end BranchExclusion
