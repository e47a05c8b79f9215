import BranchExclusion.Body.Basic

/-!
# Normal conditionals

A conditional may lack its true branch, when the source has a lone semicolon there. Before a block is
scanned, every conditional of the block and of the ladders below it gets one.

* `fillBranches`: the conditionals of a list of statements, each with a true branch;
* `Body.fill`: the same for one block, whose new branches go to the end of the arena;
* `Body.rungs`: the `else if` alternatives of a block;
* `Body.normalize`: the block and its ladders filled.
-/

namespace BranchExclusion

/-- The statement with a true branch numbered `next`, if it is a conditional that lacks one. -/
def Statement.fill (next : BlockId) : Statement → Option Statement
  | .conditional c =>
    if c.thenBranch.isNone then some (.conditional { c with thenBranch := some next }) else none
  | _ => none

/-- The statements with every true branch present, new ones numbered from `next` on, and the number
of new ones. -/
def fillBranches (next : BlockId) : List Statement → List Statement × Nat
  | [] => ([], 0)
  | s :: rest =>
    match s.fill next with
    | some filled => let r := fillBranches (next + 1) rest; (filled :: r.1, r.2 + 1)
    | none => let r := fillBranches next rest; (s :: r.1, r.2)

namespace Body

/-- The body with a true branch for every conditional of block `id`. -/
def fill (body : Body) (id : BlockId) : Except Fault Body := do
  let b ← body.block id
  let filled := fillBranches body.size b.statements
  return (body.set id { b with statements := filled.1 }).allocEmpty filled.2

/-- The alternatives of the conditionals of `statements` that are `else if`. -/
def rungsOf (body : Body) : List Statement → Except Fault (List BlockId)
  | [] => .ok []
  | s :: rest => do
    match s.conditional?.bind Conditional.elseBranch with
    | none => rungsOf body rest
    | some alternative =>
      let b ← body.block alternative
      let below ← rungsOf body rest
      return if b.singleConditional?.isSome then alternative :: below else below

/-- The alternatives of the conditionals of block `id` that are `else if`, in source order. -/
def rungs (body : Body) (id : BlockId) : Except Fault (List BlockId) := do
  body.rungsOf (← body.block id).statements

/-- `normalize`, following ladders for at most `depth` rungs. The last ladder of a block is filled
first. -/
def normalizeWithin : Nat → Body → BlockId → Except Fault Body
  | 0, _, _ => .error .endless
  | depth + 1, body, id => do
    let body ← body.fill id
    let rungs ← body.rungs id
    rungs.reverse.foldlM (normalizeWithin depth) body

/-- The body with a true branch for every conditional of block `id` and of the ladders below it. -/
def normalize (body : Body) (id : BlockId) : Except Fault Body :=
  normalizeWithin body.maxDepth body id

end Body

end BranchExclusion
