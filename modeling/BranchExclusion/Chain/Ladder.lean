import BranchExclusion.Body.Basic

/-!
# Ladders of `else if`

An `else if` is an alternative block whose only statement, comments apart, is another conditional.

* `Body.ladderEnd`: the conditional at which a ladder ends, which is the first rung without an
  alternative of its own;
* `Body.Ladder`: the same as a relation, one rung at a time.
-/

namespace BranchExclusion.Body

/-- The last rung of the ladder that starts at block `id`; none when the block holds anything but a
single conditional, or the ladder ends in a plain `else`. `depth` bounds the rungs followed. -/
def ladderEndWithin (body : Body) : Nat → BlockId → Except Fault (Option Conditional)
  | 0, _ => .error .endless
  | depth + 1, id => do
    match (← body.block id).singleConditional? with
    | none => return none
    | some rung =>
      match rung.elseBranch with
      | none => return some rung
      | some next => ladderEndWithin body depth next

/-- The last rung of the ladder that starts at the alternative `id`. -/
def ladderEnd (body : Body) (id : BlockId) : Except Fault (Option Conditional) :=
  body.ladderEndWithin body.maxDepth id

/-- The ladder from block `id` ends at the conditional `rung`. -/
inductive Ladder (body : Body) : BlockId → Conditional → Prop
  | last {id : BlockId} {b : Block} {rung : Conditional} : body.block id = .ok b →
      b.singleConditional? = some rung → rung.elseBranch = none → Ladder body id rung
  | step {id next : BlockId} {b : Block} {rung top : Conditional} : body.block id = .ok b →
      b.singleConditional? = some rung → rung.elseBranch = some next → Ladder body next top →
      Ladder body id top

end BranchExclusion.Body
