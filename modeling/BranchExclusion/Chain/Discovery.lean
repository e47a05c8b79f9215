import BranchExclusion.Chain.Scan
import BranchExclusion.Source.Method

/-!
# Discovery

* `Body.returnsWithin`: whether a block contains a `return` at any depth;
* `Method.report`: what is told about a chain of the method;
* `Visit`: one scanned block with the chains found in it;
* `Method.discover`: every block of the method scanned, parents before the blocks below them;
* `Registry`: the chains found so far, of all methods.
-/

namespace BranchExclusion

/-- Control returns from the method somewhere in the statement, where `inBlock` answers for the
blocks it owns. -/
def Statement.returns (inBlock : BlockId → Except Body.Fault Bool) :
    Statement → Except Body.Fault Bool
  | .exit kind _ => .ok (kind == .returns)
  | .labeled _ body _ => body.returns inBlock
  | .conditional c => (Statement.conditional c).childBlocks.anyM inBlock
  | .block id => inBlock id
  | .compound c => inBlock c.body
  | .tryStatement t => t.blocks.anyM inBlock
  | .declaration .. | .assignment .. | .assertion .. | .comment .. | .other .. => .ok false

/-- Block `id` contains a `return`, at any depth up to `depth`. -/
def Body.returnsWithin (body : Body) : Nat → BlockId → Except Body.Fault Bool
  | 0, _ => .error .endless
  | depth + 1, id => do
    (← body.block id).statements.anyM (Statement.returns (returnsWithin body depth))

/-- Block `id` contains a `return`, at any depth. -/
def Body.returns (body : Body) (id : BlockId) : Except Body.Fault Bool :=
  body.returnsWithin body.maxDepth id

/-- What is told about a chain of the method. -/
def Method.report (m : Method) (c : Chain) : Except Body.Fault ChainReport := do
  let returns ← c.members.anyM fun member => m.body.returns member.thenBranch
  return ⟨m.owner, m.name, c.firstLine, c.lines, returns⟩

/-- The chain as a chain of the method with that index. -/
def Method.register (m : Method) (index : Nat) (c : Chain) : Except Body.Fault Registered := do
  return ⟨index, c, ← m.report c⟩

/-- One scanned block. -/
structure Visit where
  block : BlockId
  /-- The number of its statements. -/
  size : Nat
  /-- The chains found in it, in source order. -/
  found : List Registered
  deriving DecidableEq, Repr

namespace Method

/-- One block scanned, and its chains registered. -/
def visit (s : Scanner) (index : Nat) (m : Method) (id : BlockId) :
    Except Body.Fault (Method × Visit) := do
  let (body, chains) ← s.scan m.body id
  let m := { m with body := body }
  let found ← chains.mapM (m.register index)
  return (m, ⟨id, (← body.block id).statements.length, found⟩)

/-- Block `id` and every block below it scanned, parents first, each in the body that the scans
before it left. -/
def discoverBelow (s : Scanner) (index : Nat) : Nat → Method → BlockId →
    Except Body.Fault (Method × List Visit)
  | 0, _, _ => .error .endless
  | depth + 1, m, id => do
    let (m, here) ← m.visit s index id
    let children := (← m.body.block id).childBlocks
    let (m, below) ← children.foldlM
      (fun (r : Method × List Visit) child => do
        let (m, visits) ← discoverBelow s index depth r.1 child
        return (m, r.2 ++ visits))
      (m, [])
    return (m, here :: below)

/-- Every block of the method scanned, and the method with all its conditionals made normal. -/
def discover (s : Scanner) (index : Nat) (m : Method) : Except Body.Fault (Method × List Visit) :=
  m.discoverBelow s index (m.body.maxDepth + 1) Body.root

end Method

/-- The chains found so far. -/
structure Registry where
  entries : List Registered
  deriving DecidableEq, Repr, Inhabited

namespace Registry

/-- No chain yet. -/
def empty : Registry := ⟨[]⟩

/-- The registry with the chains of these visits behind the others. -/
def add (r : Registry) (visits : List Visit) : Registry :=
  ⟨r.entries ++ visits.flatMap Visit.found⟩

/-- The chains of one method, in the order in which they were found. -/
def forMethod (r : Registry) (index : Nat) : List Chain :=
  (r.entries.filter fun e => e.method == index).map Registered.chain

/-- What is told about the chains, in the order in which they were found. -/
def reports (r : Registry) : List ChainReport := r.entries.map Registered.report

/-- The methods that have a chain, ascending. -/
def methods (r : Registry) : List Nat :=
  ((r.entries.map Registered.method).mergeSort fun a b => decide (a ≤ b)).eraseReps

end Registry

end BranchExclusion
