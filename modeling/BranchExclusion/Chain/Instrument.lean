import BranchExclusion.Chain.Flag
import BranchExclusion.Body.Basic

/-!
# Instrumenting one body

For every member of a chain, its flag is declared at the front of the home block and raised at the
front of its true branch. For every adjacent pair, an assertion goes to the end of the home block, or
right before its trailing exit.

* `SealedBlock`, `InstrumentError`: why a body cannot be instrumented;
* `Outcome`: how much was added;
* `Body.instrument`: the checks of all chains, then the insertions, home by home.
-/

namespace BranchExclusion

/-- The part that a block plays for a chain. -/
inductive BlockRole
  | home
  | branch
  deriving DecidableEq, Repr

/-- The written form of a role. -/
def BlockRole.name : BlockRole → String
  | home => "home"
  | branch => "branch"

/-- A chain whose home or whose branch takes no new statements. -/
structure SealedBlock where
  /-- The qualified name of the method. -/
  declaration : String
  line : Nat
  role : BlockRole
  deriving DecidableEq, Repr

namespace SealedBlock

/-- The wording of the error. -/
def message (e : SealedBlock) : String :=
  e.declaration ++ ":" ++ toString e.line ++ ": " ++ e.role.name ++
    " block is sealed and cannot be instrumented"

end SealedBlock

/-- Why a body cannot be instrumented. -/
inductive InstrumentError
  | sealedBlock (e : SealedBlock)
  | fault (f : Body.Fault)
  deriving DecidableEq, Repr

/-- How much one instrumentation added. -/
structure Outcome where
  chains : Nat
  flags : Nat
  assertions : Nat
  deriving DecidableEq, Repr, Inhabited

namespace Outcome

/-- Nothing was added. -/
def zero : Outcome := ⟨0, 0, 0⟩

/-- Something was added. -/
def modified (o : Outcome) : Bool := decide (0 < o.chains)

/-- What two instrumentations added together. -/
def merge (a b : Outcome) : Outcome :=
  ⟨a.chains + b.chains, a.flags + b.flags, a.assertions + b.assertions⟩

/-- Each count is below the bound of a 64-bit word. -/
def fits (o : Outcome) : Bool :=
  decide (o.chains < UInt64.size) && decide (o.flags < UInt64.size) &&
    decide (o.assertions < UInt64.size)

/-- `total`, then the totals after each of the outcomes in turn; none when a total no longer fits. -/
def totalsFrom (total : Outcome) : List Outcome → Option (List Outcome)
  | [] => some [total]
  | o :: rest =>
    let next := total.merge o
    if next.fits then (totalsFrom next rest).map (total :: ·) else none

/-- What instrumentation adds for these chains. -/
def ofChains (chains : List Chain) : Outcome :=
  ⟨chains.length, (chains.flatMap Chain.members).length, (chains.flatMap Chain.pairs).length⟩

@[simp] theorem zero_merge (o : Outcome) : zero.merge o = o := by simp [merge, zero]

@[simp] theorem merge_zero (o : Outcome) : o.merge zero = o := by simp [merge, zero]

theorem merge_assoc (a b c : Outcome) : (a.merge b).merge c = a.merge (b.merge c) := by
  simp [merge, Nat.add_assoc]

end Outcome

namespace Block

/-- The index before the trailing exit, comments behind it passed over, or the end of the block. -/
def assertionIndex (b : Block) : Nat :=
  match b.lastSignificant with
  | some (i, s) => if s.isExit then i else b.statements.length
  | none => b.statements.length

/-- The block with an assertion at its end, before a trailing exit. -/
def appendAssertion (b : Block) (s : Statement) : Block := b.insertAt b.assertionIndex s

end Block

/-- The homes of the chains, in the order in which they first appear. -/
def homes (chains : List Chain) : List BlockId := (chains.map Chain.home).eraseDups

namespace Body

/-- The home and every member branch of the chain take new statements. -/
def checkChain (body : Body) (declaration : String) (c : Chain) : Except InstrumentError Unit := do
  let home ← (body.block c.home).mapError .fault
  if home.isSealed then throw (.sealedBlock ⟨declaration, c.firstLine, .home⟩)
  c.members.forM fun m => do
    let branch ← (body.block m.thenBranch).mapError .fault
    if branch.isSealed then throw (.sealedBlock ⟨declaration, m.line, .branch⟩)

/-- The body with the flag of `m` raised at the front of its branch. -/
def raiseFlag (style : FlagStyle) (body : Body) (m : Member) : Except Fault Body :=
  body.modify m.thenBranch fun b => b.pushFront (style.raised m)

/-- The body with the assertion about a pair at the end of the block `home`. -/
def assertPair (style : FlagStyle) (home : BlockId) (body : Body) (p : Member × Member) :
    Except Fault Body :=
  body.modify home fun b => b.appendAssertion (style.exclusion p.1 p.2)

/-- The body with the flags of the chain raised and its assertions placed. -/
def placeChain (style : FlagStyle) (body : Body) (c : Chain) : Except Fault Body := do
  let body ← c.members.foldlM (raiseFlag style) body
  c.pairs.foldlM (assertPair style c.home) body

/-- The body with all chains of one home placed, and then their flags declared at its front. -/
def placeHome (style : FlagStyle) (chains : List Chain) (body : Body) (home : BlockId) :
    Except Fault Body := do
  let here := chains.filter fun c => c.home == home
  let body ← here.foldlM (placeChain style) body
  body.modify home fun b =>
    b.spliceFront (here.flatMap fun c => c.members.map style.declaration)

/-- The body with every chain instrumented. All chains are checked before the first statement is
added. -/
def instrument (body : Body) (style : FlagStyle) (chains : List Chain) (declaration : String) :
    Except InstrumentError (Body × Outcome) := do
  chains.forM (body.checkChain declaration)
  let placed ← ((homes chains).foldlM (placeHome style chains) body).mapError .fault
  return (placed, Outcome.ofChains chains)

end Body

end BranchExclusion
