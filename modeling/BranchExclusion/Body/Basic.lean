import BranchExclusion.Body.Block

/-!
# Method bodies

* `Body`: the numbered blocks of one method body; block 0 is the body itself;
* `Body.block`, `Body.modify`, `Body.alloc`: look up, change and add a block;
* `Body.Fault`: why an operation on a body has no answer;
* `Body.reachable`: the blocks below the root, parents first and in source order.
-/

namespace BranchExclusion

/-- The blocks of one method body. Block 0 is the root; a new block goes to the end, so that the
numbers of the others stay. -/
structure Body where
  blocks : Array Block
  deriving DecidableEq, Repr, Inhabited

namespace Body

/-- The block that is the method body itself. -/
def root : BlockId := 0

/-- Why an operation on a body has no answer. -/
inductive Fault
  /-- A statement names a block that does not exist. -/
  | missingBlock (id : BlockId)
  /-- The blocks nest deeper than there are blocks, so some block lies within itself. -/
  | endless
  deriving DecidableEq, Repr

/-- The body that consists of its root alone. -/
def ofRoot (b : Block) : Body := ⟨#[b]⟩

/-- The number of blocks. -/
def size (body : Body) : Nat := body.blocks.size

/-- The block with number `id`. -/
def block (body : Body) (id : BlockId) : Except Fault Block :=
  match body.blocks[id]? with
  | some b => .ok b
  | none => .error (.missingBlock id)

/-- The body with block `id` exchanged. -/
def set (body : Body) (id : BlockId) (b : Block) : Body := ⟨body.blocks.setIfInBounds id b⟩

/-- The body with `f` applied to block `id`. -/
def modify (body : Body) (id : BlockId) (f : Block → Block) : Except Fault Body := do
  let b ← body.block id
  return body.set id (f b)

/-- The body with one more block, which gets the number `body.size`. -/
def alloc (body : Body) (b : Block) : Body := ⟨body.blocks.push b⟩

/-- The body with `n` more empty blocks. -/
def allocEmpty (body : Body) (n : Nat) : Body := ⟨body.blocks ++ Array.replicate n Block.synthetic⟩

/-- The body holds no statement of its own. -/
def isEmpty (body : Body) : Except Fault Bool := do
  return (← body.block root).statements.isEmpty

@[simp] theorem size_set (body : Body) (id : BlockId) (b : Block) :
    (body.set id b).size = body.size := by
  simp [size, set]

@[simp] theorem size_alloc (body : Body) (b : Block) : (body.alloc b).size = body.size + 1 := by
  simp [size, alloc]

@[simp] theorem size_allocEmpty (body : Body) (n : Nat) :
    (body.allocEmpty n).size = body.size + n := by
  simp [size, allocEmpty]

theorem block_eq_ok {body : Body} {id : BlockId} {b : Block} :
    body.block id = .ok b ↔ body.blocks[id]? = some b := by
  unfold block
  split <;> simp_all

theorem lt_size_of_block_eq_ok {body : Body} {id : BlockId} {b : Block}
    (h : body.block id = .ok b) : id < body.size := by
  obtain ⟨h, _⟩ := Array.getElem?_eq_some_iff.1 (block_eq_ok.1 h)
  exact h

@[simp] theorem block_set_self {body : Body} {id : BlockId} (b : Block) (h : id < body.size) :
    (body.set id b).block id = .ok b := by
  rw [block_eq_ok, set]
  exact Array.getElem?_setIfInBounds_self_of_lt h

theorem set_eq_self {body : Body} {id : BlockId} {b : Block} (hb : body.block id = .ok b) :
    body.set id b = body := by
  obtain ⟨h, rfl⟩ := Array.getElem?_eq_some_iff.1 (block_eq_ok.1 hb)
  rw [set, Array.setIfInBounds_def, dif_pos h, Array.set_getElem_self]

theorem block_set_of_ne (body : Body) {id other : BlockId} (b : Block) (h : id ≠ other) :
    (body.set id b).block other = body.block other := by
  simp [block, set, Array.getElem?_setIfInBounds_ne h]

theorem modify_eq_ok {body next : Body} {id : BlockId} {f : Block → Block} :
    body.modify id f = .ok next ↔ ∃ b, body.block id = .ok b ∧ next = body.set id (f b) := by
  unfold modify
  cases body.block id with
  | error e => simp [bind, Except.bind]
  | ok b => simp [bind, Except.bind, pure, Except.pure, eq_comm]

theorem block_allocEmpty_of_lt {body : Body} {id : BlockId} (n : Nat) (h : id < body.size) :
    (body.allocEmpty n).block id = body.block id := by
  simp only [size] at h
  simp [block, allocEmpty, Array.getElem?_append, h]

@[simp] theorem block_alloc_size (body : Body) (b : Block) :
    (body.alloc b).block body.size = .ok b := by
  simp [block, alloc, size]

/-! ### Nesting -/

/-- The block `id` and every block below it, parents first and in source order. `depth` bounds the
nesting that is followed. -/
def below (body : Body) : Nat → BlockId → Except Fault (List BlockId)
  | 0, _ => .error .endless
  | depth + 1, id => do
    let b ← body.block id
    let children ← b.childBlocks.mapM (below body depth)
    return id :: children.flatten

/-- The nesting that a body can have when no block lies within itself. -/
def maxDepth (body : Body) : Nat := body.size + 1

/-- Every block of the body that the root leads to, parents first and in source order. -/
def reachable (body : Body) : Except Fault (List BlockId) := body.below body.maxDepth root

/-- `id` is one of the blocks that the block `parent` owns. -/
def IsChild (body : Body) (parent id : BlockId) : Prop :=
  ∃ b, body.block parent = .ok b ∧ id ∈ b.childBlocks

/-- The block `id` is `top` or lies below it. -/
inductive Reaches (body : Body) (top : BlockId) : BlockId → Prop
  | self : Reaches body top top
  | child {parent id : BlockId} : Reaches body top parent → body.IsChild parent id →
      Reaches body top id

/-- Every block number that some statement mentions, block by block. -/
def mentions (body : Body) : List BlockId := body.blocks.toList.flatMap Block.childBlocks

/-- The blocks form a tree: every number that a statement mentions is that of a block, no statement
mentions the root, and no block is mentioned twice. -/
structure TreeShaped (body : Body) : Prop where
  nonempty : 0 < body.size
  inRange : ∀ id ∈ body.mentions, id < body.size
  root_free : root ∉ body.mentions
  once : body.mentions.Nodup

end Body

end BranchExclusion
