import BranchExclusion.Body.Statement

/-!
# Chains

* `Member`: one conditional of a chain, by its line and its true branch;
* `Chain`: at least two members whose branches are to exclude one another;
* `ChainReport`: what is told about a chain;
* `Registered`: a chain with its method and its report.
-/

namespace BranchExclusion

/-- One conditional of a chain. -/
structure Member where
  /-- The line of the conditional, from which its flag gets its name. -/
  line : Nat
  thenBranch : BlockId
  deriving DecidableEq, Repr, Inhabited

namespace Member

/-- The member that a conditional makes; none while it has no true branch. -/
def of? (c : Conditional) : Option Member := c.thenBranch.map fun t => ⟨c.line, t⟩

end Member

/-- A run of conditionals whose true branches are to exclude one another. -/
structure Chain where
  /-- The block in which the run was found. A run that continues an `else if` ladder belongs to the
  block that holds the ladder. -/
  home : BlockId
  members : List Member
  two_le : 2 ≤ members.length
  deriving DecidableEq, Repr

namespace Chain

/-- The chain of these members; none when there are fewer than two. -/
def ofMembers? (home : BlockId) (members : List Member) : Option Chain :=
  if h : 2 ≤ members.length then some ⟨home, members, h⟩ else none

/-- The lines of the members, in order. -/
def lines (c : Chain) : List Nat := c.members.map Member.line

/-- The line of the first member. -/
def firstLine (c : Chain) : Nat :=
  (c.members.head (List.ne_nil_of_length_pos (Nat.lt_of_lt_of_le Nat.two_pos c.two_le))).line

/-- Adjacent members, in order. -/
def pairs (c : Chain) : List (Member × Member) := c.members.zip c.members.tail

@[simp] theorem length_pairs (c : Chain) : c.pairs.length = c.members.length - 1 := by
  simp [pairs]

theorem ofMembers?_eq_some {home : BlockId} {members : List Member} {c : Chain} :
    ofMembers? home members = some c ↔ c.home = home ∧ c.members = members := by
  unfold ofMembers?
  split
  · next h =>
    constructor
    · intro h'; cases h'; exact ⟨rfl, rfl⟩
    · rintro ⟨rfl, rfl⟩; rfl
  · next h =>
    constructor
    · intro h'; cases h'
    · rintro ⟨_, rfl⟩; exact absurd c.two_le h

end Chain

/-- What is told about a chain. -/
structure ChainReport where
  /-- The enclosing types, joined by dots. -/
  owner : String
  method : String
  /-- The line of the first member. -/
  line : Nat
  members : List Nat
  /-- Some member branch contains a `return`, at any depth. -/
  returnsFromBranch : Bool
  deriving DecidableEq, Repr

namespace ChainReport

/-- `owner:line`. -/
def display (r : ChainReport) : String := r.owner ++ ":" ++ toString r.line

end ChainReport

/-- A chain with the method it was found in. -/
structure Registered where
  /-- The index of the method in its file. -/
  method : Nat
  chain : Chain
  report : ChainReport
  deriving DecidableEq, Repr

end BranchExclusion
