import BranchExclusion.Chain.Basic
import BranchExclusion.Chain.Ladder
import BranchExclusion.Chain.Normal
import BranchExclusion.Chain.Policy

/-!
# Scanning one block

* `Scanner`: the exit policy and the least length of a chain;
* `Scanner.chainsFrom`: the chains in a list of statements, continuing an open run;
* `Scanner.scan`: the chains of one block, after its conditionals are made normal.

A conditional whose true branch does not directly leave the block extends the open run. Its
alternative ends the run, and the next run starts with the last rung of the ladder, if there is one.
Comments are passed over, and any other statement ends the run.
-/

namespace BranchExclusion

/-- How blocks are scanned. -/
structure Scanner where
  policy : ExitPolicy
  /-- The least number of members of a chain that is kept. -/
  minLength : Nat
  two_le : 2 ≤ minLength
  deriving DecidableEq, Repr

namespace Scanner

/-- The scanner for a policy and a least length, where a length below 2 is raised to 2. -/
def new (policy : ExitPolicy) (minLength : Nat) : Scanner :=
  ⟨policy, max 2 minLength, Nat.le_max_left ..⟩

/-- Runs of two and more, which exiting conditionals end. -/
def standard : Scanner := new .barrier 2

/-- The chain that an ended run makes, which is none when the run is too short. -/
def close (s : Scanner) (home : BlockId) (run : List Member) : List Chain :=
  if h : s.minLength ≤ run.length then [⟨home, run, Nat.le_trans s.two_le h⟩] else []

/-- The true branch of the conditional directly leaves the block. -/
def exits (body : Body) (c : Conditional) : Except Body.Fault Bool := do
  match c.thenBranch with
  | none => return false
  | some id => return (← body.block id).exitsDirectly

/-- The run that starts behind the alternative `id`: the last rung of its ladder, or nothing. -/
def resume (body : Body) (id : BlockId) : Except Body.Fault (List Member) := do
  return ((← body.ladderEnd id).bind Member.of?).toList

/-- The chains of `statements`, where `run` is open before the first of them. -/
def chainsFrom (s : Scanner) (body : Body) (home : BlockId) (run : List Member) :
    List Statement → Except Body.Fault (List Chain)
  | [] => .ok (s.close home run)
  | .comment .. :: rest => s.chainsFrom body home run rest
  | .conditional c :: rest => do
    let exits ← exits body c
    if exits && s.policy = .barrier then
      return s.close home run ++ (← s.chainsFrom body home [] rest)
    let run := if exits then run else run ++ (Member.of? c).toList
    match c.elseBranch with
    | none => s.chainsFrom body home run rest
    | some alternative =>
      return s.close home run ++ (← s.chainsFrom body home (← resume body alternative) rest)
  | _ :: rest => do return s.close home run ++ (← s.chainsFrom body home [] rest)

/-- The chains of block `id`, in source order, and the body with the conditionals of the block made
normal. -/
def scan (s : Scanner) (body : Body) (id : BlockId) : Except Body.Fault (Body × List Chain) := do
  let body ← body.normalize id
  return (body, ← s.chainsFrom body id [] (← body.block id).statements)

/-- A run that is long enough makes the chain of its members. -/
theorem close_eq (s : Scanner) (home : BlockId) (run : List Member) : s.close home run =
    if s.minLength ≤ run.length then (Chain.ofMembers? home run).toList else [] := by
  unfold close Chain.ofMembers?
  split
  · next h => rw [dif_pos (Nat.le_trans s.two_le h)]; rfl
  · rfl

theorem length_ge_of_mem_close {s : Scanner} {home : BlockId} {run : List Member} {c : Chain}
    (h : c ∈ s.close home run) : c.home = home ∧ c.members = run ∧ s.minLength ≤ run.length := by
  unfold close at h
  split at h
  · next hl => rw [List.mem_singleton] at h; subst h; exact ⟨rfl, rfl, hl⟩
  · cases h

end Scanner

end BranchExclusion
