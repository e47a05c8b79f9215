import BranchExclusion.Java.Bodies
import BranchExclusion.Java.Sites
import Mathlib.Tactic

/-!
# Well-formed syntax trees

What a parser promises about its trees, apart from the grammar.

* `Tree.induction`: induction over a tree that reaches the parts of its parts, since the handlers of
  a `try` are gone through together with the `try`;
* `Tree.InOrder`: trees that lie one behind the other;
* `Tree.WellFormed`: every node holds its parts in order, bodies start with a brace, and a `try` has
  at most one `finally`; `Tree.decidableWellFormed` checks it.
-/

namespace BranchExclusion.Java.Tree

/-! ### Induction -/

mutual

theorem induction_with_parts {P : Tree → Prop} (hleaf : ∀ kind e, P (.leaf kind e))
    (hnode : ∀ kind e parts, (∀ p ∈ parts, P p.2) → (∀ p ∈ parts, ∀ q ∈ p.2.parts, P q.2) →
      P (.node kind e parts)) : ∀ t : Tree, P t ∧ ∀ p ∈ t.parts, P p.2
  | .leaf kind e => ⟨hleaf kind e, fun _ hp => absurd hp List.not_mem_nil⟩
  | .node kind e parts => by
    have h := induction_of_parts hleaf hnode parts
    exact ⟨hnode kind e parts (fun p hp => (h p hp).1) fun p hp => (h p hp).2,
      fun p hp => (h p hp).1⟩

theorem induction_of_parts {P : Tree → Prop} (hleaf : ∀ kind e, P (.leaf kind e))
    (hnode : ∀ kind e parts, (∀ p ∈ parts, P p.2) → (∀ p ∈ parts, ∀ q ∈ p.2.parts, P q.2) →
      P (.node kind e parts)) : ∀ parts : List (Role × Tree),
    ∀ p ∈ parts, P p.2 ∧ ∀ q ∈ p.2.parts, P q.2
  | [] => fun _ hp => absurd hp List.not_mem_nil
  | (_, t) :: rest => by
    intro p hp
    rcases List.mem_cons.1 hp with rfl | hp
    · exact induction_with_parts hleaf hnode t
    · exact induction_of_parts hleaf hnode rest p hp

end

/-- A property holds of every tree when it passes to a node from its parts and from the parts of
these. -/
theorem induction {P : Tree → Prop} (hleaf : ∀ kind e, P (.leaf kind e))
    (hnode : ∀ kind e parts, (∀ p ∈ parts, P p.2) → (∀ p ∈ parts, ∀ q ∈ p.2.parts, P q.2) →
      P (.node kind e parts)) (t : Tree) : P t := (induction_with_parts hleaf hnode t).1

/-! ### Places -/

/-- The offset at which the tree starts. -/
def start (t : Tree) : ℕ := t.extent.start.offset

/-- The offset behind the tree. -/
def stop (t : Tree) : ℕ := t.extent.stop.offset

/-- The trees lie between two offsets, one behind the other. -/
def InOrder (lo hi : ℕ) : List Tree → Prop
  | [] => lo ≤ hi
  | t :: rest => lo ≤ t.start ∧ t.start ≤ t.stop ∧ InOrder t.stop hi rest

namespace InOrder

variable {lo lo' mid hi hi' : ℕ} {trees trees' : List Tree}

theorem le (h : InOrder lo hi trees) : lo ≤ hi := by
  induction trees generalizing lo with
  | nil => exact h
  | cons t rest ih =>
    obtain ⟨hlo, hle, hrest⟩ := h
    have := ih hrest
    omega

theorem mono (h : InOrder lo hi trees) (hlo : lo' ≤ lo) (hhi : hi ≤ hi') :
    InOrder lo' hi' trees := by
  induction trees generalizing lo lo' with
  | nil => exact (hlo.trans h).trans hhi
  | cons t rest ih => exact ⟨hlo.trans h.1, h.2.1, ih h.2.2 (Nat.le_refl _)⟩

theorem append (h : InOrder lo mid trees) (h' : InOrder mid hi trees') :
    InOrder lo hi (trees ++ trees') := by
  induction trees generalizing lo with
  | nil => exact h'.mono h (Nat.le_refl _)
  | cons t rest ih => exact ⟨h.1, h.2.1, ih h.2.2⟩

theorem bounds (h : InOrder lo hi trees) {t : Tree} (ht : t ∈ trees) :
    lo ≤ t.start ∧ t.start ≤ t.stop ∧ t.stop ≤ hi := by
  induction trees generalizing lo with
  | nil => cases ht
  | cons u rest ih =>
    obtain ⟨hlo, hle, hrest⟩ := h
    rcases List.mem_cons.1 ht with rfl | ht
    · exact ⟨hlo, hle, hrest.le⟩
    · have := ih hrest ht
      omega

theorem pairwise (h : InOrder lo hi trees) : trees.Pairwise fun t u => t.stop ≤ u.start := by
  induction trees generalizing lo with
  | nil => exact .nil
  | cons t rest ih =>
    exact .cons (fun u hu => (h.2.2.bounds hu).1) (ih h.2.2)

end InOrder

/-- The tree has parts, and the first one is an opening brace. -/
def StartsWithBrace (t : Tree) : Prop :=
  ∃ p ∈ t.parts.head?, p.2.isFixed leftBrace = true ∧ p.2.start < p.2.stop

/-- The bodies of methods, initializers and lambdas among the parts of a node. -/
def bodies (kind : NodeKind) (parts : List (Role × Tree)) : List Tree :=
  match kind with
  | .method | .constructor | .compactConstructor | .staticInitializer | .lambda =>
    (part? .body parts).toList
  | .classBody => (parts.map Prod.snd).filter (isNode .block)
  | _ => []

/-- The tree is a handler of a `try`. -/
def isHandler (t : Tree) : Bool := t.isNode .catchClause || t.isNode .finallyClause

/-- At most one handler is a `finally`, and the body of the `try` is no handler. -/
structure TryShaped (parts : List (Role × Tree)) : Prop where
  one_finally : parts.countP (fun p => p.2.isNode .finallyClause) ≤ 1
  body : ∀ p ∈ parts, p.1 = .body → p.2.isHandler = false

/-- What a parser promises about a tree. -/
inductive WellFormed : Tree → Prop
  | leaf (kind : LeafKind) {e : Extent} : e.start.offset ≤ e.stop.offset → WellFormed (.leaf kind e)
  | node {kind : NodeKind} {e : Extent} {parts : List (Role × Tree)} :
      InOrder e.start.offset e.stop.offset (parts.map Prod.snd) →
      (∀ b ∈ bodies kind parts, b.StartsWithBrace) → (kind = .tryStatement → TryShaped parts) →
      (∀ p ∈ parts, WellFormed p.2) → WellFormed (.node kind e parts)

namespace WellFormed

variable {t : Tree}

theorem le (h : t.WellFormed) : t.start ≤ t.stop := by
  cases h with
  | leaf _ hle => exact hle
  | node horder => exact horder.le

theorem inOrder (h : t.WellFormed) : InOrder t.start t.stop (t.parts.map Prod.snd) := by
  cases h with
  | leaf _ hle => exact hle
  | node horder => exact horder

theorem parts (h : t.WellFormed) : ∀ p ∈ t.parts, p.2.WellFormed := by
  cases h with
  | leaf => exact fun _ hp => absurd hp List.not_mem_nil
  | node _ _ _ hparts => exact hparts

theorem startsWithBrace {kind : NodeKind} {e : Extent} {parts : List (Role × Tree)}
    (h : (Tree.node kind e parts).WellFormed) : ∀ b ∈ bodies kind parts, b.StartsWithBrace := by
  cases h with
  | node _ hbrace => exact hbrace

end WellFormed

/-! ### Checking a tree -/

instance decidableInOrder (lo hi : ℕ) : (trees : List Tree) → Decidable (InOrder lo hi trees)
  | [] => inferInstanceAs (Decidable (lo ≤ hi))
  | t :: rest =>
    have := decidableInOrder t.stop hi rest
    inferInstanceAs (Decidable (lo ≤ t.start ∧ t.start ≤ t.stop ∧ InOrder t.stop hi rest))

instance (t : Tree) : Decidable t.StartsWithBrace :=
  inferInstanceAs (Decidable (∃ p ∈ t.parts.head?, _))

instance (parts : List (Role × Tree)) : Decidable (TryShaped parts) :=
  decidable_of_iff (parts.countP (fun p => p.2.isNode .finallyClause) ≤ 1 ∧
    ∀ p ∈ parts, p.1 = .body → p.2.isHandler = false)
    ⟨fun h => ⟨h.1, h.2⟩, fun h => ⟨h.one_finally, h.body⟩⟩

theorem wellFormed_leaf_iff {kind : LeafKind} {e : Extent} :
    (leaf kind e).WellFormed ↔ e.start.offset ≤ e.stop.offset :=
  ⟨fun h => h.le, .leaf kind⟩

theorem wellFormed_node_iff {kind : NodeKind} {e : Extent} {parts : List (Role × Tree)} :
    (node kind e parts).WellFormed ↔ (InOrder e.start.offset e.stop.offset (parts.map Prod.snd) ∧
      (∀ b ∈ bodies kind parts, b.StartsWithBrace) ∧ (kind = .tryStatement → TryShaped parts)) ∧
        ∀ p ∈ parts, p.2.WellFormed := by
  constructor
  · rintro ⟨⟩
    exact ⟨⟨‹_›, ‹_›, ‹_›⟩, ‹_›⟩
  · rintro ⟨⟨horder, hbrace, htry⟩, hparts⟩
    exact .node horder hbrace htry hparts

mutual

instance decidableWellFormed : (t : Tree) → Decidable t.WellFormed
  | leaf _ _ => decidable_of_iff _ wellFormed_leaf_iff.symm
  | node _ _ parts =>
    have := decidableWellFormedParts parts
    decidable_of_iff _ wellFormed_node_iff.symm

instance decidableWellFormedParts : (parts : List (Role × Tree)) →
    Decidable (∀ p ∈ parts, p.2.WellFormed)
  | [] => .isTrue fun _ h => absurd h List.not_mem_nil
  | (role, t) :: rest =>
    have := decidableWellFormed t
    have := decidableWellFormedParts rest
    decidable_of_iff (t.WellFormed ∧ ∀ p ∈ rest, p.2.WellFormed)
      (List.forall_mem_cons (p := fun p => p.2.WellFormed) (a := (role, t))).symm

end

/-! ### Parts and handlers -/

theorem part?_cons (role : Role) (p : Role × Tree) (rest : List (Role × Tree)) :
    part? role (p :: rest) = if p.1 = role then some p.2 else part? role rest := by
  by_cases hrole : p.1 = role
  · simp [part?, hrole]
  · simp [part?, hrole]

theorem mem_of_part? {role : Role} {parts : List (Role × Tree)} {t : Tree}
    (h : part? role parts = some t) : (role, t) ∈ parts := by
  obtain ⟨⟨role', t'⟩, hp, rfl⟩ := Option.map_eq_some_iff.1 h
  have hrole : role' = role := by simpa using List.find?_some hp
  exact hrole ▸ List.mem_of_find?_eq_some hp

theorem isClause_eq_false {outer : NodeKind} (h : outer ≠ .tryStatement) (kind : NodeKind) :
    isClause outer kind = false := by
  simp [isClause, h]

theorem ne_try_of_isClause {outer kind : NodeKind} (h : isClause outer kind = true) :
    kind ≠ .tryStatement := by
  rintro rfl
  simp [isClause] at h

end BranchExclusion.Java.Tree
