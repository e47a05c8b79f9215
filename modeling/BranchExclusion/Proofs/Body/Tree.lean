import BranchExclusion.Body.Basic
import BranchExclusion.Proofs.Traversal
import Mathlib.Data.List.Nodup
import Mathlib.Logic.Relation

/-!
# Tree-shaped bodies

In a tree-shaped body no block has two owners, so the blocks above a block form a line, and no block
below the root lies within itself.

* `TreeShaped.owner_unique`, `TreeShaped.reaches_total`: owners, and what is above a block;
* `Nests`: a number of levels that is enough for a block and all below it, with one level to spare
  where a conditional still lacks its branch;
* `TreeShaped.nests_root`: the levels that every traversal allows are enough;
* `TreeShaped.descent`: what holds of all parts of a block holds of the block, for a descent that
  spends a step on each block and on each conditional;
* `below_succ`, `mem_below`, `TreeShaped.pairwise_below`: the blocks below a block are listed once
  each, and an owner comes before what it owns.
-/

namespace BranchExclusion

/-- Some conditional of the block has no true branch. -/
def Block.LacksBranch (b : Block) : Prop :=
  ∃ c, Statement.conditional c ∈ b.statements ∧ c.thenBranch = none

/-- The statement that the labels belong to. -/
def Statement.unlabeled : Statement → Statement
  | .labeled _ body _ => body.unlabeled
  | s => s

theorem Statement.childBlocks_unlabeled (s : Statement) :
    s.unlabeled.childBlocks = s.childBlocks := by
  induction s with
  | labeled label t span ih => exact ih
  | _ => rfl

namespace Body

variable {body : Body} {id p q x y : BlockId}

theorem exists_block (h : id < body.size) : ∃ b, body.block id = .ok b := by
  refine ⟨body.blocks[id], ?_⟩
  rw [block_eq_ok]
  exact Array.getElem?_eq_getElem h

theorem block_unique {b b' : Block} (hb : body.block id = .ok b) (hb' : body.block id = .ok b') :
    b = b' := by
  rwa [hb, Except.ok.injEq] at hb'

theorem isChild_iff {b : Block} (hb : body.block p = .ok b) :
    body.IsChild p id ↔ id ∈ b.childBlocks := by
  constructor
  · rintro ⟨b', hb', h⟩
    exact block_unique hb hb' ▸ h
  · intro h
    exact ⟨b, hb, h⟩

/-- What is listed block by block without repetition is listed for one block only. -/
theorem eq_of_nodup_flatMap {α : Type} {g : Block → List α}
    (h : (body.blocks.toList.flatMap g).Nodup) {b c : Block} (hb : body.block p = .ok b)
    (hc : body.block q = .ok c) {a : α} (hab : a ∈ g b) (hac : a ∈ g c) : p = q := by
  have apart := (List.nodup_flatMap.1 h).2
  rw [List.pairwise_iff_getElem] at apart
  have no : ∀ {p q b c}, body.block p = .ok b → body.block q = .ok c → a ∈ g b → a ∈ g c →
      ¬ p < q := by
    intro p q b c hb hc hab hac hlt
    rw [block_eq_ok, Array.getElem?_eq_some_iff] at hb hc
    obtain ⟨hp, rfl⟩ := hb
    obtain ⟨hq, rfl⟩ := hc
    exact apart p q hp hq hlt hab hac
  have h₁ := no hb hc hab hac
  have h₂ := no hc hb hac hab
  simp only [BlockId] at *
  omega

theorem mem_mentions : id ∈ body.mentions ↔ ∃ p, body.IsChild p id := by
  simp only [mentions, List.mem_flatMap, IsChild, block_eq_ok]
  constructor
  · rintro ⟨b, hb, h⟩
    obtain ⟨p, hp, rfl⟩ := List.getElem_of_mem hb
    exact ⟨p, _, by simp, h⟩
  · rintro ⟨p, b, hb, h⟩
    exact ⟨b, Array.mem_toList_iff.2 (Array.mem_of_getElem? hb), h⟩

theorem reaches_iff : body.Reaches p id ↔ Relation.ReflTransGen body.IsChild p id := by
  constructor
  · intro h
    induction h with
    | self => exact .refl
    | child _ hc ih => exact ih.tail hc
  · intro h
    induction h with
    | refl => exact .self
    | tail _ hc ih => exact .child ih hc

theorem Reaches.trans (h : body.Reaches p q) (h' : body.Reaches q id) : body.Reaches p id := by
  rw [reaches_iff] at *
  exact h.trans h'

theorem Reaches.head (h : body.IsChild p q) (h' : body.Reaches q id) : body.Reaches p id :=
  (Reaches.child .self h).trans h'

/-! ### Owners -/

namespace TreeShaped

variable (tree : body.TreeShaped)
include tree

theorem lt_size (h : body.IsChild p id) : id < body.size := tree.inRange id (mem_mentions.2 ⟨p, h⟩)

theorem exists_child (h : body.IsChild p id) : ∃ b, body.block id = .ok b :=
  exists_block (tree.lt_size h)

theorem not_isChild_root : ¬ body.IsChild p root := fun h => tree.root_free (mem_mentions.2 ⟨p, h⟩)

theorem nodup_childBlocks {b : Block} (hb : body.block p = .ok b) : b.childBlocks.Nodup := by
  refine (List.nodup_flatMap.1 tree.once).1 b ?_
  exact Array.mem_toList_iff.2 (Array.mem_of_getElem? (block_eq_ok.1 hb))

/-- A block has at most one owner. -/
theorem owner_unique (hp : body.IsChild p id) (hq : body.IsChild q id) : p = q := by
  obtain ⟨b, hb, h⟩ := hp
  obtain ⟨c, hc, h'⟩ := hq
  exact eq_of_nodup_flatMap tree.once hb hc h h'

/-- Inside its owner, a block is mentioned by one statement only. -/
theorem statement_unique {b : Block} (hb : body.block p = .ok b) {s t : Statement}
    (hs : s ∈ b.statements) (ht : t ∈ b.statements) (hs' : id ∈ s.childBlocks)
    (ht' : id ∈ t.childBlocks) : s = t := by
  by_contra hne
  have apart := (List.nodup_flatMap.1 (tree.nodup_childBlocks hb)).2
  have symm : Std.Symm (Function.onFun List.Disjoint Statement.childBlocks) :=
    ⟨fun _ _ h => List.Disjoint.symm h⟩
  exact (apart.forall hs ht hne) hs' ht'

/-- The blocks above a block form a line. -/
theorem reaches_total (hp : body.Reaches p id) (hq : body.Reaches q id) :
    body.Reaches p q ∨ body.Reaches q p := by
  induction hp generalizing q with
  | self => exact .inr hq
  | child hp hc ih =>
    cases hq with
    | self => exact .inl (.child hp hc)
    | child hq hc' => exact ih (tree.owner_unique hc' hc ▸ hq)

end TreeShaped

/-! ### Levels -/

/-- `n` levels are enough for block `id` and all below it, also after its conditionals get the
branches that they lack. -/
def Nests (body : Body) : ℕ → BlockId → Prop
  | 0, _ => False
  | n + 1, id => ∃ b, body.block id = .ok b ∧ (∀ c ∈ b.childBlocks, Nests body n c) ∧
      (b.LacksBranch → 0 < n)

theorem Nests.exists_block {n : ℕ} (h : body.Nests n id) : ∃ b, body.block id = .ok b := by
  cases n with
  | zero => exact h.elim
  | succ n => exact ⟨h.choose, h.choose_spec.1⟩

theorem Nests.mono {n m : ℕ} (h : body.Nests n id) (hle : n ≤ m) : body.Nests m id := by
  induction n generalizing m id with
  | zero => exact h.elim
  | succ n ih =>
    obtain ⟨m, rfl⟩ := Nat.exists_eq_add_of_le' (Nat.zero_lt_of_lt hle)
    obtain ⟨b, hb, hc, hl⟩ := h
    exact ⟨b, hb, fun c hm => ih (hc c hm) (by omega), fun hn => by have := hl hn; omega⟩

theorem Nests.of_isChild {n : ℕ} (h : body.Nests (n + 1) p) (hc : body.IsChild p id) :
    body.Nests n id := by
  obtain ⟨b, hb, h, -⟩ := h
  exact h id ((isChild_iff hb).1 hc)

theorem Nests.of_reaches {n : ℕ} (h : body.Nests n p) (hr : body.Reaches p id) :
    body.Nests n id := by
  induction hr with
  | self => exact h
  | child _ hc ih =>
    obtain ⟨n, rfl⟩ : ∃ m, n = m + 1 := by
      cases n with
      | zero => exact ih.elim
      | succ n => exact ⟨n, rfl⟩
    exact (ih.of_isChild hc).mono (Nat.le_succ n)

/-- A block that lies within itself has no number of levels. -/
theorem Nests.irrefl {n : ℕ} (h : body.Nests n id) : ¬ Relation.TransGen body.IsChild id id := by
  induction n generalizing id with
  | zero => exact h.elim
  | succ n ih =>
    intro hcycle
    obtain ⟨c, hc, hback⟩ := Relation.TransGen.head'_iff.1 hcycle
    exact ih (h.of_isChild hc) (Relation.TransGen.tail' hback hc)

/-- A path that leads from the root down to its first element. -/
inductive Path (body : Body) : List BlockId → Prop
  | root : Path body [root]
  | down {p id : BlockId} {path : List BlockId} : Path body (p :: path) → body.IsChild p id →
      Path body (id :: p :: path)

namespace TreeShaped

variable (tree : body.TreeShaped)
include tree

theorem path_lt_size {path : List BlockId} (h : body.Path path) : ∀ x ∈ path, x < body.size := by
  induction h with
  | root => exact fun x hx => List.mem_singleton.1 hx ▸ tree.nonempty
  | down _ hc ih =>
    intro x hx
    rcases List.mem_cons.1 hx with rfl | hx
    · exact tree.lt_size hc
    · exact ih x hx

/-- The owner of a block on a path is the next block of the path. -/
theorem path_owner {path : List BlockId} (h : body.Path path) {pre post : List BlockId}
    (hpath : path = pre ++ id :: post) (hp : body.IsChild p id) : p ∈ post := by
  induction h generalizing pre with
  | root =>
    cases pre with
    | nil => cases hpath; exact absurd hp tree.not_isChild_root
    | cons a pre => simp at hpath
  | down _ hc ih =>
    cases pre with
    | nil =>
      rw [List.nil_append, List.cons.injEq] at hpath
      obtain ⟨rfl, rfl⟩ := hpath
      rw [tree.owner_unique hp hc]
      exact List.mem_cons_self
    | cons a pre =>
      rw [List.cons_append, List.cons.injEq] at hpath
      exact ih hpath.2

theorem nodup_path {path : List BlockId} (h : body.Path path) : path.Nodup := by
  induction h with
  | root => simp
  | @down p id path hpath hc ih =>
    refine List.nodup_cons.2 ⟨fun hmem => ?_, ih⟩
    obtain ⟨pre, post, heq⟩ := List.append_of_mem hmem
    have hp := tree.path_owner hpath heq hc
    -- the owner heads the path, so it cannot come again behind the block it owns
    cases pre with
    | nil =>
      obtain ⟨rfl, rfl⟩ : p = id ∧ path = post := by simpa using heq
      exact (List.nodup_cons.1 ih).1 hp
    | cons a pre =>
      obtain ⟨rfl, rfl⟩ : p = a ∧ path = pre ++ id :: post := by simpa using heq
      exact (List.nodup_cons.1 ih).1 (by simp [hp])

theorem length_path_le {path : List BlockId} (h : body.Path path) : path.length ≤ body.size := by
  have hsub : path ⊆ List.range body.size := fun x hx => List.mem_range.2 (tree.path_lt_size h x hx)
  simpa using (List.subperm_of_subset (tree.nodup_path h) hsub).length_le

theorem nests_of_path {n : ℕ} {path : List BlockId} (h : body.Path (id :: path))
    (hn : n + path.length = body.size + 1) : body.Nests n id := by
  induction n generalizing id path with
  | zero =>
    have := tree.length_path_le h
    simp only [List.length_cons] at this
    omega
  | succ n ih =>
    -- a level down makes the path a block longer, and no path is longer than the arena
    have hlen := tree.length_path_le h
    simp only [List.length_cons] at hlen
    obtain ⟨b, hb⟩ := exists_block (tree.path_lt_size h id List.mem_cons_self)
    refine ⟨b, hb, fun c hc => ?_, fun _ => by omega⟩
    exact ih (h.down ((isChild_iff hb).2 hc)) (by simp only [List.length_cons]; omega)

/-- The levels that a traversal allows are enough for the whole body. -/
theorem nests_root : body.Nests body.maxDepth root := tree.nests_of_path .root rfl

theorem irrefl_of_reaches (h : body.Reaches root id) : ¬ Relation.TransGen body.IsChild id id :=
  (tree.nests_root.of_reaches h).irrefl

end TreeShaped

/-! ### Descents -/

/-- The conditional stands in a block below the root, maybe behind labels. -/
def Holds (body : Body) (c : Conditional) : Prop :=
  ∃ id b t, body.Reaches root id ∧ body.block id = .ok b ∧ t ∈ b.statements ∧
    t.unlabeled = .conditional c

theorem Holds.reaches {c : Conditional} (h : body.Holds c)
    (hx : x ∈ (Statement.conditional c).childBlocks) : body.Reaches root x := by
  obtain ⟨id, b, t, hr, hb, ht, hc⟩ := h
  refine .child hr ⟨b, hb, List.mem_flatMap.2 ⟨t, ht, ?_⟩⟩
  rw [← t.childBlocks_unlabeled, hc]
  exact hx

/-- **Two steps a level.** A descent leads from a block to the blocks it owns and to the conditionals
in it, and from a conditional to its branches and to the rung that its alternative is. What holds of
everything that it leads to from there holds of a block or a conditional with a step more. -/
theorem TreeShaped.descent (tree : body.TreeShaped) {B : ℕ → BlockId → Prop}
    {C : ℕ → Conditional → Prop}
    (block : ∀ fuel id b, body.Reaches root id → body.block id = .ok b →
      (∀ x ∈ b.childBlocks, B fuel x) →
      (∀ t ∈ b.statements, ∀ c, t.unlabeled = .conditional c → C fuel c) → B (fuel + 1) id)
    (conditional : ∀ fuel c, body.Holds c →
      (∀ x ∈ (Statement.conditional c).childBlocks, B fuel x) →
      (∀ x b rung, c.elseBranch = some x → body.block x = .ok b →
        b.statements = [.conditional rung] → C fuel rung) → C (fuel + 1) c) :
    B (2 * body.maxDepth) root := by
  -- a conditional takes a step more than the blocks that it owns
  have levels : ∀ n, (∀ id, body.Reaches root id → body.Nests n id →
        ∀ fuel, 2 * n ≤ fuel → B fuel id) ∧
      ∀ c, body.Holds c → (∀ x ∈ (Statement.conditional c).childBlocks, body.Nests n x) →
        ∀ fuel, 2 * n + 1 ≤ fuel → C fuel c := by
    intro n
    induction n with
    | zero =>
      refine ⟨fun _ _ h => h.elim, fun c hc hnests fuel hfuel => ?_⟩
      obtain ⟨fuel, rfl⟩ := Nat.exists_eq_add_of_le' hfuel
      refine conditional fuel c hc (fun x hx => (hnests x hx).elim) fun x b rung hx _ _ => ?_
      exact (hnests x (by simp [hx])).elim
    | succ n ih =>
      have hblock : ∀ id, body.Reaches root id → body.Nests (n + 1) id →
          ∀ fuel, 2 * (n + 1) ≤ fuel → B fuel id := by
        rintro id hr ⟨b, hb, hnests, -⟩ fuel hfuel
        obtain ⟨fuel, rfl⟩ := Nat.exists_eq_add_of_le' (Nat.one_le_of_lt hfuel)
        refine block fuel id b hr hb (fun x hx => ?_) fun t ht c hc => ?_
        · exact ih.1 x (.child hr ((isChild_iff hb).2 hx)) (hnests x hx) fuel (by omega)
        · refine ih.2 c ⟨id, b, t, hr, hb, ht, hc⟩ (fun x hx => ?_) fuel (by omega)
          refine hnests x (List.mem_flatMap.2 ⟨t, ht, ?_⟩)
          rwa [← t.childBlocks_unlabeled, hc]
      refine ⟨hblock, fun c hc hnests fuel hfuel => ?_⟩
      obtain ⟨fuel, rfl⟩ := Nat.exists_eq_add_of_le' (Nat.one_le_of_lt hfuel)
      refine conditional fuel c hc (fun x hx => ?_) fun x b rung hx hb hrung => ?_
      · exact hblock x (hc.reaches hx) (hnests x hx) fuel (by omega)
      · have hx' : x ∈ (Statement.conditional c).childBlocks := by simp [hx]
        refine ih.2 rung ⟨x, b, _, hc.reaches hx', hb, by rw [hrung]; exact List.mem_singleton_self _,
          rfl⟩ (fun y hy => ?_) fuel (by omega)
        refine (hnests x hx').of_isChild ((isChild_iff hb).2 ?_)
        rw [Block.childBlocks, hrung, List.flatMap_singleton]
        exact hy
  exact (levels body.maxDepth).1 root .self tree.nests_root _ (Nat.le_refl _)

/-! ### The blocks below a block -/

theorem below_succ {n : ℕ} {ids : List BlockId} :
    body.below (n + 1) id = .ok ids ↔ ∃ b lists, body.block id = .ok b ∧
      List.Forall₂ (fun c l => body.below n c = .ok l) b.childBlocks lists ∧
      ids = id :: lists.flatten := by
  simp only [below, bind_eq_ok, mapM_eq_ok, pure_eq_ok, Except.ok.injEq, eq_comm (b := ids)]
  constructor
  · rintro ⟨b, hb, lists, hl, rfl⟩
    exact ⟨b, lists, hb, hl, rfl⟩
  · rintro ⟨b, lists, hb, hl, rfl⟩
    exact ⟨b, hb, lists, hl, rfl⟩

theorem Nests.exists_below {n : ℕ} (h : body.Nests n id) : ∃ ids, body.below n id = .ok ids := by
  induction n generalizing id with
  | zero => exact h.elim
  | succ n ih =>
    obtain ⟨b, hb, hc, -⟩ := h
    obtain ⟨lists, hl⟩ := exists_mapM fun c hm => ih (hc c hm)
    exact ⟨_, below_succ.2 ⟨b, lists, hb, mapM_eq_ok.1 hl, rfl⟩⟩

theorem below_mono {n m : ℕ} {ids : List BlockId} (h : body.below n id = .ok ids) (hle : n ≤ m) :
    body.below m id = .ok ids := by
  induction n generalizing m id ids with
  | zero => cases h
  | succ n ih =>
    obtain ⟨m, rfl⟩ := Nat.exists_eq_add_of_le' (Nat.zero_lt_of_lt hle)
    obtain ⟨b, lists, hb, hl, rfl⟩ := below_succ.1 h
    exact below_succ.2 ⟨b, lists, hb, hl.imp fun c l hc => ih hc (by omega), rfl⟩

theorem mem_below {n : ℕ} {ids : List BlockId} (h : body.below n id = .ok ids) :
    x ∈ ids ↔ body.Reaches id x := by
  induction n generalizing id ids with
  | zero => cases h
  | succ n ih =>
    obtain ⟨b, lists, hb, hl, rfl⟩ := below_succ.1 h
    rw [List.mem_cons, List.mem_flatten]
    constructor
    · rintro (rfl | ⟨l, hm, hx⟩)
      · exact .self
      · obtain ⟨c, hc, hcl⟩ := forall₂_exists_left hl hm
        exact .head ((isChild_iff hb).2 hc) ((ih hcl).1 hx)
    · intro hr
      rw [reaches_iff, Relation.ReflTransGen.cases_head_iff] at hr
      rcases hr with rfl | ⟨c, hc, hr⟩
      · exact .inl rfl
      · obtain ⟨l, hm, hcl⟩ := forall₂_exists_right hl ((isChild_iff hb).1 hc)
        exact .inr ⟨l, hm, (ih hcl).2 (reaches_iff.2 hr)⟩

namespace TreeShaped

variable (tree : body.TreeShaped)
include tree

theorem not_reaches_owner (hroot : body.Reaches root p) (hc : body.IsChild p x)
    (hr : body.Reaches x y) : ¬ body.Reaches y p := by
  intro hback
  refine tree.irrefl_of_reaches hroot ?_
  exact Relation.TransGen.head' hc (reaches_iff.1 (hr.trans hback))

/-- What lies below one of two siblings does not lie below the other. -/
theorem siblings_apart (hroot : body.Reaches root p) (hx : body.IsChild p x)
    (hy : body.IsChild p y) (hne : x ≠ y) (hr : body.Reaches x id) : ¬ body.Reaches y id := by
  have up : ∀ {x y}, body.IsChild p x → body.IsChild p y → x ≠ y → ¬ body.Reaches x y := by
    intro x y hx hy hne hxy
    cases hxy with
    | self => exact hne rfl
    | child hz hzy =>
      rw [tree.owner_unique hzy hy] at hz
      exact tree.not_reaches_owner hroot hx hz .self
  intro hr'
  rcases tree.reaches_total hr hr' with hxy | hyx
  · exact up hx hy hne hxy
  · exact up hy hx hne.symm hyx

/-- Along the blocks below a block, no block lies below a later one. So each is listed once, and an
owner comes before what it owns. -/
theorem pairwise_below {n : ℕ} {ids : List BlockId} (hroot : body.Reaches root id)
    (h : body.below n id = .ok ids) : ids.Pairwise fun x y => ¬ body.Reaches y x := by
  induction n generalizing id ids with
  | zero => cases h
  | succ n ih =>
    obtain ⟨b, lists, hb, hl, rfl⟩ := below_succ.1 h
    have child : ∀ {c}, c ∈ b.childBlocks → body.IsChild id c := (isChild_iff hb).2
    -- the block and what is below it; within one child; across two children
    refine List.pairwise_cons.2 ⟨fun y hy => ?_, List.pairwise_flatten.2 ⟨fun l hm => ?_, ?_⟩⟩
    · obtain ⟨l, hm, hyl⟩ := List.mem_flatten.1 hy
      obtain ⟨c, hc, hcl⟩ := forall₂_exists_left hl hm
      exact tree.not_reaches_owner hroot (child hc) ((mem_below hcl).1 hyl)
    · obtain ⟨c, hc, hcl⟩ := forall₂_exists_left hl hm
      exact ih (hroot.child (child hc)) hcl
    · refine pairwise_of_forall₂ hl (tree.nodup_childBlocks hb) ?_
      intro c hc d hd l l' hcl hdl hne x hx y hy hyx
      refine tree.siblings_apart hroot (child hc) (child hd) hne ((mem_below hcl).1 hx) ?_
      exact ((mem_below hdl).1 hy).trans hyx

theorem nodup_below {n : ℕ} {ids : List BlockId} (hroot : body.Reaches root id)
    (h : body.below n id = .ok ids) : ids.Nodup := by
  refine (tree.pairwise_below hroot h).imp ?_
  rintro x _ hr rfl
  exact hr .self

end TreeShaped

end Body

end BranchExclusion
