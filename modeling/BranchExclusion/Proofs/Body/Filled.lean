import BranchExclusion.Proofs.Body.Tree

/-!
# Bodies whose missing branches were filled in

Looking for chains gives conditionals the true branches that they lack and adds the new, empty
blocks at the end of the arena. `Body.Filled` says that a body differs from another in this way
only.

* `Filled.refl`, `Filled.trans`: any number of such steps is one;
* `Filled.block_eq`: a block whose conditionals all have their branches stays as it is;
* `Filled.nests`: the levels that were enough are still enough.
-/

namespace BranchExclusion

/-- `t` is `s`, or `s` with the true branch that it lacks, whose number satisfies `New`. -/
inductive Statement.Filled (New : BlockId → Prop) : Statement → Statement → Prop
  | same (s : Statement) : Statement.Filled New s s
  | branch (c : Conditional) (t : BlockId) : c.thenBranch = none → New t →
      Statement.Filled New (.conditional c) (.conditional { c with thenBranch := some t })

namespace Statement.Filled

variable {New New' : BlockId → Prop} {s t u : Statement}

theorem mono (h : Statement.Filled New s t) (hn : ∀ x, New x → New' x) :
    Statement.Filled New' s t := by
  cases h with
  | same => exact .same s
  | branch c x hc hx => exact .branch c x hc (hn x hx)

theorem trans (h : Statement.Filled New s t) (h' : Statement.Filled New t u) :
    Statement.Filled New s u := by
  cases h with
  | same => exact h'
  | branch c x hc hx =>
    cases h' with
    | same => exact .branch c x hc hx
    | branch _ _ hc' => cases hc'

theorem isExit_eq (h : Statement.Filled New s t) : t.isExit = s.isExit := by
  cases h <;> rfl

theorem isComment_eq (h : Statement.Filled New s t) : t.isComment = s.isComment := by
  cases h <;> rfl

theorem childBlocks_subset (h : Statement.Filled New s t) : s.childBlocks ⊆ t.childBlocks := by
  cases h with
  | same => exact List.Subset.refl _
  | branch c x hc hx => simp [hc]

/-- Only a conditional that lacked its branch has a block that was not there before. -/
theorem mem_childBlocks (h : Statement.Filled New s t) {x : BlockId} (hx : x ∈ t.childBlocks) :
    x ∈ s.childBlocks ∨ New x ∧ ∃ c, s = .conditional c ∧ c.thenBranch = none := by
  cases h with
  | same => exact .inl hx
  | branch c y hc hy =>
    simp only [childBlocks_conditional, Option.toList_some, List.singleton_append,
      List.mem_cons] at hx
    rcases hx with rfl | hx
    · exact .inr ⟨hy, c, rfl, hc⟩
    · exact .inl (by simp [hc, hx])

/-- A conditional was a conditional with the same line and alternative. -/
theorem conditional_right {d : Conditional} (h : Statement.Filled New s (.conditional d)) :
    ∃ c, s = .conditional c ∧ d.line = c.line ∧ d.elseBranch = c.elseBranch ∧
      (c.thenBranch.isSome → d = c) := by
  cases h with
  | same => exact ⟨d, rfl, rfl, rfl, fun _ => rfl⟩
  | branch c x hc hx => exact ⟨c, rfl, rfl, rfl, fun h => by simp [hc] at h⟩

/-- A conditional stays one, with the same alternative. -/
theorem conditional_left {c : Conditional} (h : Statement.Filled New (.conditional c) t) :
    ∃ d, t = .conditional d ∧ d.elseBranch = c.elseBranch := by
  cases h with
  | same => exact ⟨c, rfl, rfl⟩
  | branch c x hc hx => exact ⟨_, rfl, rfl⟩

end Statement.Filled

namespace Statement

variable {New New' : BlockId → Prop} {l l' l'' : List Statement}

theorem filled_trans (h : List.Forall₂ (Filled New) l l') (h' : List.Forall₂ (Filled New) l' l'') :
    List.Forall₂ (Filled New) l l'' := by
  induction h generalizing l'' with
  | nil => exact h'
  | cons hs _ ih =>
    obtain ⟨t, r, ht, hr, rfl⟩ := List.forall₂_cons_left_iff.1 h'
    exact .cons (hs.trans ht) (ih hr)

theorem filled_filter (h : List.Forall₂ (Filled New) l l') :
    List.Forall₂ (Filled New) (l.filter fun s => !s.isComment)
      (l'.filter fun s => !s.isComment) := by
  induction h with
  | nil => exact .nil
  | cons hs _ ih =>
    simp only [List.filter_cons, hs.isComment_eq]
    split
    · exact .cons hs ih
    · exact ih

theorem filled_any (h : List.Forall₂ (Filled New) l l') : l'.any isExit = l.any isExit := by
  induction h with
  | nil => rfl
  | cons hs _ ih => rw [List.any_cons, List.any_cons, hs.isExit_eq, ih]

/-- Where no conditional lacks its branch, nothing is filled in. -/
theorem filled_eq (h : List.Forall₂ (Filled New) l l')
    (hl : ∀ c, conditional c ∈ l → c.thenBranch ≠ none) : l' = l := by
  induction h with
  | nil => rfl
  | cons hs _ ih =>
    rw [ih fun c hc => hl c (List.mem_cons_of_mem _ hc)]
    cases hs with
    | same => rfl
    | branch c x hc => exact absurd hc (hl c List.mem_cons_self)

end Statement

/-- The block with some of its missing branches filled in. -/
def Block.Filled (New : BlockId → Prop) (b b' : Block) : Prop :=
  List.Forall₂ (Statement.Filled New) b.statements b'.statements ∧
    b' = { b with statements := b'.statements }

namespace Block.Filled

variable {New New' : BlockId → Prop} {b b' b'' : Block}

theorem refl (New : BlockId → Prop) (b : Block) : b.Filled New b :=
  ⟨List.forall₂_same.2 fun s _ => .same s, rfl⟩

theorem mono (h : b.Filled New b') (hn : ∀ x, New x → New' x) : b.Filled New' b' :=
  ⟨h.1.imp fun _ _ hs => hs.mono hn, h.2⟩

theorem trans (h : b.Filled New b') (h' : b'.Filled New b'') : b.Filled New b'' := by
  refine ⟨Statement.filled_trans h.1 h'.1, ?_⟩
  rw [h'.2, h.2]

/-- No conditional lacked a branch, so nothing was filled in. -/
theorem eq_of_not_lacksBranch (h : b.Filled New b') (hb : ¬ b.LacksBranch) : b' = b := by
  have hs := Statement.filled_eq h.1 fun c hc hn => hb ⟨c, hc, hn⟩
  rw [h.2, hs]

theorem prologue_eq (h : b.Filled New b') : b'.prologue = b.prologue := by
  rw [h.2]

theorem exitsDirectly_eq (h : b.Filled New b') : b'.exitsDirectly = b.exitsDirectly :=
  Statement.filled_any h.1

theorem childBlocks_subset (h : b.Filled New b') : b.childBlocks ⊆ b'.childBlocks := by
  intro x hx
  obtain ⟨s, hs, hxs⟩ := List.mem_flatMap.1 hx
  obtain ⟨t, ht, hst⟩ := forall₂_exists_right h.1 hs
  exact List.mem_flatMap.2 ⟨t, ht, hst.childBlocks_subset hxs⟩

theorem mem_childBlocks (h : b.Filled New b') {x : BlockId} (hx : x ∈ b'.childBlocks) :
    x ∈ b.childBlocks ∨ New x ∧ b.LacksBranch := by
  obtain ⟨t, ht, hxt⟩ := List.mem_flatMap.1 hx
  obtain ⟨s, hs, hst⟩ := forall₂_exists_left h.1 ht
  rcases hst.mem_childBlocks hxt with hxs | ⟨hn, c, rfl, hc⟩
  · exact .inl (List.mem_flatMap.2 ⟨s, hs, hxs⟩)
  · exact .inr ⟨hn, c, hs, hc⟩

/-- A block that holds a single conditional still does. -/
theorem singleConditional?_eq_none (h : b.Filled New b') (hb : b.singleConditional? = none) :
    b'.singleConditional? = none := by
  by_contra hne
  obtain ⟨d, hd⟩ := Option.ne_none_iff_exists'.1 hne
  have hs := Statement.filled_filter h.1
  rw [Block.singleConditional?_eq_some] at hd
  unfold Block.significant at hd
  rw [hd] at hs
  obtain ⟨s, r, ht, hr, heq⟩ := List.forall₂_cons_right_iff.1 hs
  obtain ⟨c, rfl, -⟩ := ht.conditional_right
  rw [List.forall₂_nil_right_iff] at hr
  have hc : b.singleConditional? = some c := by
    rw [Block.singleConditional?_eq_some, Block.significant, heq, hr]
  rw [hb] at hc
  cases hc

/-- A block with a single conditional still holds a single one. -/
theorem singleConditional?_eq_some (h : b.Filled New b') {c : Conditional}
    (hb : b.singleConditional? = some c) : ∃ d, b'.singleConditional? = some d ∧
      Statement.Filled New (.conditional c) (.conditional d) := by
  have hs := Statement.filled_filter h.1
  rw [Block.singleConditional?_eq_some, Block.significant] at hb
  rw [hb] at hs
  obtain ⟨t, r, ht, hr, heq⟩ := List.forall₂_cons_left_iff.1 hs
  obtain ⟨d, rfl, -⟩ := ht.conditional_left
  rw [List.forall₂_nil_left_iff] at hr
  exact ⟨d, by rw [Block.singleConditional?_eq_some, Block.significant, heq, hr], ht⟩

end Block.Filled

namespace Body

/-- `after` is `body` with some of its missing branches filled in by new, empty blocks. -/
structure Filled (body after : Body) : Prop where
  size_le : body.size ≤ after.size
  old : ∀ {id b}, body.block id = .ok b → ∃ b', after.block id = .ok b' ∧
    b.Filled (fun x => body.size ≤ x ∧ x < after.size) b'
  new : ∀ {id b}, body.size ≤ id → after.block id = .ok b → b = Block.synthetic

namespace Filled

variable {body after last : Body} {id p : BlockId}

theorem refl (body : Body) : body.Filled body where
  size_le := Nat.le_refl _
  old hb := ⟨_, hb, .refl _ _⟩
  new hle hb := absurd (lt_size_of_block_eq_ok hb) (Nat.not_lt.2 hle)

theorem trans (h : body.Filled after) (h' : after.Filled last) : body.Filled last where
  size_le := Nat.le_trans h.size_le h'.size_le
  old hb := by
    obtain ⟨b', hb', hf⟩ := h.old hb
    obtain ⟨b'', hb'', hf'⟩ := h'.old hb'
    exact ⟨b'', hb'', (hf.mono fun x hx => ⟨hx.1, Nat.lt_of_lt_of_le hx.2 h'.size_le⟩).trans
      (hf'.mono fun x hx => ⟨Nat.le_trans h.size_le hx.1, hx.2⟩)⟩
  new {id b} hid hb := by
    by_cases hlt : id < after.size
    · obtain ⟨c, hc⟩ := exists_block hlt
      obtain ⟨b', hb', hf⟩ := h'.old hc
      obtain rfl := block_unique hb hb'
      rw [h.new hid hc] at hf
      exact hf.eq_of_not_lacksBranch (by rintro ⟨d, hd, -⟩; cases hd)
    · exact h'.new (by omega) hb

/-- A block of the new body was there before, or it is new and empty. -/
theorem cases_block (h : body.Filled after) {b' : Block} (hb' : after.block id = .ok b') :
    (∃ b, body.block id = .ok b ∧ b.Filled (fun x => body.size ≤ x ∧ x < after.size) b') ∨
      body.size ≤ id ∧ b' = Block.synthetic := by
  by_cases hid : id < body.size
  · obtain ⟨b, hb⟩ := exists_block hid
    obtain ⟨b'', hb'', hf⟩ := h.old hb
    exact .inl ⟨b, hb, block_unique hb'' hb' ▸ hf⟩
  · exact .inr ⟨Nat.not_lt.1 hid, h.new (Nat.not_lt.1 hid) hb'⟩

/-- A block whose conditionals all have their branches stays as it is. -/
theorem block_eq (h : body.Filled after) {b : Block} (hb : body.block id = .ok b)
    (hl : ¬ b.LacksBranch) : after.block id = .ok b := by
  obtain ⟨b', hb', hf⟩ := h.old hb
  rw [hb', hf.eq_of_not_lacksBranch hl]

theorem isChild (h : body.Filled after) (hc : body.IsChild p id) : after.IsChild p id := by
  obtain ⟨b, hb, hid⟩ := hc
  obtain ⟨b', hb', hf⟩ := h.old hb
  exact ⟨b', hb', hf.childBlocks_subset hid⟩

theorem reaches (h : body.Filled after) (hr : body.Reaches p id) : after.Reaches p id := by
  induction hr with
  | self => exact .self
  | child _ hc ih => exact .child ih (h.isChild hc)

theorem nests (h : body.Filled after) {n : ℕ} (hn : body.Nests n id) : after.Nests n id := by
  induction n generalizing id with
  | zero => exact hn
  | succ n ih =>
    obtain ⟨b, hb, hc, hl⟩ := hn
    obtain ⟨b', hb', hf⟩ := h.old hb
    refine ⟨b', hb', fun x hx => ?_, fun hl' => hl ?_⟩
    · rcases hf.mem_childBlocks hx with hx | ⟨⟨hle, hlt⟩, hlacks⟩
      · exact ih (hc x hx)
      · -- the new block is empty, and the spare level is for it
        obtain ⟨n, rfl⟩ := Nat.exists_eq_add_of_le' (hl hlacks)
        obtain ⟨e, he⟩ := exists_block hlt
        rw [h.new hle he] at he
        exact ⟨_, he, fun y hy => absurd hy List.not_mem_nil, by rintro ⟨d, hd, -⟩; cases hd⟩
    · by_contra hnot
      rw [hf.eq_of_not_lacksBranch hnot] at hl'
      exact hnot hl'

end Filled

end Body

end BranchExclusion
