import BranchExclusion.Proofs.Chain.Normal
import Mathlib.Logic.Equiv.Basic

/-!
# Renaming the blocks of a body

The numbers of the blocks that are filled in depend on the order in which they are asked for, and
nothing else does.

* `Statement.rename`, `Block.rename`: every block number renamed;
* `Body.RenamedBy`: two bodies that differ in the numbers of their blocks only;
* `exists_perm_of_perm`: a rearrangement of a list without repetitions is a permutation of its
  elements;
* `Statement.Twin`: one statement, filled in twice;
* `Body.FilledAt.exists_renaming`: two bodies that were filled in at the same blocks differ in the
  numbers of the new blocks only.
-/

namespace BranchExclusion

/-! ### Renaming -/

namespace Statement

/-- The statement with every block number renamed. -/
def rename (f : BlockId → BlockId) : Statement → Statement
  | conditional c =>
    conditional { c with thenBranch := c.thenBranch.map f, elseBranch := c.elseBranch.map f }
  | block id => block (f id)
  | compound c => compound { c with body := f c.body }
  | tryStatement t =>
    tryStatement { t with
      body := f t.body
      catches := t.catches.map fun k => { k with body := f k.body }
      finallyBlock := t.finallyBlock.map f }
  | labeled label body span => labeled label (body.rename f) span
  | s => s

variable {f : BlockId → BlockId}

theorem rename_eq_self {s : Statement} (h : ∀ x ∈ s.childBlocks, f x = x) : s.rename f = s := by
  have hoption : ∀ {o : Option BlockId}, (∀ x ∈ o.toList, f x = x) → o.map f = o := by
    intro o ho
    cases o with
    | none => rfl
    | some x => rw [Option.map_some, ho x (by simp)]
  induction s with
  | conditional c =>
    simp only [childBlocks_conditional, List.mem_append, or_imp, forall_and] at h
    rw [rename, hoption h.1, hoption h.2]
  | block id => rw [rename, h id (by simp)]
  | compound c => rw [rename, h c.body (by simp)]
  | tryStatement t =>
    simp only [childBlocks_tryStatement, TryStatement.blocks, List.mem_cons, List.mem_append,
      or_imp, forall_and, forall_eq, List.mem_map, forall_exists_index, and_imp,
      forall_apply_eq_imp_iff₂] at h
    have hcatches : t.catches.map (fun k => { k with body := f k.body }) = t.catches := by
      conv_rhs => rw [← List.map_id t.catches]
      exact List.map_congr_left fun k hk => by rw [h.2.1 k hk]; rfl
    rw [rename, h.1, hcatches, hoption h.2.2]
  | labeled label t span ih => rw [rename, ih h]
  | _ => rfl

end Statement

/-- The block with every block number renamed. -/
def Block.rename (f : BlockId → BlockId) (b : Block) : Block :=
  { b with statements := b.statements.map (Statement.rename f) }

/-- `other` is `body` with every block moved to the number that `f` gives it. -/
def Body.RenamedBy (body : Body) (f : BlockId → BlockId) (other : Body) : Prop :=
  other.size = body.size ∧
    ∀ id b, body.block id = .ok b → other.block (f id) = .ok (b.rename f)

/-- A rearrangement of a list without repetitions is a permutation of its elements. -/
theorem exists_perm_of_perm {α : Type} [DecidableEq α] {l l' : List α} (h : l.Perm l')
    (hl : l.Nodup) : ∃ π : Equiv.Perm α, l.map π = l' ∧ ∀ x, x ∉ l → π x = x := by
  induction h with
  | nil => exact ⟨1, rfl, fun _ _ => rfl⟩
  | @cons a l l' _ ih =>
    obtain ⟨ha, hl⟩ := List.nodup_cons.1 hl
    obtain ⟨π, hπ, hfix⟩ := ih hl
    refine ⟨π, by rw [List.map_cons, hπ, hfix a ha], fun x hx => hfix x fun hmem => hx ?_⟩
    exact List.mem_cons_of_mem a hmem
  | swap a b l =>
    simp only [List.nodup_cons, List.mem_cons, not_or] at hl
    have hrest : ∀ x ∈ l, Equiv.swap b a x = x := by
      intro x hx
      refine Equiv.swap_apply_of_ne_of_ne ?_ ?_
      · rintro rfl
        exact hl.1.2 hx
      · rintro rfl
        exact hl.2.1 hx
    refine ⟨Equiv.swap b a, ?_, fun x hx => ?_⟩
    · rw [List.map_cons, List.map_cons, Equiv.swap_apply_left, Equiv.swap_apply_right,
        List.map_congr_left hrest, List.map_id']
    · simp only [List.mem_cons, not_or] at hx
      exact Equiv.swap_apply_of_ne_of_ne hx.1 hx.2.1
  | trans h₁ _ ih₁ ih₂ =>
    obtain ⟨π₁, hπ₁, hfix₁⟩ := ih₁ hl
    obtain ⟨π₂, hπ₂, hfix₂⟩ := ih₂ (h₁.nodup_iff.1 hl)
    refine ⟨π₂ * π₁, by rw [← hπ₂, ← hπ₁, List.map_map]; rfl, fun x hx => ?_⟩
    rw [Equiv.Perm.mul_apply, hfix₁ x hx, hfix₂ x fun hmem => hx (h₁.mem_iff.2 hmem)]

theorem map_flatMap_inj {α β : Type} {g g' : α → List β} {f : β → β} {l : List α}
    (hlength : ∀ a ∈ l, (g a).length = (g' a).length)
    (h : (l.flatMap g).map f = l.flatMap g') : ∀ a ∈ l, (g a).map f = g' a := by
  induction l with
  | nil => exact fun a ha => absurd ha List.not_mem_nil
  | cons a l ih =>
    rw [List.flatMap_cons, List.flatMap_cons, List.map_append] at h
    obtain ⟨ha, hl⟩ := List.append_inj h (by rw [List.length_map, hlength a List.mem_cons_self])
    exact List.forall_mem_cons.2 ⟨ha, ih (fun b hb => hlength b (List.mem_cons_of_mem a hb)) hl⟩

/-! ### One statement filled in twice -/

/-- Two block numbers are the same one below `n`, or both are new. -/
def Aligned (n : ℕ) (x y : BlockId) : Prop := x = y ∧ x < n ∨ n ≤ x ∧ n ≤ y

theorem Aligned.of_lt {n : ℕ} {x y : BlockId} (h : Aligned n x y) (hx : x < n) : y = x := by
  rcases h with ⟨rfl, -⟩ | ⟨hle, -⟩
  · rfl
  · exact absurd hx (Nat.not_lt.2 hle)

/-- Two statements with aligned block numbers, which every renaming of the new ones that fits turns
into one another. -/
def Statement.Twin (n : ℕ) (t t' : Statement) : Prop :=
  List.Forall₂ (Aligned n) t.childBlocks t'.childBlocks ∧
    ∀ f : BlockId → BlockId, (∀ x < n, f x = x) → t.childBlocks.map f = t'.childBlocks →
      t.rename f = t'

namespace Statement

variable {n : ℕ} {New New' : BlockId → Prop} {s t t' : Statement}

theorem aligned_refl {l : List BlockId} (h : ∀ x ∈ l, x < n) : List.Forall₂ (Aligned n) l l :=
  List.forall₂_same.2 fun x hx => .inl ⟨rfl, h x hx⟩

theorem Twin.refl (h : ∀ x ∈ s.childBlocks, x < n) : s.Twin n s :=
  ⟨aligned_refl h, fun _ hf _ => rename_eq_self fun x hx => hf x (h x hx)⟩

/-- Two ways to fill in a statement that leave no branch out are twins. -/
theorem Filled.twin (h : Statement.Filled New s t) (h' : Statement.Filled New' s t')
    (hn : ∀ x, New x → n ≤ x) (hn' : ∀ x, New' x → n ≤ x) (hs : ∀ x ∈ s.childBlocks, x < n)
    (ht : ∀ c, t = .conditional c → c.thenBranch ≠ none)
    (ht' : ∀ c, t' = .conditional c → c.thenBranch ≠ none) : t.Twin n t' := by
  cases h with
  | same =>
    cases h' with
    | same => exact .refl hs
    | branch c x hc => exact absurd hc (ht c rfl)
  | branch c x hc hx =>
    cases h' with
    | same => exact absurd hc (ht' c rfl)
    | branch _ y _ hy =>
      have helse : ∀ z ∈ c.elseBranch.toList, z < n := fun z hz => hs z (by simp [hc, hz])
      refine ⟨.cons (.inr ⟨hn x hx, hn' y hy⟩) (aligned_refl helse), fun f hf hmap => ?_⟩
      have hxy : f x = y := by
        simp only [childBlocks_conditional, Option.toList_some, List.singleton_append,
          List.map_cons, List.cons.injEq] at hmap
        exact hmap.1
      have halt : c.elseBranch.map f = c.elseBranch := by
        cases he : c.elseBranch with
        | none => rfl
        | some z => rw [Option.map_some, hf z (helse z (by simp [he]))]
      rw [rename, Option.map_some, hxy, halt]

end Statement

/-- The same for the blocks of two bodies. -/
def Block.Twin (n : ℕ) (b b' : Block) : Prop :=
  List.Forall₂ (Aligned n) b.childBlocks b'.childBlocks ∧
    ∀ f : BlockId → BlockId, (∀ x < n, f x = x) → b.childBlocks.map f = b'.childBlocks →
      b.rename f = b'

namespace Block

variable {n : ℕ} {New New' : BlockId → Prop} {b b₁ b₂ : Block}

theorem twin_of_statements (h : List.Forall₂ (Statement.Twin n) b₁.statements b₂.statements)
    (hb : b₂ = { b₁ with statements := b₂.statements }) : b₁.Twin n b₂ := by
  have go : ∀ l l', List.Forall₂ (Statement.Twin n) l l' →
      List.Forall₂ (Aligned n) (l.flatMap Statement.childBlocks)
        (l'.flatMap Statement.childBlocks) ∧
      ∀ f : BlockId → BlockId, (∀ x < n, f x = x) →
        (l.flatMap Statement.childBlocks).map f = l'.flatMap Statement.childBlocks →
        l.map (Statement.rename f) = l' := by
    intro l l' hl
    induction hl with
    | nil => exact ⟨.nil, fun _ _ _ => rfl⟩
    | cons ht _ ih =>
      simp only [List.flatMap_cons, List.map_append, List.map_cons]
      refine ⟨List.rel_append ht.1 ih.1, fun f hf hmap => ?_⟩
      obtain ⟨hhead, htail⟩ := List.append_inj hmap (by rw [List.length_map, ht.1.length_eq])
      rw [ht.2 f hf hhead, ih.2 f hf htail]
  obtain ⟨haligned, hrename⟩ := go _ _ h
  refine ⟨haligned, fun f hf hmap => ?_⟩
  rw [rename, hrename f hf hmap]
  exact hb.symm

/-- Two ways to fill in a block that leave no branch out are twins. -/
theorem Filled.twin (h₁ : b.Filled New b₁) (h₂ : b.Filled New' b₂) (hn : ∀ x, New x → n ≤ x)
    (hn' : ∀ x, New' x → n ≤ x) (hb : ∀ x ∈ b.childBlocks, x < n) (hl₁ : ¬ b₁.LacksBranch)
    (hl₂ : ¬ b₂.LacksBranch) : b₁.Twin n b₂ := by
  have go : ∀ l l₁ l₂, List.Forall₂ (Statement.Filled New) l l₁ →
      List.Forall₂ (Statement.Filled New') l l₂ → l ⊆ b.statements → l₁ ⊆ b₁.statements →
      l₂ ⊆ b₂.statements → List.Forall₂ (Statement.Twin n) l₁ l₂ := by
    intro l l₁ l₂ hf₁
    induction hf₁ generalizing l₂ with
    | nil =>
      intro hf₂ _ _ _
      cases hf₂
      exact .nil
    | @cons s t₁ l l₁ ht₁ _ ih =>
      rintro (_ | ⟨ht₂, hf₂⟩) hs hs₁ hs₂
      refine .cons (ht₁.twin ht₂ hn hn' (fun x hx => ?_) ?_ ?_) (ih _ hf₂
        (List.subset_of_cons_subset hs) (List.subset_of_cons_subset hs₁)
        (List.subset_of_cons_subset hs₂))
      · exact hb x (List.mem_flatMap.2 ⟨s, hs List.mem_cons_self, hx⟩)
      · rintro c rfl hc
        exact hl₁ ⟨c, hs₁ List.mem_cons_self, hc⟩
      · rintro c rfl hc
        exact hl₂ ⟨c, hs₂ List.mem_cons_self, hc⟩
  refine twin_of_statements (go _ _ _ h₁.1 h₂.1 (List.Subset.refl _) (List.Subset.refl _)
    (List.Subset.refl _)) ?_
  conv_lhs => rw [h₂.2]
  rw [h₁.2]

theorem Twin.refl (hb : ∀ x ∈ b.childBlocks, x < n) : b.Twin n b :=
  twin_of_statements (List.forall₂_same.2 fun s hs => .refl fun x hx =>
    hb x (List.mem_flatMap.2 ⟨s, hs, hx⟩)) rfl

end Block

namespace Body

variable {body after after₁ after₂ : Body} {P : BlockId → Prop}

/-! ### Two bodies filled in at the same blocks -/

/-- The blocks that block `id` owns; none where there is no such block. -/
def childrenOf (body : Body) (id : BlockId) : List BlockId :=
  match body.block id with
  | .ok b => b.childBlocks
  | .error _ => []

theorem mentions_eq_flatMap (body : Body) :
    body.mentions = (List.range body.size).flatMap body.childrenOf := by
  rw [mentions, List.flatMap_def, List.flatMap_def]
  congr 1
  refine List.ext_getElem (by simp [size]) fun i h _ => ?_
  have hi : i < body.blocks.size := by simpa using h
  have hblock : body.block i = .ok body.blocks[i] := by
    rw [block_eq_ok]
    exact Array.getElem?_eq_getElem hi
  simp [childrenOf, hblock]

/-- The new blocks own nothing. -/
theorem Filled.mentions_eq (h : body.Filled after) :
    after.mentions = (List.range body.size).flatMap after.childrenOf := by
  have hnew : (List.range' body.size (after.size - body.size)).flatMap after.childrenOf = [] := by
    refine List.flatMap_eq_nil_iff.2 fun x hx => ?_
    rw [childrenOf]
    split
    · next b hb =>
      rw [h.new (List.mem_range'_1.1 hx).1 hb]
      rfl
    · rfl
  have hrange : List.range after.size =
      List.range body.size ++ List.range' body.size (after.size - body.size) := by
    have happend := List.range'_append_1 (s := 0) (m := body.size) (n := after.size - body.size)
    rw [Nat.zero_add, Nat.add_sub_of_le h.size_le] at happend
    rw [List.range_eq_range', List.range_eq_range', happend]
  rw [mentions_eq_flatMap, hrange, List.flatMap_append, hnew, List.append_nil]

/-- The blocks that were there before are twins. -/
theorem FilledAt.twin (tree : body.TreeShaped) (h₁ : body.FilledAt P after₁)
    (h₂ : body.FilledAt P after₂) {id : BlockId} {b₁ b₂ : Block} (hid : id < body.size)
    (hb₁ : after₁.block id = .ok b₁) (hb₂ : after₂.block id = .ok b₂) :
    b₁.Twin body.size b₂ := by
  obtain ⟨b, hb⟩ := exists_block hid
  have hold : ∀ x ∈ b.childBlocks, x < body.size := fun x hx =>
    tree.inRange x (mem_mentions.2 ⟨id, b, hb, hx⟩)
  by_cases hp : P id
  · obtain ⟨b₁', hb₁', hf₁⟩ := h₁.old hb
    obtain ⟨b₂', hb₂', hf₂⟩ := h₂.old hb
    obtain rfl := block_unique hb₁' hb₁
    obtain rfl := block_unique hb₂' hb₂
    exact hf₁.twin hf₂ (fun _ hx => hx.1) (fun _ hx => hx.1) hold (h₁.complete hp hb₁)
      (h₂.complete hp hb₂)
  · rw [h₁.untouched hid hp, hb] at hb₁
    rw [h₂.untouched hid hp, hb] at hb₂
    cases hb₁
    cases hb₂
    exact .refl hold

/-- **Two bodies that were filled in at the same blocks differ in the numbers of the new blocks
only.** -/
theorem FilledAt.exists_renaming (tree : body.TreeShaped) (h₁ : body.FilledAt P after₁)
    (h₂ : body.FilledAt P after₂) :
    ∃ π : Equiv.Perm BlockId, (∀ id < body.size, π id = id) ∧ after₁.RenamedBy π after₂ := by
  have htwin : ∀ id < body.size, ∃ b₁ b₂, after₁.block id = .ok b₁ ∧ after₂.block id = .ok b₂ ∧
      b₁.Twin body.size b₂ := by
    intro id hid
    obtain ⟨b₁, hb₁⟩ := exists_block (Nat.lt_of_lt_of_le hid h₁.size_le)
    obtain ⟨b₂, hb₂⟩ := exists_block (Nat.lt_of_lt_of_le hid h₂.size_le)
    exact ⟨b₁, b₂, hb₁, hb₂, h₁.twin tree h₂ hid hb₁ hb₂⟩
  have haligned : ∀ id ∈ List.range body.size,
      List.Forall₂ (Aligned body.size) (after₁.childrenOf id) (after₂.childrenOf id) := by
    intro id hid
    obtain ⟨b₁, b₂, hb₁, hb₂, ht⟩ := htwin id (List.mem_range.1 hid)
    simpa [childrenOf, hb₁, hb₂] using ht.1
  have hmentions : List.Forall₂ (Aligned body.size) after₁.mentions after₂.mentions := by
    rw [h₁.mentions_eq, h₂.mentions_eq]
    refine List.rel_flatMap (R := fun x y => x = y ∧ x ∈ List.range body.size)
      (List.forall₂_same.2 fun x hx => ⟨rfl, hx⟩) ?_
    rintro x _ ⟨rfl, hx⟩
    exact haligned x hx
  -- as many new blocks in the one body as in the other
  have hsize : after₂.size = after₁.size := by
    have hlength := hmentions.length_eq
    rw [h₁.mentions.length_eq, h₂.mentions.length_eq, List.length_append, List.length_append,
      List.length_range', List.length_range'] at hlength
    have hle₁ := h₁.size_le
    have hle₂ := h₂.size_le
    omega
  have hperm : after₁.mentions.Perm after₂.mentions := by
    refine h₁.mentions.trans ?_
    rw [← hsize]
    exact h₂.mentions.symm
  obtain ⟨π, hπ, hfixes⟩ := exists_perm_of_perm hperm (h₁.treeShaped tree).once
  have hmap : ∀ x ∈ after₁.mentions, Aligned body.size x (π x) := by
    rwa [← hπ, List.forall₂_map_right_iff, List.forall₂_same] at hmentions
  have hold : ∀ id < body.size, π id = id := by
    intro id hid
    by_cases hmem : id ∈ after₁.mentions
    · exact (hmap id hmem).of_lt hid
    · exact hfixes id hmem
  refine ⟨π, hold, hsize, fun id b hb => ?_⟩
  by_cases hid : id < body.size
  · obtain ⟨b₁, b₂, hb₁, hb₂, ht⟩ := htwin id hid
    obtain rfl := block_unique hb₁ hb
    have hchildren : (after₁.childrenOf id).map π = after₂.childrenOf id := by
      rw [h₁.mentions_eq, h₂.mentions_eq] at hπ
      exact map_flatMap_inj (fun x hx => (haligned x hx).length_eq) hπ id (List.mem_range.2 hid)
    simp only [childrenOf, hb₁, hb₂] at hchildren
    rw [hold id hid, hb₂, ht.2 π hold hchildren]
  · have hnew : body.size ≤ id := Nat.not_lt.1 hid
    have hmem : id ∈ after₁.mentions := by
      refine h₁.mentions.mem_iff.2 (List.mem_append_right _ (List.mem_range'_1.2 ⟨hnew, ?_⟩))
      rw [Nat.add_sub_of_le h₁.size_le]
      exact lt_size_of_block_eq_ok hb
    have hnew' : body.size ≤ π id := by
      rcases hmap id hmem with ⟨-, hlt⟩ | ⟨-, hle⟩
      · exact absurd hlt hid
      · exact hle
    have hmem' : π id ∈ after₂.mentions := hπ ▸ List.mem_map_of_mem hmem
    obtain ⟨b', hb'⟩ := exists_block ((h₂.treeShaped tree).inRange _ hmem')
    rw [hb', h₂.new hnew' hb', h₁.new hnew hb]
    rfl

end Body

end BranchExclusion
