import BranchExclusion.Proofs.Chain.Order
import BranchExclusion.Proofs.Layout.Filled
import BranchExclusion.Proofs.Method.Discovery

/-!
# What discovery leaves behind

Before a block is scanned, its conditionals get the true branches that they lack. Nothing else of a
method changes while discovery goes through it.

* `Body.trueBranches`: the true branches of all conditionals of a body;
* `Method.Scans.exists_filledAt`: a run of visits fills in branches of some blocks, and no others;
* `Body.FilledAt.count_trueBranches`: each new block is the true branch of one conditional;
* `Method.discover_completes`: the body that discovery leaves, and its text.
-/

namespace BranchExclusion

open Layout

/-- The true branch of the conditional that stands there, maybe behind labels. -/
def Statement.trueBranch? (t : Statement) : Option BlockId :=
  t.unlabeled.conditional?.bind Conditional.thenBranch

/-- The true branches of the conditionals in the block, in source order. -/
def Block.trueBranches (b : Block) : List BlockId :=
  b.statements.flatMap fun t => t.trueBranch?.toList

/-- The true branches of all conditionals in the arena, block by block. -/
def Body.trueBranches (body : Body) : List BlockId :=
  body.blocks.toList.flatMap Block.trueBranches

theorem Statement.trueBranch?_sublist (t : Statement) :
    t.trueBranch?.toList.Sublist t.childBlocks := by
  rw [← t.childBlocks_unlabeled, trueBranch?]
  cases t.unlabeled with
  | conditional c => exact List.sublist_append_left _ _
  | _ => exact List.nil_sublist _

namespace Body

variable {body after : Body} {P : BlockId → Prop} {id : BlockId}

theorem trueBranches_sublist (body : Body) : body.trueBranches.Sublist body.mentions :=
  List.Sublist.flatMap_right _ fun _ _ =>
    List.Sublist.flatMap_right _ fun t _ => t.trueBranch?_sublist

theorem mem_trueBranches {p : BlockId} {b : Block} {c : Conditional} (hb : body.block p = .ok b)
    (hc : .conditional c ∈ b.statements) (hid : c.thenBranch = some id) :
    id ∈ body.trueBranches := by
  refine List.mem_flatMap.2 ⟨b, Array.mem_toList_iff.2 (Array.mem_of_getElem? (block_eq_ok.1 hb)),
    List.mem_flatMap.2 ⟨_, hc, ?_⟩⟩
  rw [Option.mem_toList]
  exact hid

/-- A new block is mentioned by a conditional that got it for its true branch. -/
theorem Filled.mem_trueBranches (h : body.Filled after) (tree : body.TreeShaped)
    (hle : body.size ≤ id) (hid : id ∈ after.mentions) : id ∈ after.trueBranches := by
  obtain ⟨p, b', hb', hchild⟩ := mem_mentions.1 hid
  obtain ⟨t', ht', hmem⟩ := List.mem_flatMap.1 hchild
  rcases h.cases_block hb' with ⟨b, hb, hf, -⟩ | ⟨-, rfl⟩
  · obtain ⟨t, ht, hft⟩ := forall₂_exists_left hf ht'
    -- what the block mentioned before has a smaller number
    have hnew : id ∉ t.childBlocks := fun hold =>
      Nat.not_lt.2 hle (tree.lt_size ⟨b, hb, List.mem_flatMap.2 ⟨t, ht, hold⟩⟩)
    cases hft with
    | same => exact (hnew hmem).elim
    | branch c x hnone _ =>
      rw [Statement.childBlocks_conditional, Option.toList_some, List.singleton_append,
        List.mem_cons] at hmem
      rcases hmem with rfl | hmem
      · exact Body.mem_trueBranches hb' ht' rfl
      · exact (hnew (by simp [hnone, hmem])).elim
  · cases ht'

/-- **Each new block is the true branch of one conditional.** -/
theorem FilledAt.count_trueBranches (h : body.FilledAt P after) (tree : body.TreeShaped)
    (hle : body.size ≤ id) (hlt : id < after.size) : after.trueBranches.count id = 1 := by
  have hmem : id ∈ after.mentions := by
    refine h.mentions.mem_iff.2 (List.mem_append_right _ (List.mem_range'_1.2 ⟨hle, ?_⟩))
    rwa [Nat.add_sub_of_le h.size_le]
  have hmost : after.trueBranches.count id ≤ 1 :=
    (after.trueBranches_sublist.count_le id).trans
      (List.nodup_iff_count_le_one.1 (h.treeShaped tree).once id)
  have hleast : 0 < after.trueBranches.count id :=
    List.count_pos_iff.2 (h.toFilled.mem_trueBranches tree hle hmem)
  omega

end Body

namespace Method

variable {s : Scanner} {index : ℕ} {m m' : Method} {visits : List Visit}

/-- A run of visits fills in all missing branches of some blocks, and no others. -/
theorem Scans.exists_filledAt (h : Scans s index m visits m') (tree : m.body.TreeShaped) :
    ∃ P, m.body.FilledAt P m'.body := by
  induction h with
  | nil m => exact ⟨_, .refl m.body⟩
  | cons hr hvisit _ ih =>
    obtain ⟨body, chains, found, b, hscan, -, -, rfl, -⟩ := visit_eq_ok.1 hvisit
    obtain ⟨after, chains', hscan', hf, -⟩ :=
      Scanner.exists_filledAt_scan s tree (tree.nests_root.of_reaches hr) (Nat.le_refl _)
    rw [hscan, Except.ok.injEq, Prod.mk.injEq] at hscan'
    obtain ⟨rfl, -⟩ := hscan'
    obtain ⟨P, hP⟩ := ih (hf.treeShaped tree)
    exact ⟨_, hf.trans hP⟩

/-- **Discovery fills in true branches and does nothing else.** It comes to an end on every
tree-shaped body. Every block of the body stays, with no more than missing true branches filled in.
The blocks that are added are empty, each is the true branch of one conditional, and the body is still
a tree. In the blocks that the root leads to, every conditional has its true branch. The body has the
text that it had before, whatever its indentation and the bodies nested in it. -/
theorem discover_completes (s : Scanner) (index : ℕ) (m : Method) (tree : m.body.TreeShaped) :
    ∃ after visits, m.discover s index = .ok ({ m with body := after }, visits) ∧
      m.body.size ≤ after.size ∧
      (∀ id b, m.body.block id = .ok b → ∃ b', after.block id = .ok b' ∧
        b.Filled (fun x => m.body.size ≤ x ∧ x < after.size) b') ∧
      (∀ id, m.body.size ≤ id → id < after.size →
        after.block id = .ok Block.synthetic ∧ after.trueBranches.count id = 1) ∧
      after.TreeShaped ∧
      (∀ id b c, after.Reaches Body.root id → after.block id = .ok b →
        .conditional c ∈ b.statements → c.thenBranch ≠ none) ∧
      ∀ unit base nested, renderBody after unit base nested = renderBody m.body unit base nested := by
  obtain ⟨after, visits, hdiscover, hf, hta, ids, lists, hids, -, -, hnormal⟩ :=
    exists_discover_of_treeShaped s index m tree
  obtain ⟨P, hP⟩ := (scans_of_discoverBelow tree .self hdiscover).exists_filledAt tree
  refine ⟨after, visits, hdiscover, hf.size_le, fun _ _ hb => hf.old hb, fun id hle hlt => ?_, hta,
    fun id b c hr hb hc hnone => ?_, fun unit base nested => hf.renderBody_eq tree unit base nested⟩
  · obtain ⟨b, hb⟩ := Body.exists_block hlt
    rw [hb, hf.new hle hb]
    exact ⟨rfl, hP.count_trueBranches tree hle hlt⟩
  · have hcomplete := hnormal id ((Body.mem_below hids).2 hr) id .refl
    exact hcomplete.not_lacksBranch hb ⟨c, hc, hnone⟩

/-- The small ladder gets two branches, and has the same text as without them. -/
theorem discover_completes_ladder : ladder.body.TreeShaped ∧
    ladder.discover .standard 7 = .ok ({ ladder with body := ladderBody }, ladderVisits) ∧
    (∀ id, 3 ≤ id → id < 5 → ladderBody.block id = .ok Block.synthetic ∧
      ladderBody.trueBranches.count id = 1) ∧ ladderBody.TreeShaped ∧
    ∀ unit base nested, renderBody ladderBody unit base nested =
      renderBody ladder.body unit base nested := by
  obtain ⟨after, visits, hdiscover, -, -, hnew, htree, -, htext⟩ :=
    discover_completes .standard 7 ladder treeShaped_ladder
  rw [discover_ladder, Except.ok.injEq, Prod.mk.injEq] at hdiscover
  obtain rfl : ladderBody = after := congrArg Method.body hdiscover.1
  exact ⟨treeShaped_ladder, discover_ladder, hnew, htree, htext⟩

end Method

end BranchExclusion
