import BranchExclusion.Proofs.Body.Renaming
import BranchExclusion.Proofs.Method.Flags
import BranchExclusion.Proofs.Transform.Methods

/-!
# What a settled method consists of

Whatever becomes of a method, its body has missing branches filled in and statements about flags woven
in.

* `FlagStyle.Writes`: the statements about flags;
* `Body.Woven.treeShaped`: they leave the tree of blocks as it is;
* `Method.Settles.exists_woven`: the body of a settled method.
-/

namespace BranchExclusion

/-- The statement declares a flag, raises one or compares two. -/
inductive FlagStyle.Writes (style : FlagStyle) : Statement → Prop
  | declaration (m : Member) : Writes style (style.declaration m)
  | raised (m : Member) : Writes style (style.raised m)
  | exclusion (m l : Member) : Writes style (style.exclusion m l)

namespace FlagStyle

variable {style : FlagStyle} {t : Statement}

theorem Writes.childBlocks_eq (h : style.Writes t) : t.childBlocks = [] := by
  cases h <;> rfl

theorem writes_of_mem {chains : List Chain} {members : List Member} {id : BlockId}
    (h : t ∈ style.declarations chains id ∨ t ∈ style.raises members id ∨
      t ∈ style.exclusions chains id) : style.Writes t := by
  rcases h with h | h | h
  · obtain ⟨-, -, -, m, -, rfl⟩ := mem_declarations.1 h
    exact .declaration m
  · obtain ⟨m, -, -, rfl⟩ := mem_raises.1 h
    exact .raised m
  · obtain ⟨-, -, -, p, -, rfl⟩ := mem_exclusions.1 h
    exact .exclusion p.1 p.2

end FlagStyle

/-- Statements without blocks give a block no new ones. -/
theorem Block.childBlocks_weave {b : Block} {d a e : List Statement}
    (h : ∀ t, t ∈ d ∨ t ∈ a ∨ t ∈ e → t.childBlocks = []) :
    (b.weave d a e).childBlocks = b.childBlocks := by
  have hnil : ∀ l : List Statement, (∀ t ∈ l, t ∈ d ∨ t ∈ a ∨ t ∈ e) →
      l.flatMap Statement.childBlocks = [] :=
    fun l hl => List.flatMap_eq_nil_iff.2 fun t ht => h t (hl t ht)
  have hk := take_drop_take (l := b.statements) (Nat.le_max_left b.front b.assertionIndex)
  simp only [childBlocks, weave, List.flatMap_append, hnil d (by simp +contextual),
    hnil a (by simp +contextual), hnil e (by simp +contextual), List.append_nil]
  rw [← List.flatMap_append, hk, ← List.flatMap_append, List.take_append_drop]

namespace Body.Woven

variable {body placed : Body} {d a e : BlockId → List Statement}

theorem mentions_eq (h : body.Woven placed d a e)
    (hnone : ∀ id t, t ∈ d id ∨ t ∈ a id ∨ t ∈ e id → t.childBlocks = []) :
    placed.mentions = body.mentions := by
  rw [mentions_eq_flatMap, mentions_eq_flatMap, h.size_eq]
  refine List.flatMap_congr fun id hid => ?_
  obtain ⟨b, hb⟩ := exists_block (List.mem_range.1 hid)
  rw [childrenOf, childrenOf, h.block_eq hb, hb]
  exact Block.childBlocks_weave (hnone id)

/-- Statements without blocks leave the tree of blocks as it is. -/
theorem treeShaped (h : body.Woven placed d a e) (tree : body.TreeShaped)
    (hnone : ∀ id t, t ∈ d id ∨ t ∈ a id ∨ t ∈ e id → t.childBlocks = []) : placed.TreeShaped := by
  have hmentions := h.mentions_eq hnone
  exact ⟨h.size_eq ▸ tree.nonempty, fun id hid => h.size_eq ▸ tree.inRange id (hmentions ▸ hid),
    hmentions ▸ tree.root_free, hmentions ▸ tree.once⟩

end Body.Woven

namespace Method

variable {style : FlagStyle} {m : Method} {chains : List Chain} {r : Settled}

theorem Judged.exists_woven (h : Judged style m chains r) (tree : m.body.TreeShaped)
    (hp : m.body.Placement chains) : ∃ placed d a e, m.body.Woven placed d a e ∧
      r.method = { m with body := placed } ∧
        ∀ id t, t ∈ d id ∨ t ∈ a id ∨ t ∈ e id → style.Writes t := by
  cases h with
  | quiet => exact ⟨_, _, _, _, .refl m.body, rfl, fun _ _ ht => by simp at ht⟩
  | refused => exact ⟨_, _, _, _, .refl m.body, rfl, fun _ _ ht => by simp at ht⟩
  | placed _ _ hplaced =>
    obtain ⟨placed', hplaced', hw⟩ := Body.exists_placed style tree hp
    obtain ⟨hfold, -⟩ := Body.of_instrument_eq_ok hplaced
    rw [hplaced', Except.ok.injEq] at hfold
    subst hfold
    exact ⟨_, _, _, _, hw, rfl, fun _ _ => FlagStyle.writes_of_mem⟩

/-- **The body of a settled method** is that of the method with missing branches filled in and
statements about flags woven in. -/
theorem Settles.exists_woven {s : Settings} (h : m.Settles s r) (tree : m.body.TreeShaped) :
    ∃ after placed d a e, m.body.Filled after ∧ after.TreeShaped ∧ after.Woven placed d a e ∧
      r.method = { m with body := placed } ∧
        ∀ id t, t ∈ d id ∨ t ∈ a id ∨ t ∈ e id → s.flagStyle.Writes t := by
  obtain ⟨after, hd, hj⟩ := h
  obtain ⟨after', chains, hd', hta, hp⟩ := m.exists_discovers s.scanner tree
  obtain ⟨rfl, hchains⟩ := hd.unique hd'
  rw [← hchains] at hp
  obtain ⟨placed, d, a, e, hw, hmethod, hwrites⟩ := hj.exists_woven hta hp
  exact ⟨after, placed, d, a, e, hd.filled, hta, hw, hmethod, hwrites⟩

theorem Settles.treeShaped {s : Settings} (h : m.Settles s r) (tree : m.body.TreeShaped) :
    r.method.body.TreeShaped := by
  obtain ⟨after, placed, d, a, e, -, hta, hw, hmethod, hwrites⟩ := h.exists_woven tree
  rw [hmethod]
  exact hw.treeShaped hta fun id t ht => (hwrites id t ht).childBlocks_eq

end Method

end BranchExclusion
