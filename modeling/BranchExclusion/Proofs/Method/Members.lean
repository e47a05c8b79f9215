import BranchExclusion.Proofs.Chain.Placement

/-!
# The members that discovery registers

The last rung of a ladder is taken in by the block above the ladder, while the blocks of the ladder
are scanned as well. All the same no conditional belongs to two chains.

* `Block.ne_unbraced`: a block with two conditionals is no single statement without braces;
* `Method.discovered_branches_apart`: the true branches of all members differ, each lies below the
  home of its chain, and no home is a rung of a ladder.
-/

namespace BranchExclusion

theorem Block.ne_unbraced {b : Block} (h : 2 ≤ b.conditionals.length) (t : Statement) (span : Span)
    (isSealed : Bool) : b ≠ .unbraced t span isSealed := by
  rintro rfl
  have hle : (Block.unbraced t span isSealed).conditionals.length ≤ 1 :=
    List.length_filterMap_le Statement.conditional? [t]
  exact absurd (Nat.le_trans h hle) (by decide)

namespace Method

/-- **No conditional belongs to two chains.** Discovery comes to an end on every tree-shaped body.
Among the members of all chains that it registers no true branch occurs twice. Every branch lies
below the home of its chain. Every home has two conditionals of its own, so it is neither a single
statement without braces nor a rung of any ladder of `else if`. -/
theorem discovered_branches_apart (s : Scanner) (index : ℕ) (m : Method)
    (tree : m.body.TreeShaped) : ∃ after visits,
      m.discover s index = .ok ({ m with body := after }, visits) ∧
      (((visits.flatMap Visit.found).flatMap fun e => e.chain.members).map
        Member.thenBranch).Nodup ∧
      ∀ e ∈ visits.flatMap Visit.found,
        (∀ x ∈ e.chain.members, Relation.TransGen after.IsChild e.chain.home x.thenBranch) ∧
        ∃ b, after.block e.chain.home = .ok b ∧ 2 ≤ b.conditionals.length ∧
          (∀ t span isSealed, b ≠ .unbraced t span isSealed) ∧
          ∀ p, ¬ after.IsRung p e.chain.home := by
  obtain ⟨after, visits, hdiscover, -, htree, hfound⟩ := exists_discover_of_treeShaped s index m tree
  have hplaced := hfound.placement htree
  rw [forMethod_visits (method_of_discover tree hdiscover)] at hplaced
  refine ⟨after, visits, hdiscover, ?_, fun e he => ?_⟩
  · have hnodup := hplaced.nodup
    rwa [List.flatMap_map] at hnodup
  · have hchain : e.chain ∈ (visits.flatMap Visit.found).map Registered.chain :=
      List.mem_map_of_mem he
    obtain ⟨b, hb, hlength⟩ := hplaced.home e.chain hchain
    exact ⟨fun x hx => (hplaced.adopts e.chain hchain x hx).below, b, hb, hlength,
      b.ne_unbraced hlength, fun _ => Body.not_isRung hb hlength⟩

/-! ### Two chains, one of them from a ladder -/

/-- A conditional with an `else if` and another conditional behind it. The first branch holds two
conditionals of its own. -/
def nested : Method where
  owner := "A"
  name := "f"
  span := .zero
  bodyRange := .zero
  indent := ""
  body := ⟨#[
    ⟨[.conditional ⟨3, .source "a", some 1, some 2, .zero⟩,
      .conditional ⟨12, .source "d", some 5, none, .zero⟩], .zero, true, false, false⟩,
    ⟨[.conditional ⟨4, .source "p", some 3, none, .zero⟩,
      .conditional ⟨6, .source "q", some 4, none, .zero⟩], .zero, true, false, false⟩,
    .unbraced (.conditional ⟨8, .source "b", some 6, none, .zero⟩) .zero false,
    .synthetic, .synthetic, .synthetic, .synthetic]⟩

/-- The chain of the root, which starts with the last rung of the ladder. -/
def outerChain : Chain := ⟨Body.root, [⟨8, 6⟩, ⟨12, 5⟩], by decide⟩

/-- The chain of the first branch. -/
def innerChain : Chain := ⟨1, [⟨4, 3⟩, ⟨6, 4⟩], by decide⟩

/-- The visits that discovery makes. -/
def nestedVisits : List Visit :=
  [⟨0, 2, [⟨0, outerChain, ⟨"A", "f", 8, [8, 12], false⟩⟩]⟩,
    ⟨1, 2, [⟨0, innerChain, ⟨"A", "f", 4, [4, 6], false⟩⟩]⟩, ⟨3, 0, []⟩, ⟨4, 0, []⟩, ⟨2, 1, []⟩,
    ⟨6, 0, []⟩, ⟨5, 0, []⟩]

theorem treeShaped_nested : nested.body.TreeShaped := ⟨by decide, by decide, by decide, by decide⟩

theorem discover_nested : nested.discover .standard 0 = .ok (nested, nestedVisits) := by
  decide +kernel

/-- The four branches of the two chains differ and lie below their homes, and neither home is a
rung. -/
theorem discovered_branches_apart_nested : nested.body.TreeShaped ∧
    nested.discover .standard 0 = .ok (nested, nestedVisits) ∧ [6, 5, 3, 4].Nodup ∧
    (∀ x ∈ outerChain.members, Relation.TransGen nested.body.IsChild 0 x.thenBranch) ∧
    (∀ x ∈ innerChain.members, Relation.TransGen nested.body.IsChild 1 x.thenBranch) ∧
    ∀ p, ¬ nested.body.IsRung p 0 ∧ ¬ nested.body.IsRung p 1 := by
  obtain ⟨after, visits, hdiscover, hnodup, hall⟩ :=
    discovered_branches_apart .standard 0 nested treeShaped_nested
  rw [discover_nested, Except.ok.injEq, Prod.mk.injEq] at hdiscover
  obtain ⟨hbody, rfl⟩ := hdiscover
  obtain rfl : nested.body = after := congrArg Method.body hbody
  obtain ⟨houter, -, -, -, -, hrung⟩ :=
    hall ⟨0, outerChain, ⟨"A", "f", 8, [8, 12], false⟩⟩ (by decide)
  obtain ⟨hinner, -, -, -, -, hrung'⟩ :=
    hall ⟨0, innerChain, ⟨"A", "f", 4, [4, 6], false⟩⟩ (by decide)
  exact ⟨treeShaped_nested, discover_nested, hnodup, houter, hinner,
    fun p => ⟨hrung p, hrung' p⟩⟩

end Method

end BranchExclusion
