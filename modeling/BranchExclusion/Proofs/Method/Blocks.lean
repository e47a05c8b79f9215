import BranchExclusion.Proofs.Chain.Instrument

/-!
# The blocks of an instrumented method

* `Body.PrologueAtRoot`: only the root may start with a constructor call, as in every body that was
  read from source;
* `Block.front_le_assertionIndex`: the two places of a block do not cross;
* `Method.instrumented_blocks`: the exact statements of every block.
-/

namespace BranchExclusion

/-- Only the root may start with a constructor call, which is neither an exit nor a conditional. -/
structure Body.PrologueAtRoot (body : Body) : Prop where
  only_root : ∀ {id b}, body.block id = .ok b → b.prologue = true → id = root
  first : ∀ {b s}, body.block root = .ok b → b.prologue = true → b.significant.head? = some s →
    s.isExit = false ∧ s.conditional? = none

/-- Filling in branches leaves the constructor call where it is. -/
theorem Body.PrologueAtRoot.filled {body after : Body} (h : body.PrologueAtRoot)
    (hf : body.Filled after) : after.PrologueAtRoot := by
  have hold : ∀ {id b'}, after.block id = .ok b' → b'.prologue = true → ∃ b New,
      body.block id = .ok b ∧ b.prologue = true ∧ b.Filled New b' := by
    intro id b' hb' hp
    rcases hf.cases_block hb' with ⟨b, hb, hbf⟩ | ⟨-, rfl⟩
    · exact ⟨b, _, hb, hbf.prologue_eq ▸ hp, hbf⟩
    · cases hp
  refine ⟨fun hb' hp => ?_, fun {b' t} hb' hp ht => ?_⟩
  · obtain ⟨b, New, hb, hbp, -⟩ := hold hb' hp
    exact h.only_root hb hbp
  · obtain ⟨b, New, hb, hbp, hbf⟩ := hold hb' hp
    obtain ⟨l, hl⟩ := List.head?_eq_some_iff.1 ht
    have hs : List.Forall₂ (Statement.Filled New) b.significant b'.significant :=
      Statement.filled_filter hbf.1
    rw [hl] at hs
    obtain ⟨u, r, hu, -, heq⟩ := List.forall₂_cons_right_iff.1 hs
    obtain ⟨hexit, hcond⟩ := h.first hb hbp (by rw [heq]; rfl)
    cases hu with
    | same => exact ⟨hexit, hcond⟩
    | branch c x hc => cases hcond

/-- The end of a block does not lie before its front, unless an exit stands where the constructor
call would. -/
theorem Block.front_le_assertionIndex {b : Block}
    (h : b.prologue = true → ∀ s, b.significant.head? = some s → s.isExit = false) :
    b.front ≤ b.assertionIndex := by
  rcases b.front_cases with ⟨hf, -⟩ | ⟨hp, pre, s, post, hb, hs, hpre, hf⟩
  · omega
  have hfirst : s.isExit = false := h hp s (head?_significant hb hs hpre)
  obtain ⟨pre', s', post', hb', hs', hpost'⟩ := exists_lastSignificant
    (l := b.statements) ⟨s, by simp [hb], hs⟩
  rw [assertionIndex_eq hb' hs' hpost']
  split
  · next hexit =>
    -- an exit at or before the constructor call would be that call or a comment
    by_contra hlt
    rw [hf] at hlt
    have hle : pre'.length ≤ pre.length := by omega
    have hget : b.statements[pre'.length]? = some s' := by simp [hb']
    rcases Nat.lt_or_eq_of_le hle with hlt' | heq
    · rw [hb, List.getElem?_append_left hlt'] at hget
      rw [hpre s' (List.mem_of_getElem? hget)] at hs'
      cases hs'
    · rw [hb, heq] at hget
      simp only [List.getElem?_append_right (Nat.le_refl _), Nat.sub_self, List.getElem?_cons_zero,
        Option.some.injEq] at hget
      rw [hget, hexit] at hfirst
      cases hfirst
  · exact b.front_le_length

/-- **The blocks of an instrumented method.** No block is added or removed. Every block keeps its
statements, and gets the declarations and assertions of the chains whose home it is and the
assignment of the member whose branch it is: declarations and assignment at its front, assertions
before the exit that it ends with. -/
theorem Method.instrumented_blocks (s : Scanner) (index : ℕ) (m : Method) (tree : m.body.TreeShaped)
    (hpro : m.body.PrologueAtRoot) :
    ∃ after visits, m.discover s index = .ok ({ m with body := after }, visits) ∧
      ∀ style declaration placed outcome,
        after.instrument style ((Registry.empty.add visits).forMethod index) declaration =
          .ok (placed, outcome) →
        placed.size = after.size ∧ ∀ id b, after.block id = .ok b →
          let chains := (Registry.empty.add visits).forMethod index
          let raised := style.raises (chains.flatMap Chain.members) id
          b.front ≤ b.assertionIndex ∧ raised.length ≤ 1 ∧
          placed.block id = .ok { b with
            statements := b.statements.take b.front ++ style.declarations chains id ++ raised ++
              (b.statements.take b.assertionIndex).drop b.front ++ style.exclusions chains id ++
              b.statements.drop b.assertionIndex } := by
  obtain ⟨after, visits, hdiscover, hf, -, hp, hwoven⟩ := m.exists_woven s index tree
  refine ⟨after, visits, hdiscover, fun style declaration placed outcome h => ?_⟩
  obtain ⟨-, hw⟩ := hwoven h
  refine ⟨hw.size_eq, fun id b hb => ?_⟩
  have hle : b.front ≤ b.assertionIndex := by
    refine Block.front_le_assertionIndex fun hbp t ht => ?_
    have hpro' := hpro.filled hf
    have hroot := hpro'.only_root hb hbp
    subst hroot
    exact (hpro'.first hb hbp ht).1
  refine ⟨hle, FlagStyle.length_raises_le hp.nodup, ?_⟩
  rw [hw.block_eq hb, Block.weave, Nat.max_eq_right hle]

/-! ### A small method -/

namespace Method

/-- A constructor with two adjacent conditionals before its exit. The second lacks its branch. -/
def sample : Method where
  owner := "A"
  name := "A"
  span := .zero
  bodyRange := .zero
  indent := ""
  body := ⟨#[
    ⟨[.other ⟨"super();", .zero, .zero⟩, .conditional ⟨3, .source "a", some 1, none, .zero⟩,
      .conditional ⟨6, .source "b", none, none, .zero⟩, .exit .returns ⟨"return;", .zero, .zero⟩],
      .zero, true, false, true⟩,
    ⟨[.other ⟨"x();", .zero, .zero⟩], .zero, true, false, false⟩]⟩

/-- Its body with the missing branch filled in. -/
def sampleBody : Body := ⟨#[
  ⟨[.other ⟨"super();", .zero, .zero⟩, .conditional ⟨3, .source "a", some 1, none, .zero⟩,
    .conditional ⟨6, .source "b", some 2, none, .zero⟩, .exit .returns ⟨"return;", .zero, .zero⟩],
    .zero, true, false, true⟩,
  ⟨[.other ⟨"x();", .zero, .zero⟩], .zero, true, false, false⟩, .synthetic]⟩

/-- The chain of its two conditionals. -/
def sampleChain : Chain := ⟨Body.root, [⟨3, 1⟩, ⟨6, 2⟩], by decide⟩

/-- Its body with the chain instrumented. -/
def samplePlaced : Body := ⟨#[
  ⟨[.other ⟨"super();", .zero, .zero⟩, .declaration "boolean" "branch3" (some (.bool false)),
    .declaration "boolean" "branch6" (some (.bool false)),
    .conditional ⟨3, .source "a", some 1, none, .zero⟩,
    .conditional ⟨6, .source "b", some 2, none, .zero⟩,
    .assertion (.xor (.name "branch3") (.name "branch6")),
    .exit .returns ⟨"return;", .zero, .zero⟩], .zero, true, false, true⟩,
  ⟨[.assignment "branch3" (.bool true), .other ⟨"x();", .zero, .zero⟩], .zero, true, false, false⟩,
  ⟨[.assignment "branch6" (.bool true)], .zero, true, false, false⟩]⟩

theorem treeShaped_sample : sample.body.TreeShaped := ⟨by decide, by decide, by decide, by decide⟩

theorem prologueAtRoot_sample : sample.body.PrologueAtRoot := by
  refine ⟨fun {id b} hb hp => ?_, fun {b s} hb _ hs => ?_⟩
  · rw [Body.block_eq_ok] at hb
    rcases id with _ | _ | id
    · rfl
    · cases hb
      cases hp
    · cases hb
  · cases hb
    cases hs
    exact ⟨rfl, rfl⟩

theorem discover_sample : ∃ visits,
    sample.discover .standard 0 = .ok ({ sample with body := sampleBody }, visits) ∧
      (Registry.empty.add visits).forMethod 0 = [sampleChain] := ⟨_, rfl, rfl⟩

/-- The small method has one discovery. -/
theorem eq_of_discover_sample {after : Body} {visits : List Visit}
    (h : sample.discover .standard 0 = .ok ({ sample with body := after }, visits)) :
    after = sampleBody ∧ (Registry.empty.add visits).forMethod 0 = [sampleChain] := by
  obtain ⟨visits', hdiscover, hchains⟩ := discover_sample
  rw [hdiscover, Except.ok.injEq, Prod.mk.injEq, Method.mk.injEq] at h
  obtain ⟨⟨-, -, -, -, -, rfl⟩, rfl⟩ := h
  exact ⟨rfl, hchains⟩

theorem instrument_sample :
    sampleBody.instrument .standard [sampleChain] "A.A" = .ok (samplePlaced, ⟨1, 2, 1⟩) := rfl

/-- The root of the small method: the constructor call, the declarations, the conditionals, the
assertion and the exit. -/
theorem instrumented_blocks_sample : samplePlaced.size = sampleBody.size ∧
    ∃ b, sampleBody.block Body.root = .ok b ∧ b.front = 1 ∧ b.assertionIndex = 3 ∧
      samplePlaced.block Body.root = .ok { b with
        statements := b.statements.take 1 ++
          FlagStyle.standard.declarations [sampleChain] Body.root ++ [] ++
          (b.statements.take 3).drop 1 ++
          FlagStyle.standard.exclusions [sampleChain] Body.root ++ b.statements.drop 3 } := by
  obtain ⟨after, visits, hdiscover, h⟩ :=
    instrumented_blocks .standard 0 sample treeShaped_sample prologueAtRoot_sample
  obtain ⟨rfl, hchains⟩ := eq_of_discover_sample hdiscover
  rw [hchains] at h
  obtain ⟨hsize, hblocks⟩ := h .standard "A.A" samplePlaced ⟨1, 2, 1⟩ instrument_sample
  obtain ⟨-, -, hroot⟩ := hblocks Body.root _ rfl
  exact ⟨hsize, _, rfl, rfl, rfl, hroot⟩

end Method

end BranchExclusion
